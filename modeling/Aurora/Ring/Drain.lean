import Aurora.Lib.Loop
import Aurora.Ring.Calls

/-! What a receiver gets out of a ring that nobody else touches. A get takes the
first slot that was handed over; a slot that fails authentication keeps its mark,
so the scan stops there every time. The slots in front of it are taken one after
the other, and nothing else changes. -/
namespace Aurora.Drain
open Lib

/-- What decryption makes of the packet in a slot. -/
def opened (decrypt : Decryption) (d : Direction) (shm : Memory) (i : Nat) : Option (List UInt8) :=
  decrypt key nonce ad (shm.read (d.slot i) pktSize)

/-- A slot that was handed over and that no failing slot comes before. -/
def Deliverable (decrypt : Decryption) (d : Direction) (shm : Memory) (i : Nat) : Prop :=
  i < maxEntry ∧ shm (d.owner i) = d.receiver ∧
    ∀ j ≤ i, shm (d.owner j) = d.receiver → (opened decrypt d shm j).isSome

instance (decrypt : Decryption) (d : Direction) (shm : Memory) (i : Nat) :
    Decidable (Deliverable decrypt d shm i) :=
  inferInstanceAs (Decidable (_ ∧ _ ∧ _))

/-- In the order in which they are taken. -/
def deliverable (decrypt : Decryption) (d : Direction) (shm : Memory) : List Nat :=
  (List.range maxEntry).filter fun i => decide (Deliverable decrypt d shm i)

/-- A filtered range starts with the first hit; what a second predicate keeps of
the others follows. -/
theorem filter_range_first {p q : Nat → Bool} {i n : Nat} (bound : i < n) (hit : p i = true)
    (first : ∀ j < i, p j = false) (others : ∀ j, q j = (p j && j != i)) :
    (List.range n).filter p = i :: (List.range n).filter q := by
  obtain ⟨before, after, split⟩ := List.append_of_mem (List.mem_range.mpr bound)
  have sorted := List.pairwise_lt_range (n := n)
  rw [split, List.pairwise_append, List.pairwise_cons] at sorted
  obtain ⟨_, ⟨above, _⟩, below⟩ := sorted
  have miss : ∀ j ∈ before, p j = false := fun j member => first j (below j member i List.mem_cons_self)
  have tail : after.filter q = after.filter p := by
    refine List.filter_congr fun j member => ?_
    rw [others, bne_iff_ne.mpr (Nat.ne_of_gt (above j member)), Bool.and_true]
  have front : before.filter p = [] ∧ before.filter q = [] := by
    constructor
    · exact List.filter_eq_nil_iff.mpr fun j member => by simp [miss j member]
    · exact List.filter_eq_nil_iff.mpr fun j member => by simp [others, miss j member]
  rw [split, List.filter_append, List.filter_append, front.1, front.2, List.filter_cons_of_pos hit,
    List.filter_cons_of_neg (by simp [others]), tail]
  rfl

section Step
variable {decrypt : Decryption} {d : Direction} {shm : Memory} {i j : Nat} {message : List UInt8}

theorem mem_deliverable : i ∈ deliverable decrypt d shm ↔ Deliverable decrypt d shm i := by
  simp only [deliverable, List.mem_filter, List.mem_range, decide_eq_true_eq]
  exact ⟨And.right, fun slot => ⟨slot.1, slot⟩⟩

/-- An authentic slot with nothing but authentic ones in front of it. -/
theorem deliverable_of_front (range : i < maxEntry) (owned : shm (d.owner i) = d.receiver)
    (authentic : opened decrypt d shm i = some message)
    (front : ∀ j < i, shm (d.owner j) = d.receiver → (opened decrypt d shm j).isSome) :
    Deliverable decrypt d shm i := by
  refine ⟨range, owned, fun j most handed => ?_⟩
  obtain less | rfl := Nat.lt_or_eq_of_le most
  · exact front j less handed
  · rw [authentic, Option.isSome_some]

theorem deliverable_sorted (decrypt : Decryption) (d : Direction) (shm : Memory) :
    (deliverable decrypt d shm).Pairwise (· < ·) :=
  List.pairwise_lt_range.filter _

theorem deliverable_length (decrypt : Decryption) (d : Direction) (shm : Memory) :
    (deliverable decrypt d shm).length ≤ maxEntry :=
  (List.length_filter_le _ _).trans_eq List.length_range

theorem opened_flip (value : UInt8) (bound : i < maxEntry) :
    opened decrypt d (shm.store (flip d i value)) j = opened decrypt d shm j := by
  rw [opened, opened, flip_slot shm value bound]

theorem flip_owner (value : UInt8) (bound : i < maxEntry) (range : j < maxEntry) (other : j ≠ i) :
    shm.store (flip d i value) (d.owner j) = shm (d.owner j) :=
  (flip_apart shm value bound d j range fun same => other same.2.symm).1

/-- Taking the first slot leaves the others as deliverable as they were. -/
theorem deliverable_flip (bound : i < maxEntry) (first : ∀ j < i, shm (d.owner j) ≠ d.receiver)
    (authentic : opened decrypt d shm i = some message) :
    Deliverable decrypt d (shm.store (flip d i d.sender)) j ↔
      Deliverable decrypt d shm j ∧ j ≠ i := by
  have freed : shm.store (flip d i d.sender) (d.owner i) ≠ d.receiver := by
    rw [flip_same]
    exact d.sender_ne_receiver
  constructor
  · rintro ⟨range, owned, earlier⟩
    have other : j ≠ i := by
      rintro rfl
      exact freed owned
    rw [flip_owner _ bound range other] at owned
    refine ⟨⟨range, owned, fun k below handed => ?_⟩, other⟩
    by_cases same : k = i
    · rw [same, authentic, Option.isSome_some]
    · rw [← opened_flip d.sender bound]
      apply earlier k below
      rwa [flip_owner _ bound (below.trans_lt range) same]
  · rintro ⟨⟨range, owned, earlier⟩, other⟩
    refine ⟨range, (flip_owner _ bound range other).trans owned, fun k below handed => ?_⟩
    have different : k ≠ i := by
      rintro rfl
      exact freed handed
    rw [opened_flip _ bound]
    apply earlier k below
    rwa [flip_owner _ bound (below.trans_lt range) different] at handed

/-- The slot that a get takes is the head of the list, and the tail stays. -/
theorem deliverable_cons (bound : i < maxEntry) (owned : shm (d.owner i) = d.receiver)
    (first : ∀ j < i, shm (d.owner j) ≠ d.receiver)
    (authentic : opened decrypt d shm i = some message) :
    deliverable decrypt d shm = i :: deliverable decrypt d (shm.store (flip d i d.sender)) := by
  have head : Deliverable decrypt d shm i :=
    deliverable_of_front bound owned authentic fun j less handed => absurd handed (first j less)
  refine filter_range_first bound (by simpa using head) (fun j below => ?_) fun j => ?_
  · simp only [decide_eq_false_iff_not]
    exact fun slot => first j below slot.2.1
  · simp only [deliverable_flip bound first authentic, Bool.decide_and, ne_eq, bne, decide_not]
    rfl

/-- Nothing at or behind a failing slot is delivered. -/
theorem not_deliverable (owned : shm (d.owner i) = d.receiver) (failed : opened decrypt d shm i = none)
    (behind : i ≤ j) : ¬ Deliverable decrypt d shm j := by
  rintro ⟨_, _, earlier⟩
  have authentic := earlier i behind owned
  rw [failed] at authentic
  cases authentic

/-- Everything a get can do, in terms of the list. -/
theorem getMessage_deliverable (decrypt : Decryption) (d : Direction) (shm : Memory) :
    (deliverable decrypt d shm = [] ∧ ((∀ i < maxEntry, shm (d.owner i) ≠ d.receiver) ∧
        getMessage decrypt d shm = (.nothing, []) ∨
      ∃ i < maxEntry, shm (d.owner i) = d.receiver ∧ opened decrypt d shm i = none ∧
        getMessage decrypt d shm = (.forged i, []))) ∨
    ∃ i message rest, deliverable decrypt d shm = i :: rest ∧ opened decrypt d shm i = some message ∧
      getMessage decrypt d shm = (.received i message, [flip d i d.sender]) ∧
      deliverable decrypt d (shm.apply [flip d i d.sender]) = rest := by
  obtain ⟨idle, same⟩ | ⟨i, bound, owned, first, result⟩ := getMessage_cases decrypt d shm
  · refine Or.inl ⟨List.eq_nil_iff_forall_not_mem.mpr fun j member => ?_, Or.inl ⟨idle, same⟩⟩
    obtain ⟨range, handed, _⟩ := mem_deliverable.mp member
    exact idle j range handed
  obtain ⟨failed, same⟩ | ⟨message, authentic, same⟩ := result
  · refine Or.inl ⟨List.eq_nil_iff_forall_not_mem.mpr fun j member => ?_,
      Or.inr ⟨i, bound, owned, failed, same⟩⟩
    have slot := mem_deliverable.mp member
    have behind : i ≤ j := Nat.le_of_not_lt fun less => first j less slot.2.1
    exact not_deliverable owned failed behind slot
  · exact Or.inr ⟨i, message, _, deliverable_cons bound owned first authentic, authentic, same, rfl⟩

end Step

/-- The stores that give slots back to the sender. -/
def handBack (d : Direction) (slots : List Nat) : List Store := slots.map fun i => flip d i d.sender

section HandBack
variable {d : Direction} {slots : List Nat} {i : Nat} {shm : Memory}

theorem handBack_frame {a : Nat} (outside : ∀ i ∈ slots, a ≠ d.owner i) :
    shm.apply (handBack d slots) a = shm a := by
  refine shm.apply_frame fun s member => ?_
  obtain ⟨i, slot, rfl⟩ := List.mem_map.mp member
  exact Ne.symm (outside i slot)

theorem handBack_owner (range : ∀ i ∈ slots, i < maxEntry) (member : i ∈ slots) :
    shm.apply (handBack d slots) (d.owner i) = d.sender := by
  induction slots generalizing shm with
  | nil => cases member
  | cons first rest ih =>
    have later : ∀ i ∈ rest, i < maxEntry := fun i slot => range i (List.mem_cons_of_mem _ slot)
    change (shm.store (flip d first d.sender)).apply (handBack d rest) (d.owner i) = d.sender
    by_cases again : i ∈ rest
    · exact ih later again
    · obtain rfl : i = first := (List.mem_cons.mp member).resolve_right again
      rw [handBack_frame, flip_same]
      intro j slot same
      have equal := (Direction.owner_injective (range i member) (later j slot) same).2
      exact again (equal ▸ slot)

end HandBack

/-- A call that scans, opens and hands back as `getMessage` does, into its
caller's buffer. -/
def Receives (decrypt : Decryption) (d : Direction)
    (call : Reply → Memory → GetOutcome × Reply × List Store) : Prop :=
  ∀ reply shm, ∃ messageLen, call reply shm = ((getMessage decrypt d shm).1,
    ⟨(reply.after (getMessage decrypt d shm).1).message, messageLen⟩, (getMessage decrypt d shm).2)

theorem openssh_receives (decrypt : Decryption) {enclave : Enclave} {message : Nat}
    (within : enclave.sgxIsWithinEnclave message msgSize = true) :
    Receives decrypt .inbound (Openssh.getInBuffer decrypt enclave message) := by
  intro reply shm
  rw [Openssh.getInBuffer, get, if_pos within]
  exact ⟨_, rfl⟩

theorem network_receives (decrypt : Decryption) {message : Nat}
    (within : isWithinSmram message msgSize = true) :
    Receives decrypt .outbound (Network.getOutBuffer decrypt message) := by
  intro reply shm
  rw [Network.getOutBuffer, get, if_pos within]
  cases (getMessage decrypt .outbound shm).1 <;> exact ⟨_, rfl⟩

/-- `while (0 == get(message, &len)) body;` The body works on everything but the
region. `none`: a body that does not return. -/
def whileGet {S : Type} (call : Reply → Memory → GetOutcome × Reply × List Store)
    (body : List UInt8 → S → Option S) : Nat → Reply → Memory → S → Option (S × Reply × Memory)
  | 0, _, _, _ => none
  | fuel + 1, reply, shm, s =>
    let (outcome, reply, stores) := call reply shm
    if outcome.code = 0 then
      (body reply.message s).bind (whileGet call body fuel reply (shm.apply stores))
    else some (s, reply, shm.apply stores)

/-- A slot that was handed over and fails authentication. -/
def Failing (decrypt : Decryption) (d : Direction) (shm : Memory) : Prop :=
  ∃ i < maxEntry, shm (d.owner i) = d.receiver ∧ opened decrypt d shm i = none

instance (decrypt : Decryption) (d : Direction) (shm : Memory) : Decidable (Failing decrypt d shm) :=
  inferInstanceAs (Decidable (∃ i, i < maxEntry ∧ _))

/-- What the receive buffer holds after the loop: zeros if the loop was stopped
by a failing slot, and the last message otherwise. -/
def remains (decrypt : Decryption) (d : Direction) (shm : Memory) (before : List UInt8) : List UInt8 :=
  if Failing decrypt d shm then List.replicate msgSize 0
  else match (deliverable decrypt d shm).getLast? with
    | none => before
    | some i => (opened decrypt d shm i).getD []

/-- The last slot that was handed over, if no slot that was handed over fails. -/
def FinalSlot (decrypt : Decryption) (d : Direction) (shm : Memory) (i : Nat) : Prop :=
  Deliverable decrypt d shm i ∧ ∀ j < maxEntry, i < j → shm (d.owner j) ≠ d.receiver

section Loop
variable {decrypt : Decryption} {d : Direction} {shm : Memory} {i : Nat} {message : List UInt8}

theorem failing_flip (bound : i < maxEntry) (authentic : opened decrypt d shm i = some message) :
    Failing decrypt d (shm.store (flip d i d.sender)) ↔ Failing decrypt d shm := by
  constructor
  · rintro ⟨j, range, owned, failed⟩
    have other : j ≠ i := by
      rintro rfl
      rw [flip_same] at owned
      exact d.sender_ne_receiver owned
    rw [flip_owner _ bound range other] at owned
    rw [opened_flip _ bound] at failed
    exact ⟨j, range, owned, failed⟩
  · rintro ⟨j, range, owned, failed⟩
    have other : j ≠ i := by
      rintro rfl
      rw [authentic] at failed
      cases failed
    refine ⟨j, range, (flip_owner _ bound range other).trans owned, ?_⟩
    rwa [opened_flip _ bound]

theorem FinalSlot.unique {j : Nat} (left : FinalSlot decrypt d shm i) (right : FinalSlot decrypt d shm j) :
    i = j := by
  obtain less | same | more := Nat.lt_trichotomy i j
  · exact absurd right.1.2.1 (left.2 j right.1.1 less)
  · exact same
  · exact absurd left.1.2.1 (right.2 i left.1.1 more)

theorem deliverable_of_not_failing (fine : ¬ Failing decrypt d shm) (range : i < maxEntry)
    (owned : shm (d.owner i) = d.receiver) : Deliverable decrypt d shm i := by
  refine ⟨range, owned, fun j most handed => Option.isSome_iff_ne_none.mpr fun failed => ?_⟩
  exact fine ⟨j, most.trans_lt range, handed, failed⟩

/-- If no slot fails, the last one to be taken is the final one. -/
theorem finalSlot_of_getLast (fine : ¬ Failing decrypt d shm)
    (last : (deliverable decrypt d shm).getLast? = some i) : FinalSlot decrypt d shm i := by
  obtain ⟨front, list⟩ := List.getLast?_eq_some_iff.mp last
  refine ⟨mem_deliverable.mp (by simp [list]), fun j range behind owned => ?_⟩
  have member := mem_deliverable.mpr (deliverable_of_not_failing fine range owned)
  have sorted := deliverable_sorted decrypt d shm
  rw [list] at member sorted
  obtain early | same := List.mem_append.mp member
  · have less := (List.pairwise_append.mp sorted).2.2 j early i List.mem_cons_self
    omega
  · exact absurd (List.mem_singleton.mp same) (Nat.ne_of_gt behind)

/-- The buffer holds the message of the final slot, or nothing of any message. -/
theorem remains_cases (decrypt : Decryption) (d : Direction) (shm : Memory) (before : List UInt8) :
    (∃ i message, FinalSlot decrypt d shm i ∧ opened decrypt d shm i = some message ∧
      remains decrypt d shm before = message) ∨
    (∀ i, ¬ FinalSlot decrypt d shm i) ∧
      (remains decrypt d shm before = before ∨
        remains decrypt d shm before = List.replicate msgSize 0) := by
  unfold remains
  by_cases failing : Failing decrypt d shm
  · rw [if_pos failing]
    refine Or.inr ⟨fun i final => ?_, Or.inr rfl⟩
    obtain ⟨j, range, owned, failed⟩ := failing
    obtain behind | before := Nat.lt_or_ge i j
    · exact final.2 j range behind owned
    · exact not_deliverable owned failed before final.1
  rw [if_neg failing]
  cases last : (deliverable decrypt d shm).getLast? with
  | none =>
    rw [List.getLast?_eq_none_iff] at last
    refine Or.inr ⟨fun i final => ?_, Or.inl rfl⟩
    have member := mem_deliverable.mpr final.1
    rw [last] at member
    cases member
  | some i =>
    have final := finalSlot_of_getLast failing last
    obtain ⟨message, authentic⟩ := Option.isSome_iff_exists.mp (final.1.2.2 i le_rfl final.1.2.1)
    refine Or.inl ⟨i, message, final, authentic, ?_⟩
    exact (congrArg (·.getD []) authentic).trans Option.getD_some

/-- One round of the loop hands the description of the buffer on. -/
theorem remains_next {rest : List Nat} (list : deliverable decrypt d shm = i :: rest)
    (authentic : opened decrypt d shm i = some message)
    (next : deliverable decrypt d (shm.apply [flip d i d.sender]) = rest) (before : List UInt8) :
    remains decrypt d (shm.apply [flip d i d.sender]) message = remains decrypt d shm before := by
  have bound : i < maxEntry := (mem_deliverable.mp (list ▸ List.mem_cons_self)).1
  change deliverable decrypt d (shm.store (flip d i d.sender)) = rest at next
  change remains decrypt d (shm.store (flip d i d.sender)) message = _
  simp only [remains, failing_flip bound authentic, list, next, List.getLast?_cons]
  split
  · rfl
  · cases rest.getLast? with
    | none => simp only [Option.getD_none, authentic, Option.getD_some]
    | some last => simp only [Option.getD_some, opened_flip _ bound]

/-- The loop takes the deliverable slots, one a round, and leaves at the first
call that finds none. -/
theorem whileGet_ends {S : Type} {call : Reply → Memory → GetOutcome × Reply × List Store}
    (receives : Receives decrypt d call) (body : List UInt8 → S → Option S) (reply : Reply) (s : S)
    (returns : ∀ i ∈ deliverable decrypt d shm, ∀ message, opened decrypt d shm i = some message →
      ∀ s, (body message s).isSome) :
    ∃ (final : S) (last : Reply), last.message = remains decrypt d shm reply.message ∧
      Ends (fun fuel => whileGet call body fuel reply shm s) (deliverable decrypt d shm).length
        (final, last, shm.apply (handBack d (deliverable decrypt d shm))) := by
  -- Induction on the list, which each round shortens by its head.
  generalize list : deliverable decrypt d shm = slots at returns ⊢
  induction slots generalizing shm reply s with
  | nil =>
    obtain ⟨messageLen, called⟩ := receives reply shm
    obtain ⟨_, stopped⟩ | ⟨i, message, rest, taken, _⟩ := getMessage_deliverable decrypt d shm
    · obtain ⟨idle, same⟩ | ⟨i, range, owned, failed, same⟩ := stopped
      · refine ⟨s, ⟨reply.message, messageLen⟩, ?_, .leave rfl fun fuel => ?_⟩
        · have fine : ¬ Failing decrypt d shm := fun ⟨j, inside, handed, _⟩ => idle j inside handed
          rw [remains, if_neg fine, list]
          rfl
        · rw [whileGet, called, same]
          rfl
      · refine ⟨s, ⟨List.replicate msgSize 0, messageLen⟩, ?_, .leave rfl fun fuel => ?_⟩
        · rw [remains, if_pos ⟨i, range, owned, failed⟩]
        · rw [whileGet, called, same]
          rfl
    · rw [list] at taken
      cases taken
  | cons i slots ih =>
    obtain ⟨messageLen, called⟩ := receives reply shm
    obtain ⟨empty, _⟩ | ⟨j, message, rest, taken, authentic, same, next⟩ :=
      getMessage_deliverable decrypt d shm
    · rw [list] at empty
      cases empty
    rw [list] at taken
    obtain ⟨rfl, rfl⟩ := List.cons.inj taken
    have bound : i < maxEntry := (mem_deliverable.mp (list ▸ List.mem_cons_self)).1
    obtain ⟨worked, returned⟩ := Option.isSome_iff_exists.mp
      (returns i List.mem_cons_self message authentic s)
    obtain ⟨final, last, kept, ends⟩ := ih ⟨message, messageLen⟩ worked next fun k member other opens =>
      returns k (List.mem_cons_of_mem _ member) other ((opened_flip _ bound).symm.trans opens)
    refine ⟨final, last, ?_, .round rfl (fun fuel => ?_) ends⟩
    · rw [kept, remains_next list authentic next]
    · rw [whileGet, called, same]
      simp only [GetOutcome.code, if_true, Reply.after, returned, Option.bind_some]

end Loop

end Aurora.Drain
