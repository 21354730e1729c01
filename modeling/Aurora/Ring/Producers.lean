import Aurora.Ring.Integrity
import Aurora.Ring.Interleaving

/-! Several enclave threads that send at once. The enclaves take no lock: a put
finds its slot, fills it and flips its ownership byte in separate accesses. The
threads here are cut at those accesses, and SMM collects messages between any
two of them. Nothing is lost as long as no thread finds a slot that another one
has found and not yet handed over; where one does, a message can be lost. -/
namespace Aurora.Producers
open Lib
open Integrity (Build)
open Interleaving (Consistent)

structure System where
  shm : Memory
  calls : Nat → Option Progress

def start (boot : Memory) : System := ⟨boot.apply initRingBuffer, fun _ => none⟩

/-- `admits` restricts which threads may take their next step. A put that is
refused touches nothing and is left out. -/
inductive Step (aead : Aead 16) (enclave : Enclave) (admits : System → Nat → Prop) :
    System → List Event → System → Prop where
  | getOut (message : Nat) (reply : Reply) :
      Step aead enclave admits s
        [(Network.getOutBuffer aead.decrypt message reply s.shm).1.event .outbound]
        { s with shm := s.shm.apply (Network.getOutBuffer aead.decrypt message reply s.shm).2.2 }
  | callPutOut (t : Nat) (build : Build) (raw : Buffer) (msgLen : Int) (random : Memory) :
      s.calls t = none → build.sends = .outbound →
      build.plaintext enclave raw msgLen random = some message →
      Step aead enclave admits s []
        { s with calls := Function.update s.calls t (some (.putScan .outbound message)) }
  | proceed (t : Nat) : s.calls t = some p → admits s t →
      Step aead enclave admits s (p.advance aead aead.decrypt s.shm).1.events
        ⟨s.shm.apply (p.advance aead aead.decrypt s.shm).2,
          Function.update s.calls t (p.advance aead aead.decrypt s.shm).1.progress⟩

/-- The entry the scan of `t` would stop at is one that another call under way
has already settled on. -/
def Contended (s : System) (t : Nat) : Prop :=
  ∃ message i, s.calls t = some (.putScan .outbound message) ∧
    search .outbound outSgx s.shm = some i ∧
    ∃ u ≠ t, ∃ p, s.calls u = some p ∧ p.place = some (.outbound, i)

/-- A call of `put_out_buffer`. -/
def Sending : Progress → Prop
  | .putScan d _ | .putCopy d _ _ | .putFlip d _ _ => d = .outbound
  | .getScan _ | .getCopy _ _ | .getDecrypt _ _ _ | .getFlip _ _ _ => False

section Advance
variable {aead : Aead 16} {decrypt : Decryption} {shm : Memory} {p next : Progress}

/-- A put settles on a slot in its scan, and stays with it. -/
theorem Sending.advance (sending : Sending p)
    (running : (p.advance aead decrypt shm).1.progress = some next) :
    Sending next ∧ ((∃ message i, p = .putScan .outbound message ∧
        search .outbound outSgx shm = some i ∧ next.place = some (.outbound, i)) ∨
      next.place = p.place) := by
  cases p with
  | putScan d message =>
    obtain rfl : d = .outbound := sending
    cases found : search .outbound outSgx shm with
    | none => simp [Progress.advance, found, Advance.progress, Direction.sender] at running
    | some i =>
      simp only [Progress.advance, found, Advance.progress, Direction.sender,
        Option.some.injEq] at running
      subst running
      exact ⟨rfl, Or.inl ⟨message, i, rfl, rfl, rfl⟩⟩
  | putCopy d message i =>
    simp only [Progress.advance, Advance.progress, Option.some.injEq] at running
    subst running
    exact ⟨sending, Or.inr rfl⟩
  | putFlip d message i => simp [Progress.advance, Advance.progress] at running
  | getScan | getCopy | getDecrypt | getFlip => exact absurd sending id

/-- The slot a call has settled on is all it stores to. -/
theorem Sending.stores (sending : Sending p) (consistent : Consistent aead shm p)
    (decrypt : Decryption) :
    (p.advance aead decrypt shm).2 = [] ∨
      ∃ i, p.place = some (.outbound, i) ∧
        Apart .outbound i shm (shm.apply (p.advance aead decrypt shm).2) := by
  cases p with
  | putScan d message =>
    refine Or.inl ?_
    simp only [Progress.advance]
    split <;> rfl
  | putCopy d message i =>
    obtain ⟨rfl, whole, bound, _⟩ := consistent
    exact Or.inr ⟨i, rfl, slotCopy_apart shm (packet_length aead whole) bound⟩
  | putFlip d message i =>
    obtain ⟨rfl, bound, _⟩ := consistent
    exact Or.inr ⟨i, rfl, flip_apart shm _ bound⟩
  | getScan | getCopy | getDecrypt | getFlip => exact absurd sending id

end Advance

/-- No two calls under way have settled on one slot. -/
def Exclusive (calls : Nat → Option Progress) : Prop :=
  ∀ t u p q, t ≠ u → calls t = some p → calls u = some q → p.place ≠ none → p.place ≠ q.place

/-- A call may settle on a slot that no other call has settled on. -/
theorem Exclusive.update {calls : Nat → Option Progress} {t : Nat} {new : Option Progress}
    (exclusive : Exclusive calls)
    (apart : ∀ q ∈ new, q.place ≠ none →
      ∀ u r, u ≠ t → calls u = some r → q.place ≠ r.place) :
    Exclusive (Function.update calls t new) := by
  intro u v p q different left right settled
  obtain ⟨rfl, renewed⟩ | ⟨_, old⟩ := update_cases left
  · obtain ⟨rfl, _⟩ | ⟨other, kept⟩ := update_cases right
    · exact absurd rfl different
    · exact apart p renewed settled v q other kept
  · obtain ⟨rfl, renewed⟩ | ⟨_, kept⟩ := update_cases right
    · intro same
      exact apart q renewed (same ▸ settled) u p different old same.symm
    · exact exclusive u v p q different old kept settled

structure Invariant (aead : Aead 16) (events : List Event) (s : System) : Prop where
  refines : Refines aead events s.shm
  sending : ∀ t p, s.calls t = some p → Sending p
  consistent : ∀ t p, s.calls t = some p → Consistent aead s.shm p
  exclusive : Exclusive s.calls

theorem Invariant.initial (aead : Aead 16) (boot : Memory) : Invariant aead [] (start boot) := by
  refine ⟨?_, ?_, ?_, ?_⟩
  · dsimp only [start]
    exact Refines.initial aead boot
  · rintro _ _ ⟨⟩
  · rintro _ _ ⟨⟩
  · rintro _ _ _ _ _ ⟨⟩

section Steps
variable {aead : Aead 16} {enclave : Enclave} {events : List Event} {s : System} {p : Progress}

theorem Invariant.proceed (invariant : Invariant aead events s) (running : s.calls t = some p)
    (alone : ¬ Contended s t) :
    Invariant aead (events ++ (p.advance aead aead.decrypt s.shm).1.events)
      ⟨s.shm.apply (p.advance aead aead.decrypt s.shm).2,
        Function.update s.calls t (p.advance aead aead.decrypt s.shm).1.progress⟩ := by
  obtain ⟨refines, sending, consistent, exclusive⟩ := invariant
  obtain ⟨⟨d, effect⟩, continues⟩ := (consistent t p running).advance refines.sound
  refine ⟨refines.effect effect, ?_, ?_, ?_⟩
  · intro u q after
    obtain ⟨_, renewed⟩ | ⟨_, old⟩ := update_cases after
    · exact ((sending t p running).advance renewed).1
    · exact sending u q old
  · intro u q after
    obtain ⟨_, renewed⟩ | ⟨other, old⟩ := update_cases after
    · exact continues q renewed
    · obtain quiet | ⟨i, place, apart⟩ :=
        (sending t p running).stores (consistent t p running) aead.decrypt
      · simp only [quiet, Memory.apply_nil]
        exact consistent u q old
      · refine (consistent u q old).apart apart fun same => ?_
        exact exclusive t u p q other.symm running old (by simp [place]) (place.trans same.symm)
  · apply exclusive.update
    intro q renewed settled u r other old same
    obtain ⟨_, ⟨message, i, rfl, found, place⟩ | kept⟩ := (sending t p running).advance renewed
    · exact alone ⟨message, i, running, found, u, other, r, old, same.symm.trans place⟩
    · exact exclusive t u p r other.symm running old (kept ▸ settled) (kept.symm.trans same)

theorem Invariant.step (invariant : Invariant aead events s)
    (step : Step aead enclave (fun s t => ¬ Contended s t) s emitted after) :
    Invariant aead (events ++ emitted) after := by
  cases step with
  | getOut message reply =>
    obtain ⟨refines, sending, consistent, exclusive⟩ := invariant
    exact ⟨refines.effects (get_effects aead .outbound s.shm _ refines.sound), sending,
      fun t p running => (consistent t p running).getOut _, exclusive⟩
  | callPutOut t build raw msgLen random idle outbound accepted =>
    obtain ⟨refines, sending, consistent, exclusive⟩ := invariant
    rw [List.append_nil]
    refine ⟨refines, ?_, ?_, exclusive.update ?_⟩
    · intro u q after
      obtain ⟨_, renewed⟩ | ⟨_, old⟩ := update_cases after
      · cases renewed
        exact rfl
      · exact sending u q old
    · intro u q after
      obtain ⟨_, renewed⟩ | ⟨_, old⟩ := update_cases after
      · cases renewed
        exact ⟨rfl, build.plaintext_length accepted⟩
      · exact consistent u q old
    · rintro _ ⟨⟩ settled
      exact absurd rfl settled
  | proceed t running alone => exact invariant.proceed running alone

end Steps

/-- Every message that a put returned 0 for has been collected or still waits in
a slot of its own, as often as it was put. -/
def NothingLost (aead : Aead 16) (events : List Event) (shm : Memory) : Prop :=
  ∀ message, (Bag.puts (bagCalls .outbound events) : Multiset (List UInt8)).count message =
    (Bag.takes (bagCalls .outbound events) : Multiset (List UInt8)).count message +
      copies aead.decrypt .outbound message shm

section Lost
variable {aead : Aead 16} (enclave : Enclave) {events : List Event} {s : System}

/-- A put that is left alone, step by step. -/
theorem run_put {admits : System → Nat → Prop}
    (scanning : s.calls t = some (.putScan .outbound message))
    (found : search .outbound outSgx s.shm = some i) (now : admits s t)
    (later : ∀ shm new, admits ⟨shm, Function.update s.calls t new⟩ t) :
    Run (Step aead enclave admits) s [.stored .outbound message]
      ⟨s.shm.apply (slotCopy .outbound i (aead.encrypt key nonce ad message) ++
        [flip .outbound i outSmm]), Function.update s.calls t none⟩ := by
  have scanned : Run (Step aead enclave admits) s _ _ := .single (.proceed t scanning now)
  simp only [Progress.advance, Direction.sender, found, Advance.events, Advance.progress,
    Memory.apply_nil] at scanned
  have copied := scanned.next (.proceed t (Function.update_self _ _ _) (later _ _))
  simp only [Progress.advance, Advance.events, Advance.progress, List.append_nil,
    Function.update_idem] at copied
  have handed := copied.next (.proceed t (Function.update_self _ _ _) (later _ _))
  simp only [Progress.advance, Advance.events, Advance.progress, PutOutcome.event, List.nil_append,
    Function.update_idem, Direction.receiver, ← Memory.apply_append] at handed
  exact handed

/-- A call that has filled its slot loses its message if another one now finds
the same slot, overwrites it, and both hand it over. -/
theorem overwritten {shm : Memory} {calls : Nat → Option Progress}
    (balanced : NothingLost aead events shm) (different : u ≠ t)
    (filled : calls u = some (.putFlip .outbound lost i))
    (scanning : calls t = some (.putScan .outbound kept)) (whole : kept.length = msgSize)
    (found : search .outbound outSgx shm = some i) :
    ∃ last, Run (Step aead enclave fun _ _ => True) ⟨shm, calls⟩
        [.stored .outbound kept, .stored .outbound lost] last ∧
      ¬ NothingLost aead (events ++ [.stored .outbound kept, .stored .outbound lost]) last.shm := by
  obtain ⟨bound, free, _⟩ := search_some.mp found
  have handed : Run (Step aead enclave fun _ _ => True) ⟨shm, calls⟩ _ _ :=
    run_put enclave scanning found trivial fun _ _ => trivial
  have both := handed.next (.proceed u ((Function.update_of_ne different _ _).trans filled) trivial)
  refine ⟨_, both, fun balance => ?_⟩
  -- The second flip finds the entry flipped already.
  have again : ∀ m : Memory, (m.store (flip .outbound i outSmm)).apply [flip .outbound i outSmm] =
      m.store (flip .outbound i outSmm) := fun m => m.store_twice _
  have waiting : pending aead.decrypt .outbound _ = kept ::ₘ pending aead.decrypt .outbound shm :=
    pending_stored aead bound free (stored_apart aead bound whole) (stored_owner aead)
      (stored_slot aead bound whole)
  have before := balanced lost
  have after := balance lost
  have shown : bagCalls .outbound [.stored .outbound kept, .stored .outbound lost] =
      [.put kept, .put lost] := by simp [bagCalls, Event.bagCall]
  simp only [Progress.advance, Direction.receiver, bagCalls_append, shown, Bag.puts_append,
    Bag.takes_append, Bag.puts, Bag.takes, List.append_nil, ← pending_count, Memory.apply_concat, again] at before after
  rw [Memory.apply_concat] at waiting
  simp only [Direction.receiver] at waiting
  rw [waiting, Multiset.count_cons] at after
  simp only [← Multiset.coe_add, Multiset.count_add, ← Multiset.cons_coe, Multiset.count_cons,
    Multiset.coe_nil, Multiset.count_zero, if_true] at after
  omega

theorem Invariant.contended_loses (invariant : Invariant aead events s) (contended : Contended s t) :
    ∃ kept lost last, Run (Step aead enclave fun _ _ => True) s
        [.stored .outbound kept, .stored .outbound lost] last ∧
      ¬ NothingLost aead (events ++ [.stored .outbound kept, .stored .outbound lost]) last.shm := by
  obtain ⟨refines, sending, consistent, _⟩ := invariant
  obtain ⟨kept, i, scanning, found, u, different, p, running, place⟩ := contended
  have whole := (consistent t _ scanning).2
  cases p with
  | putScan => cases place
  | putCopy d lost j =>
    cases place
    obtain ⟨_, sized, bound, free⟩ := consistent u _ running
    have copied : Run (Step aead enclave fun _ _ => True) s _ _ := .single (.proceed u running trivial)
    simp only [Progress.advance, Advance.events, Advance.progress] at copied
    have filled := refines.effect (Effect.fill bound free sized)
    rw [List.append_nil] at filled
    have scanned : Function.update s.calls u (some (.putFlip .outbound lost i)) t = _ :=
      (Function.update_of_ne different.symm _ _).trans scanning
    obtain ⟨last, run, unbalanced⟩ := overwritten enclave (filled.balance .outbound)
      different (Function.update_self _ _ s.calls) scanned whole (search_slotCopy found _)
    exact ⟨kept, lost, last, copied.trans run, unbalanced⟩
  | putFlip d lost j =>
    cases place
    exact ⟨kept, lost,
      overwritten enclave (refines.balance .outbound) different running scanning whole found⟩
  | getScan | getCopy | getDecrypt | getFlip => exact absurd (sending u _ running) id

end Lost

/-- Any number of sending threads, any schedule, SMM collecting at any point: as
long as no scan stops at an entry that another call has settled on, every message
put is collected once or waits in one slot. From any state where a scan is about
to stop at such an entry, the threads can go on to lose a message whose put
returned 0. -/
theorem producers_lose_nothing (aead : Aead 16) (enclave : Enclave) (boot : Memory)
    {events : List Event} {s : System}
    (run : Run (Step aead enclave fun s t => ¬ Contended s t) (start boot) events s) :
    NothingLost aead events s.shm ∧
    ∀ t, Contended s t → ∃ kept lost last, Run (Step aead enclave fun _ _ => True) s
        [.stored .outbound kept, .stored .outbound lost] last ∧
      ¬ NothingLost aead (events ++ [.stored .outbound kept, .stored .outbound lost]) last.shm := by
  have invariant : Invariant aead events s :=
    run.invariant (Invariant.initial aead boot) fun held step => held.step step
  exact ⟨invariant.refines.balance .outbound, fun t => invariant.contended_loses enclave⟩

section Samples
variable {aead : Aead 16} {enclave : Enclave} {shm : Memory}

theorem search_initial (boot : Memory) :
    search .outbound outSgx (boot.apply initRingBuffer) = some 0 :=
  search_first (initRingBuffer_owner boot .outbound (by decide))

/-- Scan and copy, the other thread from scan to flip, then the first flip. -/
theorem collision {t u : Nat} {calls : Nat → Option Progress} (different : u ≠ t)
    (idle : calls u = none) (waiting : calls t = none) (refines : Refines aead [] shm)
    (found : search .outbound outSgx shm = some i)
    (accepted : Build.lwip.plaintext enclave raw msgLen random = some first)
    (again : Build.lwip.plaintext enclave other msgLen random = some second) :
    ∃ last, Run (Step aead enclave fun _ _ => True) ⟨shm, calls⟩
        [.stored .outbound second, .stored .outbound first] last ∧
      ¬ NothingLost aead [.stored .outbound second, .stored .outbound first] last.shm := by
  have called : Run (Step aead enclave fun _ _ => True) ⟨shm, calls⟩ _ _ :=
    .single (.callPutOut u .lwip raw msgLen random idle rfl accepted)
  have scanned := called.next (.proceed u (Function.update_self _ _ _) trivial)
  simp only [Progress.advance, Direction.sender, found, Advance.events, Advance.progress,
    Memory.apply_nil, List.append_nil, Function.update_idem] at scanned
  have copied := scanned.next (.proceed u (Function.update_self _ _ _) trivial)
  simp only [Progress.advance, Advance.events, Advance.progress, Function.update_idem] at copied
  have calling := copied.next (.callPutOut t .lwip other msgLen random
    ((Function.update_of_ne different.symm _ _).trans waiting) rfl again)
  obtain ⟨bound, free, _⟩ := search_some.mp found
  have filled := refines.effect (Effect.fill bound free (Build.lwip.plaintext_length accepted))
  obtain ⟨last, run, lost⟩ := overwritten enclave (filled.balance .outbound) different
    ((Function.update_of_ne different _ _).trans (Function.update_self _ _ _))
    (Function.update_self _ _ _) (Build.lwip.plaintext_length again) (search_slotCopy found _)
  exact ⟨last, calling.trans run, lost⟩

/-- Two threads of the lwIP enclave send one message each into an empty ring;
both puts return 0 and one message is gone. -/
theorem two_producers_one_slot :
    ∃ kept lost last, Run (Step (transparent 16) .sample
        fun _ _ => True) (start fun _ => 0) [.stored .outbound kept, .stored .outbound lost] last ∧
      ¬ NothingLost (transparent 16) [.stored .outbound kept, .stored .outbound lost] last.shm := by
  let enclave : Enclave := .sample
  have first : Build.lwip.plaintext enclave ⟨0, fun _ => 0x61⟩ 5 (fun _ => 0) = some _ := rfl
  have second : Build.lwip.plaintext enclave ⟨0, fun _ => 0x62⟩ 5 (fun _ => 0) = some _ := rfl
  dsimp only [start]
  exact ⟨_, _, collision Nat.zero_ne_one rfl rfl (Refines.initial _ _) (search_initial _) first second⟩

theorem alone_uncontended {s : System} (others : ∀ u ≠ t, s.calls u = none) : ¬ Contended s t := by
  rintro ⟨_, _, _, _, u, different, p, running, _⟩
  rw [others u different] at running
  cases running

/-- Only a scan can be contended. -/
theorem settled_uncontended {s : System} (running : s.calls t = some p) (settled : p.place ≠ none) :
    ¬ Contended s t := by
  rintro ⟨_, _, scanning, _⟩
  rw [running] at scanning
  cases scanning
  exact settled rfl

theorem single_put {calls : Nat → Option Progress} (idle : ∀ u, calls u = none)
    (found : search .outbound outSgx shm = some i)
    (accepted : Build.lwip.plaintext enclave raw msgLen random = some message) :
    Run (Step aead enclave fun s t => ¬ Contended s t) ⟨shm, calls⟩ [.stored .outbound message]
      ⟨shm.apply (slotCopy .outbound i (aead.encrypt key nonce ad message) ++ [flip .outbound i outSmm]),
        Function.update calls 0 none⟩ := by
  have called : Run (Step aead enclave fun s t => ¬ Contended s t) ⟨shm, calls⟩ _ _ :=
    .single (.callPutOut 0 .lwip raw msgLen random (idle 0) rfl accepted)
  have alone : ∀ shm new, ¬ Contended ⟨shm, Function.update calls 0 new⟩ 0 := fun _ _ =>
    alone_uncontended fun u different => (Function.update_of_ne different _ _).trans (idle u)
  have handed := called.trans (run_put enclave (Function.update_self _ _ _) found (alone _ _) fun shm new => by
    rw [Function.update_idem]
    exact alone shm new)
  rwa [Function.update_idem] at handed

/-- Two calls that have settled on their slots, one inside the other: the second copies
first and flips last. -/
theorem nested_puts {calls : Nat → Option Progress} (outer : calls 1 = some (.putCopy .outbound last j))
    (inner : calls 0 = some (.putCopy .outbound message i)) :
    ∃ after, Run (Step aead enclave fun s t => ¬ Contended s t) ⟨shm, calls⟩
      [.stored .outbound message, .stored .outbound last] after := by
  have one : Run (Step aead enclave fun s t => ¬ Contended s t) ⟨shm, calls⟩ _ _ :=
    .single (.proceed 1 outer (settled_uncontended outer (Option.some_ne_none _)))
  simp only [Progress.advance, Advance.events, Advance.progress] at one
  have waits : Function.update calls 1 (some (.putFlip .outbound last j)) 0 = some (.putCopy .outbound message i) :=
    (Function.update_of_ne Nat.zero_ne_one _ _).trans inner
  have two := one.next (.proceed 0 waits (settled_uncontended waits (Option.some_ne_none _)))
  simp only [Progress.advance, Advance.events, Advance.progress, List.append_nil] at two
  have copied : Function.update (Function.update calls 1 (some (.putFlip .outbound last j))) 0
      (some (.putFlip .outbound message i)) 0 = some (.putFlip .outbound message i) := Function.update_self _ _ _
  have three := two.next (.proceed 0 copied (settled_uncontended copied (Option.some_ne_none _)))
  simp only [Progress.advance, Advance.events, Advance.progress, PutOutcome.event, List.nil_append,
    Function.update_idem] at three
  have held : Function.update (Function.update calls 1 (some (.putFlip .outbound last j))) 0 none 1 =
      some (.putFlip .outbound last j) :=
    (Function.update_of_ne Nat.one_ne_zero _ _).trans (Function.update_self _ _ _)
  have four := three.next (.proceed 1 held (settled_uncontended held (Option.some_ne_none _)))
  exact ⟨_, four⟩

/-- A call up to the end of its scan. -/
theorem begin_put {calls : Nat → Option Progress} (idle : calls t = none)
    (found : search .outbound outSgx shm = some i)
    (apart : ¬ Contended ⟨shm, Function.update calls t (some (.putScan .outbound message))⟩ t)
    (accepted : Build.lwip.plaintext enclave raw msgLen random = some message) :
    Run (Step aead enclave fun s t => ¬ Contended s t) ⟨shm, calls⟩ []
      ⟨shm, Function.update calls t (some (.putCopy .outbound message i))⟩ := by
  have called : Run (Step aead enclave fun s t => ¬ Contended s t) ⟨shm, calls⟩ _ _ :=
    .single (.callPutOut t .lwip raw msgLen random idle rfl accepted)
  have scanned := called.next (.proceed t (Function.update_self _ _ _) apart)
  simpa only [Progress.advance, Direction.sender, found, Advance.events, Advance.progress,
    Memory.apply_nil, List.append_nil, Function.update_idem] using scanned

theorem collect_first {admits : System → Nat → Prop} {calls : Nat → Option Progress}
    (taken : shm (Direction.outbound.owner 0) = outSmm)
    (packet : shm.read (Direction.outbound.slot 0) pktSize = aead.encrypt key nonce ad message) :
    Step aead enclave admits ⟨shm, calls⟩ [.received .outbound message]
      ⟨shm.apply [flip .outbound 0 outSgx], calls⟩ := by
  have within : isWithinSmram smramStart msgSize = true := by decide
  have found : search .outbound Direction.outbound.receiver shm = some 0 := search_first taken
  have received : getMessage aead.decrypt .outbound shm = (.received 0 message, [flip .outbound 0 outSgx]) := by
    rw [getMessage, found]
    simp only [packet, aead.decrypt_encrypt, Direction.sender]
  have collected : Step aead enclave admits ⟨shm, calls⟩ _ _ := .getOut smramStart ⟨[], 0⟩
  simpa only [Network.getOutBuffer, get, within, if_true, received, GetOutcome.event] using collected

/-- The first message fills slot 0. While the second is on its way to slot 1, SMM
collects the first, so that the scan of another thread stops at slot 0. -/
theorem settle_apart {calls : Nat → Option Progress} (idle : ∀ u, calls u = none)
    (free : ∀ i < maxEntry, shm (Direction.outbound.owner i) = outSgx)
    (first : Build.lwip.plaintext enclave raw msgLen random = some a)
    (second : Build.lwip.plaintext enclave other msgLen random = some b)
    (third : Build.lwip.plaintext enclave another msgLen random = some c) :
    ∃ mid, Run (Step aead enclave fun s t => ¬ Contended s t) ⟨shm, calls⟩
        [.stored .outbound a, .received .outbound a] mid ∧
      mid.calls 0 = some (.putCopy .outbound b 1) ∧ mid.calls 1 = some (.putCopy .outbound c 0) := by
  have whole := Build.lwip.plaintext_length first
  have alone (new : Option Progress) (u : Nat) (different : u ≠ 0) : Function.update calls 0 new u = none :=
    (Function.update_of_ne different _ _).trans (idle u)
  obtain ⟨full, stored, taken, rest, packet⟩ : ∃ full, Run (Step aead enclave fun s t => ¬ Contended s t)
      ⟨shm, calls⟩ [.stored .outbound a] ⟨full, Function.update calls 0 none⟩ ∧
      full (Direction.outbound.owner 0) = outSmm ∧ full (Direction.outbound.owner 1) = outSgx ∧
      full.read (Direction.outbound.slot 0) pktSize = aead.encrypt key nonce ad a :=
    ⟨_, single_put idle (search_first (free 0 (by decide))) first, stored_owner aead,
      (stored_apart aead (by decide) whole .outbound 1 (by decide) (by decide)).1.trans (free 1 (by decide)),
      stored_slot aead (by decide) whole⟩
  have next : search .outbound outSgx full = some 1 := search_some.mpr ⟨by decide, rest, fun j below => by
    rw [Nat.lt_one_iff.mp below, taken]
    decide⟩
  have settled := stored.trans (begin_put (Function.update_self _ _ _) next
    (alone_uncontended fun u different => (Function.update_of_ne different _ _).trans (alone none u different)) second)
  rw [Function.update_idem] at settled
  have collected := settled.next (collect_first taken packet)
  have freed : search .outbound outSgx (full.apply [flip .outbound 0 outSgx]) = some 0 :=
    search_first (flip_same (d := .outbound) (i := 0) full outSgx)
  have busy : Function.update calls 0 (some (.putCopy .outbound b 1)) 0 = _ := Function.update_self _ _ _
  have others := alone (some (.putCopy .outbound b 1))
  generalize Function.update calls 0 (some (.putCopy .outbound b 1)) = working at collected busy others
  -- thread 0 has settled on slot 1, and the scan of thread 1 stops at slot 0
  have apart : ¬ Contended ⟨full.apply [flip .outbound 0 outSgx],
      Function.update working 1 (some (.putScan .outbound c))⟩ 1 := by
    rintro ⟨_, i, _, found, u, different, p, running, place⟩
    rw [freed] at found
    cases found
    dsimp only at running
    rw [Function.update_of_ne different] at running
    by_cases zero : u = 0
    · rw [zero, busy] at running
      cases running
      cases place
    · rw [others u zero] at running
      cases running
  refine ⟨_, collected.trans (begin_put (others 1 Nat.one_ne_zero) freed apart third), ?_, ?_⟩
  · dsimp only
    rw [Function.update_of_ne Nat.zero_ne_one, busy]
  · dsimp only
    rw [Function.update_self]

/-- Two puts that overlap in time without contending for a slot. -/
theorem producers_lose_nothing_overlapping : ∃ a b c mid last,
    Run (Step (transparent 16) .sample fun s t => ¬ Contended s t)
      (start fun _ => 0) [.stored .outbound a, .received .outbound a] mid ∧
    mid.calls 0 = some (.putCopy .outbound b 1) ∧ mid.calls 1 = some (.putCopy .outbound c 0) ∧
    Run (Step (transparent 16) .sample fun s t => ¬ Contended s t)
      mid [.stored .outbound b, .stored .outbound c] last ∧
    NothingLost (transparent 16)
      [.stored .outbound a, .received .outbound a, .stored .outbound b, .stored .outbound c] last.shm := by
  let enclave : Enclave := .sample
  have first : Build.lwip.plaintext enclave ⟨0, fun _ => 0x61⟩ 5 (fun _ => 0) = some _ := rfl
  have second : Build.lwip.plaintext enclave ⟨0, fun _ => 0x62⟩ 5 (fun _ => 0) = some _ := rfl
  have third : Build.lwip.plaintext enclave ⟨0, fun _ => 0x63⟩ 5 (fun _ => 0) = some _ := rfl
  obtain ⟨mid, run, inner, outer⟩ : ∃ mid, Run (Step (transparent 16) enclave fun s t => ¬ Contended s t)
      (start fun _ => 0) _ mid ∧ mid.calls 0 = _ ∧ mid.calls 1 = _ := by
    dsimp only [start]
    exact settle_apart (fun _ => rfl) (fun i bound => initRingBuffer_owner _ .outbound bound) first second third
  obtain ⟨last, finished⟩ : ∃ last, Run (Step (transparent 16) enclave fun s t => ¬ Contended s t) mid _ last :=
    nested_puts outer inner
  exact ⟨_, _, _, mid, last, run, inner, outer, finished,
    (producers_lose_nothing _ _ _ (run.trans finished)).1⟩

end Samples
end Aurora.Producers
