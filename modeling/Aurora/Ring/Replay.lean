import Aurora.Ring.Sequential

/-! Replay and reflection. Every packet is sealed under one constant key and
nonce, whatever its direction, slot or time, so a packet that was once encrypted
stays acceptable for ever. Between two ring calls an adversary overwrites the
region; decryption is ideal and accepts only what was encrypted before. -/
namespace Aurora.Replay
open Lib

/-- The encryption a put performs, also when it then finds no slot. -/
def query : Event → Option Aead.Query
  | .stored _ message | .full _ message => some ⟨key, nonce, ad, message⟩
  | .refused _ | .nothing _ | .forged _ | .received _ _ => none

def logged (events : List Event) : List Aead.Query := events.filterMap query

def accepted (d : Direction) (message : List UInt8) (events : List Event) : Nat :=
  events.count (.received d message)

def encrypted (d : Direction) (message : List UInt8) (events : List Event) : Nat :=
  events.count (.stored d message) + events.count (.full d message)

/-- Histories of whole ring calls and overwrites of the region. An overwrite may
leave any memory the history allows. -/
inductive Session (aead : Aead 16) (enclave : Enclave) (allowed : List Event → Memory → Prop) :
    List Event → Memory → Prop where
  | start (boot : Memory) : Session aead enclave allowed [] (boot.apply initRingBuffer)
  | call (c : Call) : Session aead enclave allowed events shm →
      Session aead enclave allowed
        (events ++ [(c.perform aead (aead.ideal (logged events)) enclave shm).1])
        (shm.apply (c.perform aead (aead.ideal (logged events)) enclave shm).2)
  | overwrite (after : Memory) : Session aead enclave allowed events shm → allowed events after →
      Session aead enclave allowed events after

/-- How a history goes on by ring calls alone. -/
inductive Calls (aead : Aead 16) (enclave : Enclave) : List Event → Memory → List Event → Memory → Prop where
  | done : Calls aead enclave events shm events shm
  | call (c : Call) :
      Calls aead enclave (events ++ [(c.perform aead (aead.ideal (logged events)) enclave shm).1])
        (shm.apply (c.perform aead (aead.ideal (logged events)) enclave shm).2) later after →
      Calls aead enclave events shm later after

/-- Slot `i` is handed to the receiver and holds the packet of this message. -/
def isArmed (aead : Aead 16) (d : Direction) (message : List UInt8) (shm : Memory) (i : Nat) : Bool :=
  shm (d.owner i) == d.receiver && shm.read (d.slot i) pktSize == aead.encrypt key nonce ad message

/-- The bytes are the packet of some message. -/
def isSealed (aead : Aead 16) (packet : List UInt8) : Bool :=
  (aead.decrypt key nonce ad packet).any fun message => aead.encrypt key nonce ad message == packet

/-- A get that reaches slot `i` fails now and ever, and goes no further. -/
def isStuck (aead : Aead 16) (d : Direction) (shm : Memory) (i : Nat) : Bool :=
  shm (d.owner i) == d.receiver && !isSealed aead (shm.read (d.slot i) pktSize)

/-- No slot below `i` keeps the gets from reaching it. -/
def isOpen (aead : Aead 16) (d : Direction) (shm : Memory) (i : Nat) : Bool :=
  (List.range i).all fun j => !isStuck aead d shm j

/-- The message waits in slot `i`, where a get can come to it. -/
def isWaiting (aead : Aead 16) (d : Direction) (message : List UInt8) (shm : Memory) (i : Nat) : Bool :=
  isOpen aead d shm i && isArmed aead d message shm i

def waiting (aead : Aead 16) (d : Direction) (message : List UInt8) (shm : Memory) : Nat :=
  (List.range maxEntry).countP (isWaiting aead d message shm)

/-- No message waits more often than it was encrypted and not yet accepted. -/
def Fresh (aead : Aead 16) (events : List Event) (shm : Memory) : Prop :=
  ∀ d message, waiting aead d message shm + accepted d message events ≤ encrypted d message events

section Armed
variable {aead : Aead 16} {d e : Direction} {message other : List UInt8} {shm after : Memory}
  {i : Nat}

theorem isArmed_iff : isArmed aead d message shm i = true ↔ shm (d.owner i) = d.receiver ∧
    shm.read (d.slot i) pktSize = aead.encrypt key nonce ad message := by
  simp only [isArmed, Bool.and_eq_true, beq_iff_eq]

theorem isArmed_free (free : shm (d.owner i) = d.sender) : isArmed aead d message shm i = false := by
  rw [Bool.eq_false_iff]
  intro armed
  exact d.sender_ne_receiver (free.symm.trans (isArmed_iff.mp armed).1)

/-- An owned slot is armed for the message of its packet and for no other. -/
theorem isArmed_packet (owned : shm (d.owner i) = d.receiver)
    (packet : shm.read (d.slot i) pktSize = aead.encrypt key nonce ad other) :
    isArmed aead d message shm i = decide (other = message) := by
  rw [Bool.eq_iff_iff, isArmed_iff, decide_eq_true_iff, packet, aead.encrypt_inj]
  exact and_iff_right owned

theorem isArmed_congr (owner : after (d.owner i) = shm (d.owner i))
    (slot : after.read (d.slot i) pktSize = shm.read (d.slot i) pktSize) :
    isArmed aead d message after i = isArmed aead d message shm i := by
  simp only [isArmed, owner, slot]

theorem isSealed_iff {packet : List UInt8} :
    isSealed aead packet = true ↔ ∃ message, packet = aead.encrypt key nonce ad message := by
  rw [isSealed, Option.any_eq_true]
  constructor
  · rintro ⟨message, _, same⟩
    exact ⟨message, (beq_iff_eq.mp same).symm⟩
  · rintro ⟨message, rfl⟩
    exact ⟨message, aead.decrypt_encrypt, beq_self_eq_true _⟩

theorem isStuck_free (free : shm (d.owner i) = d.sender) : isStuck aead d shm i = false := by
  rw [isStuck, free, beq_false_of_ne d.sender_ne_receiver, Bool.false_and]

theorem isStuck_packet (packet : shm.read (d.slot i) pktSize = aead.encrypt key nonce ad message) :
    isStuck aead d shm i = false := by
  rw [isStuck, isSealed_iff.mpr ⟨message, packet⟩, Bool.not_true, Bool.and_false]

theorem isOpen_first (least : ∀ j < i, shm (d.owner j) ≠ d.receiver) : isOpen aead d shm i = true := by
  refine List.all_eq_true.mpr fun j member => ?_
  rw [isStuck, beq_false_of_ne (least j (List.mem_range.mp member)), Bool.false_and, Bool.not_false]

theorem isOpen_congr (same : ∀ k < i, isStuck aead d after k = isStuck aead d shm k) :
    isOpen aead d after i = isOpen aead d shm i := by
  rw [Bool.eq_iff_iff, isOpen, isOpen, List.all_eq_true, List.all_eq_true]
  refine forall₂_congr fun k member => ?_
  rw [same k (List.mem_range.mp member)]

/-- What changes one slot and leaves it passable changes no other slot's access. -/
theorem isOpen_apart (apart : Apart d i shm after) (before : isStuck aead d shm i = false)
    (behind : isStuck aead d after i = false) {j : Nat} (bound : j < maxEntry) :
    isOpen aead d after j = isOpen aead d shm j := by
  refine isOpen_congr fun k below => ?_
  by_cases here : i = k
  · rw [← here, before, behind]
  · obtain ⟨owner, slot⟩ := apart d k (below.trans bound) (fun both => here both.2)
    simp only [isStuck, owner, slot]

theorem waiting_free (free : ∀ i < maxEntry, shm (d.owner i) = d.sender) :
    waiting aead d message shm = 0 := by
  refine List.countP_eq_zero.mpr fun i member => ?_
  rw [isWaiting, isArmed_free (free i (List.mem_range.mp member)), Bool.and_false]
  exact Bool.false_ne_true

/-- A direction whose slots are all as before. -/
theorem waiting_congr (same : ∀ j < maxEntry, after (d.owner j) = shm (d.owner j) ∧
    after.read (d.slot j) pktSize = shm.read (d.slot j) pktSize) :
    waiting aead d message after = waiting aead d message shm := by
  refine List.countP_congr fun j member => ?_
  have bound := List.mem_range.mp member
  have access : isOpen aead d after j = isOpen aead d shm j := by
    refine isOpen_congr fun k below => ?_
    obtain ⟨owner, slot⟩ := same k (below.trans bound)
    simp only [isStuck, owner, slot]
  rw [isWaiting, isWaiting, access, isArmed_congr (same j bound).1 (same j bound).2]

theorem waiting_apart (apart : Apart e i shm after) (different : e ≠ d) :
    waiting aead d message after = waiting aead d message shm :=
  waiting_congr fun j bound => apart d j bound (fun both => different both.1)

theorem waiting_change (message : List UInt8) (apart : Apart d i shm after) (bound : i < maxEntry)
    (before : isStuck aead d shm i = false) (behind : isStuck aead d after i = false) :
    waiting aead d message after + (isWaiting aead d message shm i).toNat =
      waiting aead d message shm + (isWaiting aead d message after i).toNat := by
  refine Bag.countP_change bound fun j small other => ?_
  obtain ⟨owner, slot⟩ := apart d j small (fun same => other same.2.symm)
  rw [isWaiting, isWaiting, isOpen_apart apart before behind small, isArmed_congr owner slot]

/-- In a slot that holds a packet only its message can wait. -/
theorem isWaiting_packet (owned : shm (d.owner i) = d.receiver)
    (packet : shm.read (d.slot i) pktSize = aead.encrypt key nonce ad other) :
    isWaiting aead d message shm i = (isOpen aead d shm i && decide (other = message)) := by
  rw [isWaiting, isArmed_packet owned packet]

theorem isWaiting_free (free : shm (d.owner i) = d.sender) : isWaiting aead d message shm i = false := by
  rw [isWaiting, isArmed_free free, Bool.and_false]

end Armed

section Calls
variable (aead : Aead 16) (log : List Aead.Query) (d e : Direction) (message : List UInt8) (shm : Memory)

theorem count_stored (other : List UInt8) :
    [Event.stored e other].count (.stored d message) = (decide (e = d ∧ other = message)).toNat := by
  by_cases same : e = d ∧ other = message
  · simp [same]
  · simp [same]

theorem count_received (other : List UInt8) :
    [Event.received e other].count (.received d message) = (decide (e = d ∧ other = message)).toNat := by
  by_cases same : e = d ∧ other = message
  · simp [same]
  · simp [same]

/-- A put that stores behind a stuck slot leaves nothing where a get can come to it. -/
theorem waiting_put (whole : other.length = msgSize) :
    waiting aead d message (shm.apply (putMessage aead e other shm).2) ≤
      waiting aead d message shm +
        [(putMessage aead e other shm).1.event e].count (.stored d message) := by
  obtain ⟨_, full⟩ | ⟨i, bound, free, _, stored⟩ := putMessage_cases aead e other shm
  · rw [full]
    exact Nat.le_add_right _ _
  simp only [stored, PutOutcome.event, count_stored]
  have apart : Apart e i shm _ := stored_apart aead bound whole
  by_cases own : e = d
  · subst own
    have change := waiting_change message apart bound (isStuck_free free)
      (isStuck_packet (stored_slot aead bound whole))
    rw [isWaiting_free free, isWaiting_packet (stored_owner aead) (stored_slot aead bound whole),
      Bool.toNat_false, Nat.add_zero] at change
    simp only [true_and]
    rw [change]
    exact Nat.add_le_add_left (Bool.toNat_le_toNat (Bool.and_le_right _ _)) _
  · simp [waiting_apart apart own]

theorem waiting_get :
    waiting aead d message (shm.apply (getMessage (aead.ideal log) e shm).2) +
        [(getMessage (aead.ideal log) e shm).1.event e].count (.received d message) =
      waiting aead d message shm := by
  obtain ⟨_, nothing⟩ | ⟨i, bound, owned, least, result⟩ := getMessage_cases (aead.ideal log) e shm
  · rw [nothing]
    rfl
  obtain ⟨_, forged⟩ | ⟨got, opened, received⟩ := result
  · rw [forged]
    rfl
  simp only [received, GetOutcome.event, count_received]
  have apart : Apart e i shm (shm.apply [flip e i e.sender]) := flip_apart shm e.sender bound
  by_cases own : e = d
  · subst own
    have packet := (aead.ideal_some opened).2
    have freed : shm.apply [flip e i e.sender] (e.owner i) = e.sender := flip_same shm e.sender
    have change := waiting_change message apart bound (isStuck_packet packet) (isStuck_free freed)
    rw [isWaiting_packet owned packet, isWaiting_free freed, isOpen_first least] at change
    simpa only [true_and, Bool.true_and, Bool.toNat_false, Nat.add_zero] using change
  · simpa [own] using waiting_apart apart own

/-- A call leaves a message waiting at most when it stores it, and one fewer when it
accepts it; nothing else a call does adds to what waits. -/
theorem waiting_call (enclave : Enclave) (c : Call) :
    waiting aead d message (shm.apply (c.perform aead (aead.ideal log) enclave shm).2) +
        [(c.perform aead (aead.ideal log) enclave shm).1].count (.received d message) ≤
      waiting aead d message shm +
        [(c.perform aead (aead.ideal log) enclave shm).1].count (.stored d message) := by
  obtain same | ⟨other, whole, same⟩ | same := c.perform_cases aead (aead.ideal log) enclave shm
  · rw [same]
    exact Nat.le_refl _
  · have unread : [(putMessage aead c.direction other shm).1.event c.direction].count
        (.received d message) = 0 := by
      cases (putMessage aead c.direction other shm).1 <;> rfl
    simp only [same]
    rw [unread, Nat.add_zero]
    exact waiting_put aead d c.direction message shm whole
  · simp only [same]
    rw [waiting_get]
    exact Nat.le_add_right _ _

end Calls

/-- Calls keep freshness: what they arm they have just encrypted. -/
theorem Fresh.call (fresh : Fresh aead events shm) (enclave : Enclave) (c : Call) :
    Fresh aead (events ++ [(c.perform aead (aead.ideal (logged events)) enclave shm).1])
      (shm.apply (c.perform aead (aead.ideal (logged events)) enclave shm).2) := by
  intro d message
  have before := fresh d message
  have change := waiting_call aead (logged events) d message shm enclave c
  simp only [accepted, encrypted, List.count_append] at before ⊢
  omega

theorem Fresh.initial (aead : Aead 16) (boot : Memory) : Fresh aead [] (boot.apply initRingBuffer) := by
  intro d message
  rw [waiting_free fun i bound => initRingBuffer_owner boot d bound]
  exact Nat.le_refl 0

theorem Session.fresh (session : Session aead enclave (Fresh aead) events shm) :
    Fresh aead events shm := by
  induction session with
  | start boot => exact Fresh.initial aead boot
  | call c _ ih => exact ih.call _ c
  | overwrite after _ allowed => exact allowed

theorem Fresh.calls (fresh : Fresh aead events shm) (calls : Calls aead enclave events shm later after) :
    Fresh aead later after := by
  induction calls with
  | done => exact fresh
  | call c _ ih => exact ih (fresh.call _ c)

theorem Fresh.bounded (fresh : Fresh aead events shm) (d : Direction) (message : List UInt8) :
    accepted d message events ≤ encrypted d message events :=
  (Nat.le_add_left _ _).trans (fresh d message)

/-! Freshness is the least an adversary has to be held to: from a region that is not
fresh, ring calls alone lead to an excess acceptance. -/
section Exploit
variable {aead : Aead 16} {enclave : Enclave} {events : List Event} {d : Direction}
  {message : List UInt8} {shm : Memory}

def isOwned (d : Direction) (shm : Memory) (i : Nat) : Bool := shm (d.owner i) == d.receiver

def owned (d : Direction) (shm : Memory) : Nat := (List.range maxEntry).countP (isOwned d shm)

/-- If a message waits where a get can come to it, the first slot of the receiver
holds the packet of some message. -/
theorem first_sealed (waits : 0 < waiting aead d message shm) :
    ∃ i < maxEntry, ∃ first, shm (d.owner i) = d.receiver ∧ (∀ j < i, shm (d.owner j) ≠ d.receiver) ∧
      shm.read (d.slot i) pktSize = aead.encrypt key nonce ad first := by
  obtain ⟨k, member, both⟩ := List.countP_pos_iff.mp waits
  obtain ⟨access, here⟩ := Bool.and_eq_true_iff.mp both
  obtain ⟨owned, packet⟩ := isArmed_iff.mp here
  obtain ⟨none, _⟩ | ⟨i, bound, mine, least, _⟩ := getMessage_cases aead.decrypt d shm
  · exact absurd owned (none k (List.mem_range.mp member))
  refine ⟨i, bound, ?_⟩
  have order : i ≤ k := by
    by_contra above
    exact least k (Nat.lt_of_not_le above) owned
  obtain rfl | below := Nat.eq_or_lt_of_le order
  · exact ⟨message, mine, least, packet⟩
  · have passable := List.all_eq_true.mp access i (List.mem_range.mpr below)
    have closed : isSealed aead (shm.read (d.slot i) pktSize) = true := by
      simpa [isStuck, mine] using passable
    obtain ⟨first, same⟩ := isSealed_iff.mp closed
    exact ⟨first, mine, least, same⟩

theorem sealed_whole {i : Nat} (packet : shm.read (d.slot i) pktSize = aead.encrypt key nonce ad message) :
    message.length = msgSize := by
  have sizes := congrArg List.length packet
  rw [Memory.read_length, aead.encrypt_length] at sizes
  simp only [msgSize]
  omega

/-- A put of the other direction makes a packet acceptable in this one: reflection. It
leaves this direction as it is, whether it finds a slot or not. -/
theorem reflected (counted : List UInt8) (aead : Aead 16) (shm : Memory) (whole : message.length = msgSize)
    (other : e ≠ d) :
    ⟨key, nonce, ad, message⟩ ∈ logged [(putMessage aead e message shm).1.event e] ∧
      accepted d counted [(putMessage aead e message shm).1.event e] = 0 ∧
      encrypted d counted [(putMessage aead e message shm).1.event e] = 0 ∧
      ∀ i < maxEntry, (shm.apply (putMessage aead e message shm).2) (d.owner i) = shm (d.owner i) ∧
        (shm.apply (putMessage aead e message shm).2).read (d.slot i) pktSize = shm.read (d.slot i) pktSize := by
  obtain ⟨_, same⟩ | ⟨i, bound, _, _, same⟩ := putMessage_cases aead e message shm
  · rw [same]
    exact ⟨by simp [logged, query, PutOutcome.event], by simp [accepted, PutOutcome.event],
      by simp [encrypted, PutOutcome.event, other], fun _ _ => ⟨rfl, rfl⟩⟩
  · rw [same]
    exact ⟨by simp [logged, query, PutOutcome.event], by simp [accepted, PutOutcome.event],
      by simp [encrypted, PutOutcome.event, other],
      fun j small => stored_apart aead bound whole d j small (fun both => other both.1)⟩

/-- The get of a known packet in the first slot of the receiver. -/
theorem getMessage_known {log : List Aead.Query} {i : Nat} (bound : i < maxEntry)
    (mine : shm (d.owner i) = d.receiver) (least : ∀ j < i, shm (d.owner j) ≠ d.receiver)
    (packet : shm.read (d.slot i) pktSize = aead.encrypt key nonce ad message)
    (known : ⟨key, nonce, ad, message⟩ ∈ log) :
    getMessage (aead.ideal log) d shm = (.received i message, [flip d i d.sender]) := by
  unfold getMessage
  rw [search_some.mpr ⟨bound, mine, least⟩]
  simp only [packet, aead.ideal_encrypt known]

theorem owned_flip {i : Nat} (bound : i < maxEntry) (mine : shm (d.owner i) = d.receiver) :
    owned d (shm.apply [flip d i d.sender]) + 1 = owned d shm := by
  have freed : shm.apply [flip d i d.sender] (d.owner i) = d.sender := flip_same shm d.sender
  have change : owned d (shm.apply [flip d i d.sender]) + (isOwned d shm i).toNat =
      owned d shm + (isOwned d (shm.apply [flip d i d.sender]) i).toNat := by
    refine Bag.countP_change bound fun j small other => ?_
    have apart : Apart d i shm (shm.apply [flip d i d.sender]) := flip_apart shm d.sender bound
    rw [isOwned, isOwned, (apart d j small (fun same => other same.2.symm)).1]
  rw [isOwned, isOwned, freed, mine, beq_self_eq_true, beq_false_of_ne d.sender_ne_receiver] at change
  simpa using change

/-- One reflection and one get empty the first slot of the receiver. -/
theorem Calls.take {i : Nat} {first : List UInt8} (message : List UInt8) (bound : i < maxEntry)
    (mine : shm (d.owner i) = d.receiver) (least : ∀ j < i, shm (d.owner j) ≠ d.receiver)
    (packet : shm.read (d.slot i) pktSize = aead.encrypt key nonce ad first) :
    ∃ more next, (∀ later after, Calls aead enclave (events ++ more) next later after →
        Calls aead enclave events shm later after) ∧
      accepted d message more + waiting aead d message next = waiting aead d message shm ∧
      encrypted d message more = 0 ∧ owned d next + 1 = owned d shm := by
  obtain ⟨e, other⟩ : ∃ e : Direction, e ≠ d := by
    cases d with
    | inbound => exact ⟨.outbound, by decide⟩
    | outbound => exact ⟨.inbound, by decide⟩
  have whole := sealed_whole packet
  obtain ⟨known, unread, unwritten, same⟩ := reflected message aead shm whole other
  generalize mid : shm.apply (putMessage aead e first shm).2 = between at same
  have received : getMessage (aead.ideal (logged (events ++ [(putMessage aead e first shm).1.event e]))) d between =
      (.received i first, [flip d i d.sender]) := by
    refine getMessage_known bound ((same i bound).1.trans mine) (fun j below => ?_)
      ((same i bound).2.trans packet) ?_
    · exact (same j (below.trans bound)).1.trans_ne (least j below)
    · rw [logged, List.filterMap_append]
      exact List.mem_append_right _ known
  refine ⟨[(putMessage aead e first shm).1.event e, .received d first], between.apply [flip d i d.sender],
    fun later after calls => ?_, ?_, ?_, ?_⟩
  · refine .call (.ofPut enclave e first) ?_
    rw [Call.perform_ofPut aead _ enclave e shm whole, mid]
    refine .call (.ofGet enclave d) ?_
    rw [Call.perform_ofGet, received]
    simpa [GetOutcome.event] using calls
  · have taken := waiting_get aead (logged (events ++ [(putMessage aead e first shm).1.event e])) d d message between
    rw [received, waiting_congr same] at taken
    simp only [accepted, GetOutcome.event, List.count_cons, List.count_nil] at unread taken ⊢
    omega
  · simp only [encrypted, List.count_cons, List.count_nil] at unwritten ⊢
    simpa using unwritten
  · rw [owned_flip bound ((same i bound).1.trans mine)]
    exact List.countP_congr fun j member => by rw [isOwned, isOwned, (same j (List.mem_range.mp member)).1]

/-- Every message that waits where a get can come to it can be had by calls alone. -/
theorem Calls.exploit (aead : Aead 16) (enclave : Enclave) (events : List Event) (shm : Memory) (d : Direction)
    (message : List UInt8) : ∃ later after, Calls aead enclave events shm later after ∧
      accepted d message later = accepted d message events + waiting aead d message shm ∧
      encrypted d message later = encrypted d message events := by
  induction count : owned d shm generalizing events shm with
  | zero =>
    refine ⟨events, shm, .done, ?_, rfl⟩
    have none : waiting aead d message shm = 0 := by
      by_contra some
      obtain ⟨i, bound, _, mine, _⟩ := first_sealed (Nat.pos_of_ne_zero some)
      have unowned := List.countP_eq_zero.mp count i (List.mem_range.mpr bound)
      exact unowned (beq_iff_eq.mpr mine)
    rw [none, Nat.add_zero]
  | succ n ih =>
    by_cases none : waiting aead d message shm = 0
    · exact ⟨events, shm, .done, by rw [none, Nat.add_zero], rfl⟩
    obtain ⟨i, bound, first, mine, least, packet⟩ := first_sealed (Nat.pos_of_ne_zero none)
    obtain ⟨more, next, through, taken, unwritten, fewer⟩ := Calls.take message bound mine least packet
    obtain ⟨later, after, calls, accepts, encrypts⟩ := ih (events ++ more) next (by omega)
    refine ⟨later, after, through later after calls, ?_, ?_⟩
    · simp only [accepted, List.count_append] at accepts taken ⊢
      omega
    · simp only [encrypted, List.count_append] at encrypts unwritten ⊢
      omega

theorem fresh_of_bounded
    (bounded : ∀ later after, Calls aead enclave events shm later after →
      ∀ d message, accepted d message later ≤ encrypted d message later) : Fresh aead events shm := by
  intro d message
  obtain ⟨later, after, calls, accepts, encrypts⟩ := Calls.exploit aead enclave events shm d message
  have bound := bounded later after calls d message
  omega

end Exploit

/-! Two sessions with one message: a copy of the region is put back, and a packet is
moved to another slot. -/
section Single
variable {aead : Aead 16} {enclave : Enclave} {allowed : List Event → Memory → Prop} {events : List Event}
  {d : Direction} {message : List UInt8} {shm : Memory} {i : Nat}

/-- Slot `i` is the only one of the receiver and holds the packet of the message; the
other direction is empty. -/
structure Single (aead : Aead 16) (d : Direction) (message : List UInt8) (shm : Memory) (i : Nat) : Prop where
  bound : i < maxEntry
  mine : shm (d.owner i) = d.receiver
  packet : shm.read (d.slot i) pktSize = aead.encrypt key nonce ad message
  free : ∀ e, ∀ j < maxEntry, ¬ (d = e ∧ i = j) → shm (e.owner j) = e.sender

theorem Single.stored (aead : Aead 16) (whole : message.length = msgSize) (bound : i < maxEntry)
    (free : ∀ e, ∀ j < maxEntry, ¬ (d = e ∧ i = j) → shm (e.owner j) = e.sender) :
    Single aead d message (shm.apply (slotCopy d i (aead.encrypt key nonce ad message) ++
      [flip d i d.receiver])) i where
  bound := bound
  mine := stored_owner aead
  packet := stored_slot aead bound whole
  free e j small other := (stored_apart aead bound whole e j small other).1.trans (free e j small other)

theorem Single.least (single : Single aead d message shm i) : ∀ j < i, shm (d.owner j) ≠ d.receiver := by
  intro j below
  rw [single.free d j (below.trans single.bound) (fun both => absurd both.2 (Nat.ne_of_gt below))]
  exact d.sender_ne_receiver

/-- A message that was encrypted once may wait once. -/
theorem Single.fresh (single : Single aead d message shm i) : Fresh aead [.stored d message] shm := by
  intro e other
  have sent : accepted e other [.stored d message] = 0 := rfl
  by_cases own : d = e
  · subst own
    have freed : ∀ j < maxEntry, shm.apply [flip d i d.sender] (d.owner j) = d.sender := by
      intro j small
      by_cases same : i = j
      · subst same
        exact flip_same shm d.sender
      · have apart : Apart d i shm (shm.apply [flip d i d.sender]) := flip_apart shm d.sender single.bound
        rw [(apart d j small (fun both => same both.2)).1]
        exact single.free d j small (fun both => same both.2)
    have taken := waiting_get aead [⟨key, nonce, ad, message⟩] d d other shm
    rw [getMessage_known single.bound single.mine single.least single.packet (List.mem_singleton_self _),
      waiting_free freed] at taken
    rw [sent, ← taken]
    by_cases same : message = other
    · simp [encrypted, GetOutcome.event, same]
    · simp [encrypted, GetOutcome.event, same]
  · rw [sent, waiting_free fun j small => single.free e j small (fun both => own both.1)]
    exact Nat.zero_le _

theorem Session.fill (aead : Aead 16) (enclave : Enclave) (allowed : List Event → Memory → Prop) (boot : Memory)
    (d : Direction) (whole : message.length = msgSize) :
    ∃ shm, Session aead enclave allowed [.stored d message] shm ∧ Single aead d message shm 0 := by
  have begun : Session aead enclave allowed [] (boot.apply initRingBuffer) := .start boot
  have called := begun.call (.ofPut enclave d message)
  have free (e : Direction) (j : Nat) (small : j < maxEntry) := initRingBuffer_owner boot e small
  generalize boot.apply initRingBuffer = origin at called free
  rw [Call.perform_ofPut aead _ enclave d _ whole, putMessage,
    search_first (free d 0 (by decide))] at called
  exact ⟨_, called, .stored aead whole (by decide) fun e j small _ => free e j small⟩

/-- The adversary moves the packet to another slot. -/
theorem Single.moved (single : Single aead d message shm i) (whole : message.length = msgSize) {k : Nat}
    (bound : k < maxEntry) : Single aead d message
      ((shm.apply [flip d i d.sender]).apply
        (slotCopy d k (aead.encrypt key nonce ad message) ++ [flip d k d.receiver])) k := by
  refine .stored aead whole bound fun e j small _ => ?_
  by_cases here : d = e ∧ i = j
  · obtain ⟨rfl, rfl⟩ := here
    exact flip_same shm d.sender
  · have apart : Apart d i shm (shm.apply [flip d i d.sender]) := flip_apart shm d.sender single.bound
    exact (apart e j small here).1.trans (single.free e j small here)

theorem Calls.taken (known : ⟨key, nonce, ad, message⟩ ∈ logged events) (single : Single aead d message shm i) :
    Calls aead enclave events shm (events ++ [.received d message]) (shm.apply [flip d i d.sender]) := by
  refine .call (.ofGet enclave d) ?_
  rw [Call.perform_ofGet, getMessage_known single.bound single.mine single.least single.packet known]
  exact .done

theorem Session.take (session : Session aead enclave allowed events shm)
    (known : ⟨key, nonce, ad, message⟩ ∈ logged events) (single : Single aead d message shm i) :
    Session aead enclave allowed (events ++ [.received d message]) (shm.apply [flip d i d.sender]) := by
  have called := session.call (.ofGet enclave d)
  rw [Call.perform_ofGet, getMessage_known single.bound single.mine single.least single.packet known] at called
  exact called

end Single

/-- Held to fresh memory after every overwrite, the adversary gains no excess
acceptance in any session; and after any history, whatever memory an overwrite has
left, ring calls alone stay without one exactly if that memory is fresh. -/
theorem replay_resistance_iff_fresh (aead : Aead 16) (enclave : Enclave) :
    (∀ events shm, Session aead enclave (Fresh aead) events shm →
      ∀ d message, accepted d message events ≤ encrypted d message events) ∧
    (∀ events shm,
      (∀ later after, Calls aead enclave events shm later after →
        ∀ d message, accepted d message later ≤ encrypted d message later) ↔ Fresh aead events shm) := by
  constructor
  · intro events shm session
    exact session.fresh.bounded
  · intro events shm
    constructor
    · exact fresh_of_bounded
    · intro fresh later after calls
      exact (fresh.calls calls).bounded

theorem restored_region_is_accepted_again :
    ∃ message shm, message.length = msgSize ∧
      Session (transparent 16) .sample (fun _ _ => True)
        [.stored .inbound message, .received .inbound message, .received .inbound message] shm ∧
      encrypted .inbound message
        [.stored .inbound message, .received .inbound message, .received .inbound message] = 1 ∧
      accepted .inbound message
        [.stored .inbound message, .received .inbound message, .received .inbound message] = 2 := by
  obtain ⟨message, whole⟩ : ∃ message : List UInt8, message.length = msgSize :=
    ⟨List.replicate msgSize 0x61, List.length_replicate⟩
  obtain ⟨copy, session, single⟩ := Session.fill (transparent 16) .sample (fun _ _ => True) (fun _ => 0)
    .inbound whole
  have taken := session.take (by simp [logged, query]) single
  have again := (taken.overwrite copy trivial).take (by simp [logged, query]) single
  exact ⟨message, _, whole, again, by simp [encrypted], by simp [accepted]⟩

/-- A fresh overwrite, the packet moved from slot 0 to slot 5, and its one delivery;
put back once more, the same memory is no longer fresh. -/
theorem replay_resistance_iff_fresh_moved_packet :
    ∃ message shm moved after, message.length = msgSize ∧
      shm (Direction.inbound.owner 0) = inSgx ∧ moved (Direction.inbound.owner 0) = inSmm ∧
      Session (transparent 16) .sample (Fresh (transparent 16)) [.stored .inbound message] shm ∧
      Session (transparent 16) .sample (Fresh (transparent 16)) [.stored .inbound message] moved ∧
      Session (transparent 16) .sample (Fresh (transparent 16))
        [.stored .inbound message, .received .inbound message] after ∧
      (∀ d other, accepted d other [.stored .inbound message, .received .inbound message] ≤
        encrypted d other [.stored .inbound message, .received .inbound message]) ∧
      ¬ Fresh (transparent 16) [.stored .inbound message, .received .inbound message] moved := by
  obtain ⟨message, whole⟩ : ∃ message : List UInt8, message.length = msgSize :=
    ⟨List.replicate msgSize 0x61, List.length_replicate⟩
  obtain ⟨shm, session, single⟩ := Session.fill (transparent 16) .sample (Fresh (transparent 16))
    (fun _ => 0) .inbound whole
  have moved := single.moved whole (show 5 < maxEntry by decide)
  have overwritten := session.overwrite _ moved.fresh
  have taken := overwritten.take (by simp [logged, query]) moved
  refine ⟨message, _, _, _, whole, single.mine, moved.free .inbound 0 (by decide) (by decide), session, overwritten,
    taken, (replay_resistance_iff_fresh (transparent 16) _).1 _ _ taken, fun fresh => ?_⟩
  have bounded := ((replay_resistance_iff_fresh (transparent 16) .sample).2 _ _).mpr fresh
  have excess := bounded _ _ (.taken (by simp [logged, query]) moved) .inbound message
  simp [accepted, encrypted] at excess

end Aurora.Replay
