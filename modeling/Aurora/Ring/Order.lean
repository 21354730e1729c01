import Aurora.Ring.Sequential

/-! Delivery order of complete calls. Both ends scan from slot 0, so a slot freed
early is refilled and read again before older messages in higher slots. Order is
kept as long as a ring that is being drained is emptied before it is refilled. -/
namespace Aurora.Order
open Lib

/-- Whether a get has taken something since the ring was last empty. -/
inductive Phase where
  | filling (waiting : Nat)
  | draining (waiting : Nat)
deriving DecidableEq, Repr

/-- The only call that breaks the discipline is a successful put into a ring
that is being drained. -/
def Phase.next : Phase → Bag.Call (List UInt8) → Option Phase
  | phase, .full | phase, .empty => some phase
  | filling n, .put _ => some (filling (n + 1))
  | draining _, .put _ => none
  | filling n, .take _ | draining n, .take _ => some (if n ≤ 1 then filling 0 else draining (n - 1))

def phase (calls : List (Bag.Call (List UInt8))) : Option Phase :=
  calls.foldlM Phase.next (.filling 0)

/-- Each burst of puts is drained to the end before the next one begins. -/
def FillThenDrain (d : Direction) (events : List Event) : Prop := (phase (bagCalls d events)).isSome

instance (d : Direction) (events : List Event) : Decidable (FillThenDrain d events) :=
  inferInstanceAs (Decidable (_ = true))

/-- The waiting messages lie in consecutive slots, oldest first. -/
structure Queue (aead : Aead 16) (d : Direction) (shm : Memory) (head : Nat)
    (waiting : List (List UInt8)) : Prop where
  room : head + waiting.length ≤ maxEntry
  owned : ∀ k < waiting.length, shm (d.owner (head + k)) = d.receiver
  free : ∀ i < maxEntry, i < head ∨ head + waiting.length ≤ i → shm (d.owner i) = d.sender
  packets : ∀ k (_ : k < waiting.length),
    shm.read (d.slot (head + k)) pktSize = aead.encrypt key nonce ad waiting[k]

namespace Queue
variable {aead : Aead 16} {d e : Direction} {shm after : Memory} {head : Nat}
  {waiting : List (List UInt8)}

theorem empty (free : ∀ i < maxEntry, shm (d.owner i) = d.sender) : Queue aead d shm 0 [] where
  room := Nat.zero_le _
  owned k impossible := absurd impossible (Nat.not_lt_zero k)
  free i bound _ := free i bound
  packets k impossible := absurd impossible (Nat.not_lt_zero k)

theorem keep (queue : Queue aead d shm head waiting)
    (kept : ∀ i < maxEntry, after (d.owner i) = shm (d.owner i) ∧
      after.read (d.slot i) pktSize = shm.read (d.slot i) pktSize) :
    Queue aead d after head waiting := by
  have room := queue.room
  refine ⟨room, ?_, ?_, ?_⟩
  · intro k bound
    exact (kept _ (by omega)).1.trans (queue.owned k bound)
  · intro i bound outside
    exact (kept i bound).1.trans (queue.free i bound outside)
  · intro k bound
    exact (kept _ (by omega)).2.trans (queue.packets k bound)

theorem apart (queue : Queue aead d shm head waiting) (apart : Apart e i shm after)
    (different : e ≠ d) : Queue aead d after head waiting :=
  queue.keep fun j bound => apart d j bound (fun same => different same.1)

/-- Only the region matters. -/
theorem congr (queue : Queue aead d shm head waiting) (same : ∀ a < shmSize, after a = shm a) :
    Queue aead d after head waiting := by
  refine queue.keep fun i bound => ⟨?_, ?_⟩
  · have inside := (d.owner_lt_slot d bound i).trans_le ((Nat.le_add_right _ _).trans (d.slot_end bound))
    exact same _ inside
  · have inside := d.slot_end bound
    exact Memory.read_congr fun k small => same _ (by omega)

theorem all_free (queue : Queue aead d shm head []) :
    ∀ i < maxEntry, shm (d.owner i) = d.sender := by
  intro i bound
  exact queue.free i bound (by simp only [List.length_nil]; omega)

/-- A put into a queue that starts at slot 0 appends, or finds the ring full. -/
theorem put (queue : Queue aead d shm 0 waiting) (whole : message.length = msgSize) :
    waiting.length = maxEntry ∨
    ∃ stores, putMessage aead d message shm = (.stored waiting.length message, stores) ∧
      Queue aead d (shm.apply stores) 0 (waiting ++ [message]) := by
  obtain ⟨taken, _⟩ | ⟨i, bound, free, least, same⟩ := putMessage_cases aead d message shm
  · left
    have room := queue.room
    by_contra short
    exact taken waiting.length (by omega) (queue.free _ (by omega) (Or.inr (by omega)))
  -- The scan stops at the first free slot, which is the one behind the last message.
  have behind : i = waiting.length := by
    apply Nat.le_antisymm
    · by_contra later
      have room := queue.room
      exact least waiting.length (by omega) (queue.free _ (by omega) (Or.inr (by omega)))
    · by_contra earlier
      have owned := queue.owned i (by omega)
      rw [Nat.zero_add] at owned
      exact d.sender_ne_receiver (free.symm.trans owned)
  subst behind
  refine Or.inr ⟨_, same, ?_⟩
  have apart : Apart d waiting.length shm _ := stored_apart aead bound whole
  have kept : ∀ j < maxEntry, j ≠ waiting.length → _ ∧ _ :=
    fun j small other => apart d j small (fun same => other same.2.symm)
  refine ⟨by simp only [List.length_append, List.length_singleton]; omega, ?_, ?_, ?_⟩
  · intro k small
    simp only [List.length_append, List.length_singleton] at small
    rw [Nat.zero_add]
    by_cases new : k = waiting.length
    · subst new
      exact stored_owner aead
    · rw [(kept k (by omega) new).1]
      have owned := queue.owned k (by omega)
      rwa [Nat.zero_add] at owned
  · intro j small outside
    simp only [List.length_append, List.length_singleton, Nat.zero_add] at outside
    rw [(kept j small (by omega)).1]
    exact queue.free j small (by omega)
  · intro k small
    simp only [List.length_append, List.length_singleton] at small
    rw [Nat.zero_add]
    by_cases new : k = waiting.length
    · subst new
      rw [stored_slot aead bound whole, List.getElem_concat_length rfl]
    · rw [(kept k (by omega) new).2, List.getElem_append_left (by omega)]
      have packet := queue.packets k (by omega)
      rwa [Nat.zero_add] at packet

/-- A put into an empty ring through a 32-bit pointer, seen at the same physical bytes. -/
theorem put_window (aead : Aead 16) (m : Memory) (base : Nat) (whole : message.length = msgSize)
    (empty : ∀ i < maxEntry, m.window 32 base (d.owner i) = d.sender) :
    Queue aead d (Memory.window 32 (m.apply (rebase 32 base
      (putMessage aead d message (m.window 32 base)).2)) base) 0 [message] := by
  have idle : Queue aead d (m.window 32 base) 0 [] := .empty empty
  obtain full | ⟨stores, stored, queue⟩ := idle.put whole
  · exact absurd full (by decide)
  refine queue.congr fun a bound => ?_
  rw [stored]
  refine Memory.window_apply m (by decide) (fun t member => ?_) bound
  exact putMessage_extent aead whole (stored ▸ member)

/-- A get from a waiting queue returns its oldest message. -/
theorem get (queue : Queue aead d shm head (message :: waiting)) :
    getMessage aead.decrypt d shm = (.received head message, [flip d head d.sender]) ∧
      Queue aead d (shm.apply [flip d head d.sender]) (head + 1) waiting := by
  have room := queue.room
  rw [List.length_cons] at room
  have bound : head < maxEntry := by omega
  have first : shm (d.owner head) = d.receiver := queue.owned 0 (Nat.succ_pos _)
  have packet : shm.read (d.slot head) pktSize = aead.encrypt key nonce ad message :=
    queue.packets 0 (Nat.succ_pos _)
  have found : search d d.receiver shm = some head := by
    apply search_some.mpr
    refine ⟨bound, first, ?_⟩
    intro j earlier owned
    exact d.sender_ne_receiver ((queue.free j (by omega) (Or.inl earlier)).symm.trans owned)
  have apart : Apart d head shm (shm.apply [flip d head d.sender]) := flip_apart shm d.sender bound
  have kept : ∀ j < maxEntry, j ≠ head → _ ∧ _ :=
    fun j small other => apart d j small (fun same => other same.2.symm)
  constructor
  · simp only [getMessage, found, packet, aead.decrypt_encrypt]
  · refine ⟨by omega, ?_, ?_, ?_⟩
    · intro k small
      have owned := queue.owned (k + 1) (by simpa using small)
      rw [show head + (k + 1) = head + 1 + k by omega] at owned
      exact (kept _ (by omega) (by omega)).1.trans owned
    · intro j small outside
      by_cases same : j = head
      · subst same
        exact flip_same shm d.sender
      · refine (kept j small same).1.trans (queue.free j small ?_)
        rw [List.length_cons]
        omega
    · intro k small
      have later := queue.packets (k + 1) (by simpa using small)
      rw [show head + (k + 1) = head + 1 + k by omega] at later
      exact (kept _ (by omega) (by omega)).2.trans later

theorem get_empty (queue : Queue aead d shm head []) :
    getMessage aead.decrypt d shm = (.nothing, []) := by
  have unowned : search d d.receiver shm = none := by
    apply search_none.mpr
    intro j bound owned
    exact d.sender_ne_receiver ((queue.all_free j bound).symm.trans owned)
  simp only [getMessage, unowned]

/-- A put into a draining queue is overtaken by nothing: the next get returns
it ahead of every older message. -/
theorem overtakes (queue : Queue aead d shm head waiting) (drained : 0 < head)
    (whole : message.length = msgSize) :
    ∃ stores, putMessage aead d message shm = (.stored 0 message, stores) ∧
      getMessage aead.decrypt d (shm.apply stores) = (.received 0 message, [flip d 0 d.sender]) := by
  have bound : 0 < maxEntry := by decide
  have found : search d d.sender shm = some 0 :=
    search_first (queue.free 0 bound (Or.inl drained))
  refine ⟨slotCopy d 0 (aead.encrypt key nonce ad message) ++ [flip d 0 d.receiver], ?_, ?_⟩
  · simp only [putMessage, found]
  · have reread : search d d.receiver (shm.apply (slotCopy d 0 (aead.encrypt key nonce ad message) ++
        [flip d 0 d.receiver])) = some 0 := search_first (stored_owner aead)
    simp only [getMessage, reread, stored_slot aead bound whole, aead.decrypt_encrypt]

end Queue

/-- What the phase of a ring says about its queue. -/
def Phase.Fits : Phase → (head : Nat) → (waiting : Nat) → Prop
  | filling n, head, waiting => head = 0 ∧ n = waiting
  | draining n, _, waiting => 0 < waiting ∧ n = waiting

/-- Along a disciplined history the ring is a queue that holds exactly what was
accepted and not returned, in the order of acceptance. -/
def Ordered (aead : Aead 16) (d : Direction) (events : List Event) (shm : Memory) : Prop :=
  ∀ now, phase (bagCalls d events) = some now → ∃ head waiting,
    Queue aead d shm head waiting ∧ now.Fits head waiting.length ∧
      Bag.puts (bagCalls d events) = Bag.takes (bagCalls d events) ++ waiting

namespace Ordered
variable {aead : Aead 16} {d : Direction} {events : List Event} {shm : Memory}

theorem phase_append (calls : List (Bag.Call (List UInt8))) (call : Bag.Call (List UInt8)) :
    phase (calls ++ [call]) = (phase calls).bind (·.next call) := by
  simp only [phase, List.foldlM_append, List.foldlM_cons, List.foldlM_nil, bind_pure]
  rfl

theorem initial (boot : Memory) : Ordered aead d [] (boot.apply initRingBuffer) := by
  intro now same
  cases same
  exact ⟨0, [], .empty fun i bound => initRingBuffer_owner boot d bound, ⟨rfl, rfl⟩, rfl⟩

/-- An event that is none of this ring's calls, with stores that spare it. -/
theorem hidden (ordered : Ordered aead d events shm) (hidden : event.bagCall d = none)
    (same : ∀ head waiting, Queue aead d shm head waiting → Queue aead d after head waiting) :
    Ordered aead d (events ++ [event]) after := by
  intro now reached
  rw [bagCalls_append, bagCalls_hidden hidden, List.append_nil] at reached ⊢
  obtain ⟨head, waiting, queue, fits, balance⟩ := ordered now reached
  exact ⟨head, waiting, same head waiting queue, fits, balance⟩

theorem put (ordered : Ordered aead d events shm) (whole : message.length = msgSize) :
    Ordered aead d (events ++ [(putMessage aead d message shm).1.event d])
      (shm.apply (putMessage aead d message shm).2) := by
  intro now reached
  obtain ⟨_, same⟩ | ⟨i, bound, free, least, same⟩ := putMessage_cases aead d message shm
  · simp only [same, PutOutcome.event, bagCalls_append, bagCalls_full, phase_append, Bag.puts_append,
      Bag.takes_append, Memory.apply_nil] at reached ⊢
    obtain ⟨before, earlier, next⟩ := Option.bind_eq_some_iff.mp reached
    cases next
    simpa [Bag.puts, Bag.takes] using ordered _ earlier
  · rw [same] at reached ⊢
    simp only [PutOutcome.event, bagCalls_append, bagCalls_stored, phase_append, Bag.puts_append,
      Bag.takes_append] at reached ⊢
    obtain ⟨before, earlier, next⟩ := Option.bind_eq_some_iff.mp reached
    obtain ⟨head, waiting, queue, fits, balance⟩ := ordered before earlier
    cases before with
    | draining n => cases next
    | filling n =>
      cases next
      obtain ⟨rfl, rfl⟩ := fits
      obtain full | ⟨stores, stored, appended⟩ := queue.put whole
      · have owned := queue.owned i (full ▸ bound)
        rw [Nat.zero_add] at owned
        exact absurd (free.symm.trans owned) d.sender_ne_receiver
      · rw [same, Prod.mk.injEq] at stored
        refine ⟨0, waiting ++ [message], stored.2 ▸ appended, ⟨rfl, by simp⟩, ?_⟩
        simp [Bag.puts, Bag.takes, balance]

theorem get (ordered : Ordered aead d events shm) :
    Ordered aead d (events ++ [(getMessage aead.decrypt d shm).1.event d])
      (shm.apply (getMessage aead.decrypt d shm).2) := by
  intro now reached
  have earlier : ∃ before, phase (bagCalls d events) = some before := by
    rw [bagCalls_append] at reached
    cases same : phase (bagCalls d events) with
    | some before => exact ⟨before, rfl⟩
    | none =>
      simp only [phase] at same
      simp [phase, List.foldlM_append, same] at reached
  obtain ⟨before, earlier⟩ := earlier
  obtain ⟨head, waiting, queue, fits, balance⟩ := ordered before earlier
  cases waiting with
  | nil =>
    simp only [queue.get_empty, GetOutcome.event, bagCalls_append, bagCalls_nothing, phase_append,
      Bag.puts_append, Bag.takes_append, Memory.apply_nil, earlier, Option.bind_some] at reached ⊢
    cases reached
    exact ⟨head, [], queue, fits, by simpa [Bag.puts, Bag.takes] using balance⟩
  | cons message rest =>
    obtain ⟨result, popped⟩ := queue.get
    simp only [result, GetOutcome.event, bagCalls_append, bagCalls_received, phase_append,
      Bag.puts_append, Bag.takes_append, earlier, Option.bind_some] at reached ⊢
    have balanced : Bag.puts (bagCalls d events) ++ Bag.puts [.take message] =
        Bag.takes (bagCalls d events) ++ Bag.takes [.take message] ++ rest := by
      simp [Bag.puts, Bag.takes, balance]
    have next : (if rest.length = 0 then Phase.filling 0 else .draining rest.length) = now := by
      cases before with
      | filling n | draining n =>
        obtain ⟨_, rfl⟩ := fits
        simpa [Phase.next] using reached
    subst next
    cases rest with
    | nil => exact ⟨0, [], .empty popped.all_free, ⟨rfl, rfl⟩, balanced⟩
    | cons first others => exact ⟨head + 1, first :: others, popped, ⟨by simp, by simp⟩, balanced⟩

theorem call (ordered : Ordered aead d events shm) (enclave : Enclave) (c : Call) :
    Ordered aead d (events ++ [(c.perform aead aead.decrypt enclave shm).1])
      (shm.apply (c.perform aead aead.decrypt enclave shm).2) := by
  obtain same | ⟨message, whole, same⟩ | same := c.perform_cases aead aead.decrypt enclave shm
  · rw [same]
    exact ordered.hidden rfl fun _ _ queue => queue
  · rw [same]
    by_cases own : c.direction = d
    · rw [own]
      exact ordered.put whole
    obtain ⟨_, same⟩ | ⟨i, bound, _, _, same⟩ := putMessage_cases aead c.direction message shm
    · rw [same]
      exact ordered.hidden (if_neg own) fun _ _ queue => queue
    · rw [same]
      exact ordered.hidden (if_neg own) fun _ _ queue => queue.apart (stored_apart aead bound whole) own
  · rw [same]
    by_cases own : c.direction = d
    · rw [own]
      exact ordered.get
    obtain ⟨_, same⟩ | ⟨i, bound, _, _, result⟩ := getMessage_cases aead.decrypt c.direction shm
    · rw [same]
      exact ordered.hidden (if_neg own) fun _ _ queue => queue
    obtain ⟨_, same⟩ | ⟨message, _, same⟩ := result
    · rw [same]
      exact ordered.hidden rfl fun _ _ queue => queue
    · rw [same]
      exact ordered.hidden (if_neg own) fun _ _ queue => queue.apart (flip_apart shm _ bound) own

end Ordered

section Runs
variable {aead : Aead 16} {enclave : Enclave} {d : Direction} {origin shm : Memory}

theorem run_put (run : Run (Sequential aead enclave) origin events shm)
    (queue : Queue aead d shm 0 waiting) (short : waiting.length < maxEntry)
    (whole : message.length = msgSize) :
    ∃ after, Run (Sequential aead enclave) origin (events ++ [.stored d message]) after ∧
      Queue aead d after 0 (waiting ++ [message]) := by
  obtain full | ⟨stores, stored, appended⟩ := queue.put whole
  · omega
  · have step : Sequential aead enclave shm _ _ := .call (.ofPut enclave d message)
    rw [Call.perform_ofPut aead _ enclave d shm whole, stored] at step
    exact ⟨_, run.next step, appended⟩

theorem run_get (run : Run (Sequential aead enclave) origin events shm)
    (queue : Queue aead d shm head (message :: waiting)) :
    ∃ after, Run (Sequential aead enclave) origin (events ++ [.received d message]) after ∧
      Queue aead d after (head + 1) waiting := by
  obtain ⟨received, popped⟩ := queue.get
  have step : Sequential aead enclave shm _ _ := .call (.ofGet enclave d)
  rw [Call.perform_ofGet, received] at step
  exact ⟨_, run.next step, popped⟩

/-- A put into a ring that is being drained comes out before older messages. -/
theorem run_overtakes (run : Run (Sequential aead enclave) origin events shm)
    (queue : Queue aead d shm (head + 1) waiting) (whole : message.length = msgSize) :
    ∃ after, Run (Sequential aead enclave) origin
      (events ++ [.stored d message] ++ [.received d message]) after := by
  obtain ⟨stores, stored, received⟩ := queue.overtakes (Nat.succ_pos head) whole
  have putStep : Sequential aead enclave shm _ _ := .call (.ofPut enclave d message)
  rw [Call.perform_ofPut aead _ enclave d shm whole, stored] at putStep
  have getStep : Sequential aead enclave (shm.apply stores) _ _ := .call (.ofGet enclave d)
  rw [Call.perform_ofGet, received] at getStep
  exact ⟨_, (run.next putStep).next getStep⟩

/-- Two messages are put and the first one is taken. -/
theorem burst (aead : Aead 16) (enclave : Enclave) (boot : Memory) (d : Direction) {a b : List UInt8}
    (wholeA : a.length = msgSize) (wholeB : b.length = msgSize) :
    ∃ shm, Run (Sequential aead enclave) (boot.apply initRingBuffer)
      [.stored d a, .stored d b, .received d a] shm ∧ Queue aead d shm 1 [b] := by
  have idle : Queue aead d (boot.apply initRingBuffer) 0 [] :=
    .empty fun i bound => initRingBuffer_owner boot d bound
  obtain ⟨_, run, one⟩ := run_put (.start) idle (by decide) wholeA
  obtain ⟨_, run, two⟩ := run_put run one (by simp [maxEntry]) wholeB
  exact run_get run two

end Runs

/-- What is returned was accepted, as multisets, in every run of complete calls;
and in the order of acceptance, if every burst is drained before the next. -/
theorem sequential_order (aead : Aead 16) (enclave : Enclave) (boot : Memory) {events : List Event}
    {shm : Memory} (run : Run (Sequential aead enclave) (boot.apply initRingBuffer) events shm)
    (d : Direction) :
    (Bag.takes (bagCalls d events) : Multiset (List UInt8)) ≤ Bag.puts (bagCalls d events) ∧
    (FillThenDrain d events → Bag.takes (bagCalls d events) <+: Bag.puts (bagCalls d events)) := by
  have ordered : Ordered aead d events shm := by
    apply run.invariant (Ordered.initial boot)
    intro _ _ _ _ ordered step
    cases step with
    | call c => exact ordered.call enclave c
  constructor
  · have balance := Bag.replay_balance ((sequential_refines run).bags d)
    rw [zero_add] at balance
    exact balance ▸ Multiset.le_add_right _ _
  · intro disciplined
    obtain ⟨now, reached⟩ := Option.isSome_iff_exists.mp disciplined
    obtain ⟨_, waiting, _, _, balance⟩ := ordered now reached
    exact balance ▸ List.prefix_append _ waiting

theorem later_message_overtakes :
    ∃ events shm, Run (Sequential (transparent 16) .sample)
      (Memory.apply (fun _ => 0) initRingBuffer) events shm ∧
      ¬ Bag.takes (bagCalls .inbound events) <+: Bag.puts (bagCalls .inbound events) := by
  have whole : ∀ b : UInt8, (List.replicate msgSize b).length = msgSize :=
    fun b => List.length_replicate
  obtain ⟨_, run, queue⟩ := burst (transparent 16) .sample
    (fun _ => 0) .inbound (whole 0x61) (whole 0x62)
  obtain ⟨shm, run⟩ := run_overtakes run queue (whole 0x63)
  refine ⟨_, shm, run, ?_⟩
  have differ : List.replicate msgSize (0x63 : UInt8) ≠ List.replicate msgSize 0x62 :=
    fun same => absurd (List.replicate_inj.mp same).2 (by decide)
  simpa [bagCalls, Event.bagCall, Bag.takes, Bag.puts, List.cons_prefix_cons] using differ

theorem sequential_order_burst :
    ∃ events shm, Run (Sequential (transparent 16) .sample)
      (Memory.apply (fun _ => 0) initRingBuffer) events shm ∧ FillThenDrain .inbound events ∧
      Bag.takes (bagCalls .inbound events) = [List.replicate msgSize 0x61] ∧
      Bag.takes (bagCalls .inbound events) <+: Bag.puts (bagCalls .inbound events) := by
  obtain ⟨shm, run, _⟩ := burst (transparent 16) .sample
    (fun _ => 0) .inbound (List.length_replicate (a := 0x61)) (List.length_replicate (a := 0x62))
  have drained : FillThenDrain .inbound [.stored .inbound (List.replicate msgSize 0x61),
      .stored .inbound (List.replicate msgSize 0x62),
      .received .inbound (List.replicate msgSize 0x61)] := rfl
  exact ⟨_, shm, run, drained, rfl, (sequential_order _ _ _ run .inbound).2 drained⟩

end Aurora.Order
