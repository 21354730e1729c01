import Aurora.Ring.Effects

/-! SMM and the enclave on one region. The enclave runs one call at a time, cut
into its steps; an SMI runs a whole SMM call between any two of them. For every
such interleaving each ring behaves as an unordered bag of 64 messages: what
links the parties is which of them a slot belongs to while a call is under way. -/
namespace Aurora.Interleaving
open Lib

structure System where
  shm : Memory
  enclave : Option Progress

/-- The region as `init_ring_buffer` leaves it, whatever it held before. -/
def start (boot : Memory) : System := ⟨boot.apply initRingBuffer, none⟩

inductive Step (aead : Aead 16) (enclave : Enclave) : System → List Event → System → Prop where
  | putIn (raw : Buffer) (msgLen : Int) (random : Memory) :
      Step aead enclave s
        [(Network.putInBuffer aead raw msgLen random s.shm).1.event .inbound]
        { s with shm := s.shm.apply (Network.putInBuffer aead raw msgLen random s.shm).2 }
  | getOut (message : Nat) (reply : Reply) :
      Step aead enclave s
        [(Network.getOutBuffer aead.decrypt message reply s.shm).1.event .outbound]
        { s with shm := s.shm.apply (Network.getOutBuffer aead.decrypt message reply s.shm).2.2 }
  | callPutOut (raw : Buffer) (msgLen : Int) (random : Memory) : s.enclave = none →
      accept (enclave.sgxIsWithinEnclave raw.addr (sizeT msgLen)) raw msgLen random = .ok message →
      Step aead enclave s [] { s with enclave := some (.putScan .outbound message) }
  | refusePutOut (raw : Buffer) (msgLen : Int) (random : Memory) : s.enclave = none →
      accept (enclave.sgxIsWithinEnclave raw.addr (sizeT msgLen)) raw msgLen random = .error outcome →
      Step aead enclave s [.refused .outbound] s
  | callGetIn (message : Nat) : s.enclave = none →
      enclave.sgxIsWithinEnclave message msgSize = true →
      Step aead enclave s [] { s with enclave := some (.getScan .inbound) }
  | refuseGetIn (message : Nat) : s.enclave = none →
      enclave.sgxIsWithinEnclave message msgSize = false →
      Step aead enclave s [.refused .inbound] s
  | proceed : s.enclave = some p →
      Step aead enclave s (p.advance aead aead.decrypt s.shm).1.events
        ⟨s.shm.apply (p.advance aead aead.decrypt s.shm).2,
          (p.advance aead aead.decrypt s.shm).1.progress⟩

/-- What a call under way relies on: the slot it settled on is still its own,
and the private data it carries is what the region holds there. -/
def Consistent (aead : Aead 16) (shm : Memory) : Progress → Prop
  | .putScan d message => d = .outbound ∧ message.length = msgSize
  | .putCopy d message i => d = .outbound ∧ message.length = msgSize ∧ i < maxEntry ∧
      shm (d.owner i) = d.sender
  | .putFlip d message i => d = .outbound ∧ i < maxEntry ∧ shm (d.owner i) = d.sender ∧
      shm.read (d.slot i) pktSize = aead.encrypt key nonce ad message
  | .getScan d => d = .inbound
  | .getCopy d i => d = .inbound ∧ i < maxEntry ∧ shm (d.owner i) = d.receiver
  | .getDecrypt d i ciphertext => d = .inbound ∧ i < maxEntry ∧ shm (d.owner i) = d.receiver ∧
      shm.read (d.slot i) pktSize = ciphertext
  | .getFlip d i message => d = .inbound ∧ i < maxEntry ∧ shm (d.owner i) = d.receiver ∧
      aead.decrypt key nonce ad (shm.read (d.slot i) pktSize) = some message

section Consistency
variable {aead : Aead 16} {shm after : Memory} {p : Progress} {d : Direction} {i : Nat}

theorem Consistent.place (consistent : Consistent aead shm p) (settled : p.place = some (d, i)) :
    d = .outbound ∧ shm (d.owner i) = d.sender ∨ d = .inbound ∧ shm (d.owner i) = d.receiver := by
  cases p <;> simp only [Progress.place, Option.some.injEq, Prod.mk.injEq, reduceCtorEq] at settled <;>
    obtain ⟨rfl, rfl⟩ := settled
  case putCopy => exact Or.inl ⟨consistent.1, consistent.2.2.2⟩
  case putFlip => exact Or.inl ⟨consistent.1, consistent.2.2.1⟩
  case getCopy => exact Or.inr ⟨consistent.1, consistent.2.2⟩
  case getDecrypt => exact Or.inr ⟨consistent.1, consistent.2.2.1⟩
  case getFlip => exact Or.inr ⟨consistent.1, consistent.2.2.1⟩

/-- A change elsewhere leaves a call under way undisturbed. -/
theorem Consistent.apart (consistent : Consistent aead shm p) (apart : Apart d i shm after)
    (elsewhere : p.place ≠ some (d, i)) : Consistent aead after p := by
  have kept : ∀ e j, j < maxEntry → p.place = some (e, j) → after (e.owner j) = shm (e.owner j) ∧
      after.read (e.slot j) pktSize = shm.read (e.slot j) pktSize := by
    intro e j bound settled
    apply apart e j bound
    rintro ⟨rfl, rfl⟩
    exact elsewhere settled
  cases p with
  | putScan | getScan => exact consistent
  | putCopy e message j =>
    obtain ⟨out, whole, bound, free⟩ := consistent
    exact ⟨out, whole, bound, (kept e j bound rfl).1.trans free⟩
  | putFlip e message j =>
    obtain ⟨out, bound, free, slot⟩ := consistent
    exact ⟨out, bound, (kept e j bound rfl).1.trans free, (kept e j bound rfl).2.trans slot⟩
  | getCopy e j =>
    obtain ⟨inside, bound, owned⟩ := consistent
    exact ⟨inside, bound, (kept e j bound rfl).1.trans owned⟩
  | getDecrypt e j ciphertext =>
    obtain ⟨inside, bound, owned, slot⟩ := consistent
    exact ⟨inside, bound, (kept e j bound rfl).1.trans owned, (kept e j bound rfl).2.trans slot⟩
  | getFlip e j message =>
    obtain ⟨inside, bound, owned, opened⟩ := consistent
    refine ⟨inside, bound, (kept e j bound rfl).1.trans owned, ?_⟩
    rw [(kept e j bound rfl).2]
    exact opened

/-- An SMI that stores an IN message takes a slot of SMM, never the one the
enclave is reading. -/
theorem Consistent.putIn (consistent : Consistent aead shm p) (within : Bool) (raw : Buffer)
    (msgLen : Int) (random : Memory) :
    Consistent aead (shm.apply (put aead .inbound within raw msgLen random shm).2) p := by
  unfold put
  cases checked : accept within raw msgLen random with
  | error outcome => exact consistent
  | ok message =>
    obtain ⟨_, same⟩ | ⟨i, bound, free, _, same⟩ := putMessage_cases aead .inbound message shm
    · simp only [same]
      exact consistent
    · simp only [same]
      apply consistent.apart (stored_apart aead bound (accept_length checked))
      intro settled
      obtain ⟨outbound, _⟩ | ⟨_, owned⟩ := consistent.place settled
      · contradiction
      · exact Direction.sender_ne_receiver .inbound (free.symm.trans owned)

/-- An SMI that takes an OUT message returns a slot of SMM, never the one the
enclave is filling. -/
theorem Consistent.getOut (consistent : Consistent aead shm p) (within : Bool) :
    Consistent aead (shm.apply (get aead.decrypt .outbound within shm).2) p := by
  unfold get
  split
  · obtain ⟨_, same⟩ | ⟨i, bound, owned, _, result⟩ := getMessage_cases aead.decrypt .outbound shm
    · rw [same]
      exact consistent
    · obtain ⟨_, same⟩ | ⟨message, _, same⟩ := result
      · rw [same]
        exact consistent
      · rw [same]
        apply consistent.apart (flip_apart shm _ bound)
        intro settled
        obtain ⟨_, free⟩ | ⟨inbound, _⟩ := consistent.place settled
        · exact Direction.sender_ne_receiver .outbound (free.symm.trans owned)
        · contradiction
  · exact consistent

/-- One step of the enclave's own call is an effect on its ring, and leaves the
call consistent with what it relies on next. -/
theorem Consistent.advance (consistent : Consistent aead shm p) (sound : Sound aead.decrypt shm) :
    (∃ d, Effect aead d shm (p.advance aead aead.decrypt shm).1.events
      (shm.apply (p.advance aead aead.decrypt shm).2)) ∧
    ∀ q, (p.advance aead aead.decrypt shm).1.progress = some q →
      Consistent aead (shm.apply (p.advance aead aead.decrypt shm).2) q := by
  cases p with
  | putScan d message =>
    obtain ⟨out, whole⟩ := consistent
    cases found : search d d.sender shm with
    | none =>
      simp only [Progress.advance, found, Advance.progress, reduceCtorEq, false_implies,
        implies_true, and_true]
      exact ⟨d, .full (search_none.mp found)⟩
    | some i =>
      obtain ⟨bound, free, _⟩ := search_some.mp found
      simp only [Progress.advance, found, Advance.progress, Option.some.injEq]
      refine ⟨⟨d, .idle⟩, ?_⟩
      rintro _ rfl
      exact ⟨out, whole, bound, free⟩
  | putCopy d message i =>
    obtain ⟨out, whole, bound, free⟩ := consistent
    simp only [Progress.advance, Advance.progress, Option.some.injEq]
    refine ⟨⟨d, .fill bound free whole⟩, ?_⟩
    rintro _ rfl
    exact ⟨out, bound, (slotCopy_owner shm bound _).trans free,
      slotCopy_same shm (packet_length aead whole)⟩
  | putFlip d message i =>
    obtain ⟨out, bound, free, slot⟩ := consistent
    refine ⟨⟨d, .hand bound free slot⟩, ?_⟩
    intro _ finished
    simp only [Progress.advance, Advance.progress, reduceCtorEq] at finished
  | getScan d =>
    cases found : search d d.receiver shm with
    | none =>
      simp only [Progress.advance, found, Advance.progress, reduceCtorEq, false_implies,
        implies_true, and_true]
      exact ⟨d, .nothing (search_none.mp found)⟩
    | some i =>
      obtain ⟨bound, owned, _⟩ := search_some.mp found
      simp only [Progress.advance, found, Advance.progress, Option.some.injEq]
      refine ⟨⟨d, .idle⟩, ?_⟩
      rintro _ rfl
      exact ⟨consistent, bound, owned⟩
  | getCopy d i =>
    obtain ⟨inside, bound, owned⟩ := consistent
    simp only [Progress.advance, Advance.progress, Option.some.injEq]
    refine ⟨⟨d, .idle⟩, ?_⟩
    rintro _ rfl
    exact ⟨inside, bound, owned, rfl⟩
  | getDecrypt d i ciphertext =>
    obtain ⟨inside, bound, owned, rfl⟩ := consistent
    obtain free | ⟨_, message, opened⟩ := sound d i bound
    · exact absurd (free.symm.trans owned) d.sender_ne_receiver
    · simp only [Progress.advance, opened, Advance.progress, Option.some.injEq]
      refine ⟨⟨d, .idle⟩, ?_⟩
      rintro _ rfl
      exact ⟨inside, bound, owned, opened⟩
  | getFlip d i message =>
    obtain ⟨inside, bound, owned, opened⟩ := consistent
    refine ⟨⟨d, .take bound owned opened⟩, ?_⟩
    intro _ finished
    simp only [Progress.advance, Advance.progress, reduceCtorEq] at finished

end Consistency

structure Invariant (aead : Aead 16) (events : List Event) (s : System) : Prop where
  refines : Refines aead events s.shm
  consistent : ∀ p, s.enclave = some p → Consistent aead s.shm p

theorem Step.invariant {aead : Aead 16} {enclave : Enclave} {s t : System} {events emitted : List Event}
    (invariant : Invariant aead events s) (step : Step aead enclave s emitted t) :
    Invariant aead (events ++ emitted) t := by
  obtain ⟨refines, consistent⟩ := invariant
  cases step with
  | putIn raw msgLen random =>
    exact ⟨refines.effects (put_effects aead .inbound s.shm _ raw msgLen random),
      fun p running => (consistent p running).putIn _ raw msgLen random⟩
  | getOut message reply =>
    exact ⟨refines.effects (get_effects aead .outbound s.shm _ refines.sound),
      fun p running => (consistent p running).getOut _⟩
  | callPutOut raw msgLen random _ checked =>
    rw [List.append_nil]
    refine ⟨refines, ?_⟩
    rintro p running
    cases running
    exact ⟨rfl, accept_length checked⟩
  | refusePutOut => exact ⟨refines.effect .refused, consistent⟩
  | callGetIn =>
    rw [List.append_nil]
    refine ⟨refines, ?_⟩
    rintro p running
    cases running
    exact rfl
  | refuseGetIn => exact ⟨refines.effect .refused, consistent⟩
  | proceed running =>
    obtain ⟨⟨d, effect⟩, next⟩ := (consistent _ running).advance refines.sound
    exact ⟨refines.effect effect, next⟩

theorem run_invariant {aead : Aead 16} {enclave : Enclave} {boot : Memory} {events : List Event}
    {s : System} (run : Run (Step aead enclave) (start boot) events s) : Invariant aead events s := by
  apply run.invariant
  · refine ⟨?_, fun p running => ?_⟩
    · dsimp only [start]
      exact Refines.initial aead boot
    · simp only [start, reduceCtorEq] at running
  · intro _ _ _ _ invariant step
    exact Step.invariant invariant step

/-- Two unordered bags of capacity 64, for every interleaving: the calls on a
ring and their answers are accepted by a bag whose content is what its handed-over
slots decrypt to. So a get returns a plaintext that was put before and not
returned since, each put and not yet returned plaintext sits in one slot of its
own, and no call meets a packet that fails to authenticate. -/
theorem interleaving_refines_bags (aead : Aead 16) (enclave : Enclave) (boot : Memory)
    {events : List Event} {s : System} (run : Run (Step aead enclave) (start boot) events s)
    (d : Direction) :
    Bag.replay maxEntry 0 (bagCalls d events) = some (pending aead.decrypt d s.shm) ∧
    (∀ before message after, events = before ++ .received d message :: after →
      message.length = msgSize ∧
        (Bag.takes (bagCalls d before) : Multiset (List UInt8)) + {message} ≤
          Bag.puts (bagCalls d before)) ∧
    (∀ message, (Bag.puts (bagCalls d events) : Multiset (List UInt8)).count message =
      (Bag.takes (bagCalls d events) : Multiset (List UInt8)).count message +
        copies aead.decrypt d message s.shm) ∧
    Event.forged d ∉ events := by
  have refines := (run_invariant run).refines
  have accepted := refines.bags d
  refine ⟨accepted, ?_, refines.balance d, refines.authentic d⟩
  rintro before message after rfl
  refine ⟨refines.sized d message (by simp), ?_⟩
  have split : bagCalls d (before ++ .received d message :: after) =
      bagCalls d before ++ .take message :: bagCalls d after := by
    rw [← List.singleton_append, bagCalls_append, bagCalls_append, bagCalls_received,
      List.singleton_append]
  rw [split] at accepted
  exact Bag.replay_take accepted

theorem interleaving_refines_bags_smi_during_get :
    ∃ events s, Run (Step (transparent 16) .sample)
      (start fun _ => 0) events s ∧ s.enclave.isSome ∧ Event.forged .inbound ∉ events := by
  let enclave : Enclave := .sample
  have stored : Run (Step (transparent 16) enclave) (start fun _ => 0) _ _ :=
    .single (.putIn ⟨0xa8000, fun _ => 0x61⟩ 5 (fun _ => 0))
  have called := stored.next (Step.callGetIn 0x20000 rfl (by decide))
  have interrupted := called.next (Step.putIn ⟨0xa8000, fun _ => 0x62⟩ 7 (fun _ => 0))
  exact ⟨_, _, interrupted, rfl,
    (interleaving_refines_bags (transparent 16) enclave (fun _ => 0) interrupted .inbound).2.2.2⟩

end Aurora.Interleaving
