import Aurora.Ring.Steps
import Aurora.Lib.Transition

/-! Everything the ring code can do to the shared region, said once. Each effect
keeps the region sound and is the bag's own move on the plaintexts it holds;
whole calls and single steps are then chains of effects. -/
namespace Aurora
open Lib

/-- Every ownership byte names a party, and a slot handed to its receiver is
the packet of some full-size plaintext. -/
def Sound (decrypt : Decryption) (shm : Memory) : Prop :=
  ∀ (d : Direction), ∀ i < maxEntry, shm (d.owner i) = d.sender ∨
    shm (d.owner i) = d.receiver ∧
      ∃ message, decrypt key nonce ad (shm.read (d.slot i) pktSize) = some message

inductive Effect (aead : Aead 16) (d : Direction) : Memory → List Event → Memory → Prop where
  | idle : Effect aead d shm [] shm
  | refused : Effect aead d shm [.refused d] shm
  | full : (∀ i < maxEntry, shm (d.owner i) ≠ d.sender) → Effect aead d shm [.full d message] shm
  | fill : i < maxEntry → shm (d.owner i) = d.sender → message.length = msgSize →
      Effect aead d shm [] (shm.apply (slotCopy d i (aead.encrypt key nonce ad message)))
  | hand : i < maxEntry → shm (d.owner i) = d.sender →
      shm.read (d.slot i) pktSize = aead.encrypt key nonce ad message →
      Effect aead d shm [.stored d message] (shm.store (flip d i d.receiver))
  | nothing : (∀ i < maxEntry, shm (d.owner i) ≠ d.receiver) → Effect aead d shm [.nothing d] shm
  | take : i < maxEntry → shm (d.owner i) = d.receiver →
      aead.decrypt key nonce ad (shm.read (d.slot i) pktSize) = some message →
      Effect aead d shm [.received d message] (shm.store (flip d i d.sender))

namespace Sound
variable {decrypt : Decryption} {shm after : Memory} {d : Direction} {i : Nat}

/-- Only the slot that changed has to be looked at again. -/
theorem change (sound : Sound decrypt shm) (apart : Apart d i shm after)
    (changed : after (d.owner i) = d.sender ∨ after (d.owner i) = d.receiver ∧
      ∃ message, decrypt key nonce ad (after.read (d.slot i) pktSize) = some message) :
    Sound decrypt after := by
  intro e j bound
  by_cases same : d = e ∧ i = j
  · obtain ⟨rfl, rfl⟩ := same
    exact changed
  · obtain ⟨owner, slot⟩ := apart e j bound same
    rw [owner, slot]
    exact sound e j bound

theorem pending_full (sound : Sound decrypt shm)
    (taken : ∀ i < maxEntry, shm (d.owner i) ≠ d.sender) :
    (pending decrypt d shm).card = maxEntry := by
  apply Bag.contents_full
  intro i bound
  obtain free | ⟨owned, message, opened⟩ := sound d i bound
  · exact absurd free (taken i bound)
  · rw [held_owned decrypt owned, opened]
    rfl

theorem pending_empty (sound : Sound decrypt shm)
    (unowned : ∀ i < maxEntry, shm (d.owner i) ≠ d.receiver) : pending decrypt d shm = 0 := by
  apply Bag.contents_empty
  intro i bound
  obtain free | ⟨owned, _⟩ := sound d i bound
  · exact held_free decrypt free
  · exact absurd owned (unowned i bound)

theorem initial (boot : Memory) : Sound decrypt (boot.apply initRingBuffer) :=
  fun d _ bound => Or.inl (initRingBuffer_owner boot d bound)

end Sound

namespace Effect
variable {aead : Aead 16} {d : Direction} {shm after : Memory} {emitted : List Event}

theorem sound (effect : Effect aead d shm emitted after) (sound : Sound aead.decrypt shm) :
    Sound aead.decrypt after := by
  cases effect with
  | idle | refused | full | nothing => exact sound
  | fill bound free whole =>
    apply sound.change (slotCopy_apart shm (packet_length aead whole) bound)
    exact Or.inl ((slotCopy_owner shm bound _).trans free)
  | hand bound free slot =>
    apply sound.change (flip_apart shm d.receiver bound)
    rw [flip_slot shm d.receiver bound, slot]
    exact Or.inr ⟨flip_same shm d.receiver, _, aead.decrypt_encrypt⟩
  | take bound owned opened =>
    exact sound.change (flip_apart shm d.sender bound) (Or.inl (flip_same shm d.sender))

/-- The ring it belongs to sees the bag's move. -/
theorem own_ring (effect : Effect aead d shm emitted after) (sound : Sound aead.decrypt shm) :
    Bag.replay maxEntry (pending aead.decrypt d shm) (bagCalls d emitted) =
      some (pending aead.decrypt d after) := by
  cases effect with
  | idle | refused => rfl
  | full taken =>
    rw [bagCalls_full, Bag.replay_single, Bag.step, if_pos (sound.pending_full taken)]
  | fill bound free whole =>
    rw [pending_fill bound free (packet_length aead whole)]
    rfl
  | hand bound free slot =>
    have room : (pending aead.decrypt d shm).card < maxEntry :=
      Bag.contents_card_lt bound (held_free aead.decrypt free)
    rw [pending_stored aead bound free (flip_apart shm d.receiver bound) (flip_same shm d.receiver)
      ((flip_slot shm d.receiver bound).trans slot)]
    rw [bagCalls_stored, Bag.replay_single, Bag.step, if_pos room]
  | nothing unowned =>
    rw [bagCalls_nothing, Bag.replay_single, Bag.step, if_pos (sound.pending_empty unowned)]
  | take bound owned opened =>
    obtain ⟨present, rest⟩ := pending_received bound owned opened
    rw [bagCalls_received, Bag.replay_single, Bag.step, if_pos present, rest]

/-- The other ring sees nothing. -/
theorem other_ring (effect : Effect aead d shm emitted after) (different : d ≠ e) :
    bagCalls e emitted = [] ∧ pending aead.decrypt e after = pending aead.decrypt e shm := by
  cases effect with
  | idle | refused => exact ⟨rfl, rfl⟩
  | full | nothing => exact ⟨bagCalls_hidden (if_neg different), rfl⟩
  | fill bound free whole =>
    exact ⟨rfl, pending_other (slotCopy_apart shm (packet_length aead whole) bound) different⟩
  | hand bound =>
    exact ⟨bagCalls_hidden (if_neg different),
      pending_other (flip_apart shm d.receiver bound) different⟩
  | take bound =>
    exact ⟨bagCalls_hidden (if_neg different),
      pending_other (flip_apart shm d.sender bound) different⟩

theorem bag_move (effect : Effect aead d shm emitted after) (sound : Sound aead.decrypt shm)
    (e : Direction) :
    Bag.replay maxEntry (pending aead.decrypt e shm) (bagCalls e emitted) =
      some (pending aead.decrypt e after) := by
  by_cases same : d = e
  · subst same
    exact effect.own_ring sound
  · obtain ⟨silent, kept⟩ := effect.other_ring same
    rw [silent, kept]
    rfl

theorem not_forged (effect : Effect aead d shm emitted after) (e : Direction) :
    Event.forged e ∉ emitted := by
  cases effect <;> simp

theorem received_length (effect : Effect aead d shm emitted after)
    (shown : Event.received e message ∈ emitted) : message.length = msgSize := by
  cases effect with
  | idle | refused | full | fill | hand | nothing => simp at shown
  | take bound owned opened =>
    simp only [List.mem_singleton, Event.received.injEq] at shown
    obtain ⟨rfl, rfl⟩ := shown
    have sizes := aead.decrypt_length opened
    rw [Memory.read_length] at sizes
    simp only [msgSize]
    omega

end Effect

/-- Effects one after another, with everything they show. -/
abbrev Effects (aead : Aead 16) (d : Direction) : Memory → List Event → Memory → Prop :=
  Run (Effect aead d)

section Calls
variable (aead : Aead 16) (d : Direction) (shm : Memory)

theorem putMessage_effects (whole : message.length = msgSize) :
    Effects aead d shm [(putMessage aead d message shm).1.event d]
      (shm.apply (putMessage aead d message shm).2) := by
  obtain ⟨taken, same⟩ | ⟨i, bound, free, _, same⟩ := putMessage_cases aead d message shm
  · rw [same]
    exact .single (.full taken)
  · rw [same, Memory.apply_concat]
    have filled : Effects aead d shm [] _ := .single (.fill bound free whole)
    refine .next filled (.hand bound ((slotCopy_owner shm bound _).trans free) ?_)
    exact slotCopy_same shm (packet_length aead whole)

theorem put_effects (within : Bool) (raw : Buffer) (msgLen : Int) (random : Memory) :
    Effects aead d shm [(put aead d within raw msgLen random shm).1.event d]
      (shm.apply (put aead d within raw msgLen random shm).2) := by
  obtain ⟨outcome, same, refused⟩ | ⟨message, whole, same⟩ :=
    put_cases aead d within raw msgLen random shm
  · rw [same]
    simp only [refused]
    exact .single .refused
  · rw [same]
    exact putMessage_effects aead d shm whole

theorem getMessage_effects (sound : Sound aead.decrypt shm) :
    Effects aead d shm [(getMessage aead.decrypt d shm).1.event d]
      (shm.apply (getMessage aead.decrypt d shm).2) := by
  obtain ⟨unowned, same⟩ | ⟨i, bound, owned, _, result⟩ := getMessage_cases aead.decrypt d shm
  · rw [same]
    exact .single (.nothing unowned)
  · obtain ⟨failed, _⟩ | ⟨message, opened, same⟩ := result
    · obtain free | ⟨_, message, opened⟩ := sound d i bound
      · exact absurd (free.symm.trans owned) d.sender_ne_receiver
      · exact absurd (failed.symm.trans opened) (by simp)
    · rw [same]
      exact .single (.take bound owned opened)

theorem get_effects (within : Bool) (sound : Sound aead.decrypt shm) :
    Effects aead d shm [(get aead.decrypt d within shm).1.event d]
      (shm.apply (get aead.decrypt d within shm).2) := by
  obtain same | same := get_cases aead.decrypt d within shm
  · rw [same]
    exact .single .refused
  · rw [same]
    exact getMessage_effects aead d shm sound

end Calls

/-- A region history: sound, and accepted by both bags. -/
structure Refines (aead : Aead 16) (events : List Event) (shm : Memory) : Prop where
  sound : Sound aead.decrypt shm
  bags : ∀ d, Bag.replay maxEntry 0 (bagCalls d events) = some (pending aead.decrypt d shm)
  authentic : ∀ d, Event.forged d ∉ events
  sized : ∀ d message, Event.received d message ∈ events → message.length = msgSize

/-- What was put is what was taken and what the slots still hold. -/
theorem Refines.balance {aead : Aead 16} {events : List Event} {shm : Memory}
    (refines : Refines aead events shm) (d : Direction) (message : List UInt8) :
    (Bag.puts (bagCalls d events) : Multiset (List UInt8)).count message =
      (Bag.takes (bagCalls d events) : Multiset (List UInt8)).count message +
        copies aead.decrypt d message shm := by
  have balance := Bag.replay_balance (refines.bags d)
  rw [zero_add] at balance
  rw [balance, Multiset.count_add, pending_count]

theorem Refines.initial (aead : Aead 16) (boot : Memory) :
    Refines aead [] (boot.apply initRingBuffer) where
  sound := Sound.initial boot
  bags d := by
    have vacant : pending aead.decrypt d (boot.apply initRingBuffer) = 0 :=
      Bag.contents_empty (fun _ bound => held_free aead.decrypt (initRingBuffer_owner boot d bound))
    rw [vacant]
    rfl
  authentic _ := List.not_mem_nil
  sized _ _ shown := absurd shown List.not_mem_nil

theorem Refines.effect {aead : Aead 16} {events emitted : List Event} {shm after : Memory}
    (refines : Refines aead events shm) (effect : Effect aead d shm emitted after) :
    Refines aead (events ++ emitted) after where
  sound := effect.sound refines.sound
  bags e := by
    rw [bagCalls_append, Bag.replay_append, refines.bags e, Option.bind_some]
    exact effect.bag_move refines.sound e
  authentic e member := by
    rcases List.mem_append.mp member with old | new
    · exact refines.authentic e old
    · exact effect.not_forged e new
  sized e message shown := by
    rcases List.mem_append.mp shown with old | new
    · exact refines.sized e message old
    · exact effect.received_length new

theorem Refines.effects {aead : Aead 16} {events emitted : List Event} {shm after : Memory}
    (refines : Refines aead events shm) (effects : Effects aead d shm emitted after) :
    Refines aead (events ++ emitted) after := by
  induction effects with
  | start => simpa only [List.append_nil] using refines
  | next _ last ih => simpa only [List.append_assoc] using ih.effect last

end Aurora
