import Aurora.Ring.Effects

/-! Complete, non-overlapping ring calls of both parties. -/
namespace Aurora
open Lib

inductive Call where
  | putIn (raw : Buffer) (msgLen : Int) (random : Memory)
  | getOut (message : Nat) (reply : Reply)
  | putOut (raw : Buffer) (msgLen : Int) (random : Memory)
  | getIn (message : Nat) (reply : Reply)

namespace Call

def direction : Call → Direction
  | putIn _ _ _ | getIn _ _ => .inbound
  | getOut _ _ | putOut _ _ _ => .outbound

/-- The decryption is apart from the AEAD so that an ideal one can stand in. -/
def perform (aead : Aead 16) (decrypt : Decryption) (enclave : Enclave) (shm : Memory) :
    Call → Event × List Store
  | putIn raw msgLen random =>
    let result := Network.putInBuffer aead raw msgLen random shm
    (result.1.event .inbound, result.2)
  | getOut message reply =>
    let result := Network.getOutBuffer decrypt message reply shm
    (result.1.event .outbound, result.2.2)
  | putOut raw msgLen random =>
    let result := Openssh.putOutBuffer aead enclave raw msgLen random shm
    (result.1.event .outbound, result.2)
  | getIn message reply =>
    let result := Openssh.getInBuffer decrypt enclave message reply shm
    (result.1.event .inbound, result.2.2)

/-- A call refuses its arguments, or is a put of a whole message or a get on
its direction, whichever party makes it. -/
theorem perform_cases (aead : Aead 16) (decrypt : Decryption) (enclave : Enclave) (shm : Memory)
    (c : Call) :
    c.perform aead decrypt enclave shm = (.refused c.direction, []) ∨
    (∃ message, message.length = msgSize ∧ c.perform aead decrypt enclave shm =
      ((putMessage aead c.direction message shm).1.event c.direction,
        (putMessage aead c.direction message shm).2)) ∨
    c.perform aead decrypt enclave shm =
      ((getMessage decrypt c.direction shm).1.event c.direction,
        (getMessage decrypt c.direction shm).2) := by
  cases c with
  | putIn raw msgLen random | putOut raw msgLen random =>
    simp only [perform, direction, Network.putInBuffer, Openssh.putOutBuffer]
    obtain ⟨outcome, same, refused⟩ | ⟨message, whole, same⟩ :=
      put_cases aead _ _ raw msgLen random shm
    · exact Or.inl (by rw [same, refused])
    · exact Or.inr (Or.inl ⟨message, whole, by rw [same]⟩)
  | getOut message reply | getIn message reply =>
    simp only [perform, direction, Network.getOutBuffer, Openssh.getInBuffer]
    obtain same | same := get_cases decrypt _ _ shm
    · exact Or.inl (by rw [same]; rfl)
    · exact Or.inr (Or.inr (by rw [same]))

theorem perform_effects (aead : Aead 16) (enclave : Enclave) {shm : Memory} (c : Call)
    (sound : Sound aead.decrypt shm) :
    Effects aead c.direction shm [(c.perform aead aead.decrypt enclave shm).1]
      (shm.apply (c.perform aead aead.decrypt enclave shm).2) := by
  obtain same | ⟨message, whole, same⟩ | same := c.perform_cases aead aead.decrypt enclave shm
  · rw [same]
    exact .single .refused
  · rw [same]
    exact putMessage_effects aead c.direction shm whole
  · rw [same]
    exact getMessage_effects aead c.direction shm sound

/-! Every whole message has a caller that puts it, and every ring a caller that
drains it: SMRAM and the enclave have room for a message at their start. -/

def ofPut (enclave : Enclave) (d : Direction) (message : List UInt8) : Call :=
  match d with
  | .inbound => putIn ⟨smramStart, fun k => message.getD k 0⟩ msgSize fun _ => 0
  | .outbound => putOut ⟨enclave.base, fun k => message.getD k 0⟩ msgSize fun _ => 0

def ofGet (enclave : Enclave) : Direction → Call
  | .inbound => getIn enclave.base ⟨[], 0⟩
  | .outbound => getOut smramStart ⟨[], 0⟩

theorem perform_ofPut (aead : Aead 16) (decrypt : Decryption) (enclave : Enclave) (d : Direction)
    (shm : Memory) (whole : message.length = msgSize) :
    (ofPut enclave d message).perform aead decrypt enclave shm =
      ((putMessage aead d message shm).1.event d, (putMessage aead d message shm).2) := by
  have accepted : ∀ addr, accept true ⟨addr, fun k => message.getD k 0⟩ msgSize (fun _ => 0) =
      .ok message := by
    intro addr
    have copied : padded ⟨addr, fun k => message.getD k 0⟩ msgSize (fun _ => 0) = message := by
      simp only [padded, Nat.sub_self, ← whole]
      exact (List.append_nil _).trans (Memory.read_getD message)
    rw [accept_within _ _ (Nat.le_refl _), copied]
  cases d with
  | inbound =>
    have within : isWithinSmram smramStart msgSize = true := by decide
    simp only [ofPut, perform, Network.putInBuffer, put, within, accepted]
  | outbound =>
    have within : enclave.sgxIsWithinEnclave enclave.base (sizeT msgSize) = true :=
      enclave.within_base _ (by decide)
    simp only [ofPut, perform, Openssh.putOutBuffer, put, within, accepted]

theorem perform_ofGet (aead : Aead 16) (decrypt : Decryption) (enclave : Enclave) (d : Direction)
    (shm : Memory) : (ofGet enclave d).perform aead decrypt enclave shm =
      ((getMessage decrypt d shm).1.event d, (getMessage decrypt d shm).2) := by
  cases d with
  | inbound =>
    have within : enclave.sgxIsWithinEnclave enclave.base msgSize = true :=
      enclave.within_base msgSize (by decide)
    simp only [ofGet, perform, Openssh.getInBuffer, get, within, if_pos]
  | outbound =>
    have within : isWithinSmram smramStart msgSize = true := by decide
    simp only [ofGet, perform, Network.getOutBuffer, get, within, if_pos]

end Call

inductive Sequential (aead : Aead 16) (enclave : Enclave) : Memory → List Event → Memory → Prop where
  | call (c : Call) : Sequential aead enclave shm [(c.perform aead aead.decrypt enclave shm).1]
      (shm.apply (c.perform aead aead.decrypt enclave shm).2)

theorem sequential_refines {aead : Aead 16} {enclave : Enclave} {boot shm : Memory}
    {events : List Event} (run : Run (Sequential aead enclave) (boot.apply initRingBuffer) events shm) :
    Refines aead events shm := by
  apply run.invariant (Refines.initial aead boot)
  intro _ _ _ _ refines step
  cases step with
  | call c => exact refines.effects (c.perform_effects aead enclave refines.sound)

end Aurora
