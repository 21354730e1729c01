import Aurora.TrustedInput
import Aurora.Smm.Interception

/-! What the messages of SMM depend on. Both callers of `put_in_buffer` pass a
constant length that has nothing to do with how much they captured, so the put
copies whatever SMRAM holds behind the captured data as well, and the enclave
can read it. -/
namespace Aurora.Leakage
open Lib Smm

/-- What a put encrypted, whether or not it then found a slot. -/
def encrypted : PutOutcome → Option (List UInt8)
  | .full message | .stored _ message => some message
  | .outside | .negative | .tooLarge => none

theorem encrypted_put (aead : Aead 16) (d : Direction) (within : Bool) (raw : Buffer) (msgLen : Int)
    (random shm : Memory) : encrypted (put aead d within raw msgLen random shm).1 =
      (accept within raw msgLen random).toOption := by
  unfold put accept
  split_ifs
  · rfl
  · rfl
  · rfl
  · dsimp only
    obtain ⟨_, same⟩ | ⟨i, _, _, _, same⟩ :=
      putMessage_cases aead d (padded raw msgLen.toNat random) shm
    · rw [same]
      rfl
    · rw [same]
      rfl

/-- The plaintext the keyboard supervisor makes of its buffer. -/
def textMessage (aead : Aead 16) (smi : Keyboard.Smi) (s : Keyboard.State) : Option (List UInt8) :=
  encrypted (Aurora.Keyboard.putInBuffer aead (s.text smi) 4080 smi.random
    (region smi.memory s.shmemBase)).1

/-- One call of the dispatcher. -/
structure Round where
  shmemBase : Nat
  stack : Network.Stack
  i : Nat
  memory : Memory
  rxs : Nat

namespace Round

/-- The plaintext the dispatcher makes of the packet. -/
def message (aead : Aead 16) (r : Round) : Option (List UInt8) :=
  encrypted (Network.putPacket aead r.shmemBase r.stack r.i r.memory r.rxs).1

def msgLength (r : Round) : Nat := Network.rxMsgLength r.memory r.rxs

/-- The same packet was received, and the random source returns the same bytes. -/
structure Agree (r t : Round) : Prop where
  length : r.msgLength = t.msgLength
  frame : ∀ k < r.msgLength, Network.frame r.memory r.rxs k = Network.frame t.memory t.rxs k
  random : (r.stack.random r.i).read 0 (msgSize - 4032) = (t.stack.random t.i).read 0 (msgSize - 4032)

end Round

section Text
variable (aead : Aead 16) {smi other : Keyboard.Smi} {s t : Keyboard.State}

theorem textMessage_eq (smi : Keyboard.Smi) (s : Keyboard.State) :
    textMessage aead smi s = some (padded (s.text smi) 4080 smi.random) := by
  rw [textMessage, Aurora.Keyboard.putInBuffer, encrypted_put, Keyboard.accept_text]
  rfl

/-- With the same buffer, the messages are the same exactly if the 3824 bytes
behind it are. -/
theorem textMessage_eq_iff (same : s.kbdBuffer = t.kbdBuffer) :
    textMessage aead smi s = textMessage aead other t ↔
      ∀ k, 256 ≤ k → k < 4080 → smi.beyond k = other.beyond k := by
  rw [textMessage_eq, textMessage_eq, Option.some_inj, padded_inj, Memory.read_eq_iff]
  simp only [Keyboard.State.text, Nat.zero_add, same]
  constructor
  · rintro ⟨bytes, _⟩ k past bound
    simpa only [if_neg (Nat.not_lt.mpr past)] using bytes k bound
  · intro agree
    refine ⟨fun k bound => ?_, rfl⟩
    split
    · rfl
    · rename_i past
      exact agree k (Nat.not_lt.mp past) bound

end Text

section Packet
variable {aead : Aead 16} {r t : Round}

theorem Round.message_within (aead : Aead 16) (r : Round)
    (within : isWithinSmram r.stack.smmTmpBuf 4032 = true) :
    r.message aead = some (padded ⟨r.stack.smmTmpBuf, Network.packet r.memory r.rxs
      (r.stack.residual r.i)⟩ 4032 (r.stack.random r.i)) := by
  rw [message, Network.putPacket, Aurora.Network.putInBuffer, encrypted_put, within,
    Network.accept_packet]
  rfl

theorem Round.message_some (sent : r.message aead = some p) :
    p = padded ⟨r.stack.smmTmpBuf, Network.packet r.memory r.rxs (r.stack.residual r.i)⟩ 4032
      (r.stack.random r.i) := by
  cases within : isWithinSmram r.stack.smmTmpBuf 4032 with
  | false =>
    rw [message, Network.putPacket, Aurora.Network.putInBuffer, encrypted_put, within, accept,
      if_pos rfl] at sent
    cases sent
  | true => exact Option.some.inj (sent.symm.trans (r.message_within aead within))

theorem Round.ulen_eq (long : 14 ≤ r.msgLength) (short : r.msgLength ≤ 1610) :
    4 + Network.ulen r.memory r.rxs = r.msgLength - 10 := by
  simp only [Network.ulen, Network.etherHeader, msgLength] at *
  omega

/-- With the same packet, the messages are the same exactly if the stack held
the same bytes behind it, up to the constant length of the put. -/
theorem Round.message_eq_iff (agree : r.Agree t) (long : 14 ≤ r.msgLength) (short : r.msgLength ≤ 1610)
    (sent : r.message aead = some p) (other : t.message aead = some q) :
    p = q ↔ ∀ k, r.msgLength - 10 ≤ k → k < 4032 →
      r.stack.residual r.i k = t.stack.residual t.i k := by
  have left := ulen_eq long short
  have right := ulen_eq (agree.length ▸ long) (agree.length ▸ short)
  have length : Network.ulen r.memory r.rxs = Network.ulen t.memory t.rxs := by
    rw [← agree.length] at right
    omega
  rw [message_some sent, message_some other, padded_inj, Memory.read_eq_iff,
    and_iff_left agree.random]
  simp only [Nat.zero_add, Network.packet, ← length, left]
  constructor
  · intro bytes k past bound
    have same := bytes k bound
    rw [if_neg (by omega), if_neg (by omega), if_neg (by omega), if_neg (by omega)] at same
    exact same
  · intro residual k bound
    by_cases header : k < 4
    · rw [if_pos header, if_pos header]
    rw [if_neg header, if_neg header]
    by_cases inside : k < r.msgLength - 10
    · rw [if_pos inside, if_pos inside]
      apply agree.frame
      simp only [Network.etherHeader]
      omega
    · rw [if_neg inside, if_neg inside]
      exact residual k (by omega) bound

end Packet

/-- The messages of SMM show exactly the captured data and what SMRAM holds
behind it: for two states with the same captured data and the same random bytes,
the plaintexts agree exactly if the 3824 bytes behind `kbd_buffer` do, and for a
packet exactly if the bytes from its end to offset 4032 of `smm_tmp_buf` do. -/
theorem messages_equal_iff (aead : Aead 16) :
    (∀ (s t : Keyboard.State) (smi other : Keyboard.Smi), s.kbdBuffer = t.kbdBuffer →
      (textMessage aead smi s = textMessage aead other t ↔
        ∀ k, 256 ≤ k → k < 4080 → smi.beyond k = other.beyond k)) ∧
    ∀ (r t : Round) (p q : List UInt8), r.Agree t → 14 ≤ r.msgLength → r.msgLength ≤ 1610 →
      r.message aead = some p → t.message aead = some q →
      (p = q ↔ ∀ k, r.msgLength - 10 ≤ k → k < 4032 →
        r.stack.residual r.i k = t.stack.residual t.i k) := by
  refine ⟨fun s t smi other same => textMessage_eq_iff aead same, ?_⟩
  intro r t p q agree long short sent other
  exact r.message_eq_iff agree long short sent other

/-- A marked frame of 60 bytes, with this on the stack of the dispatcher. -/
def sampleRound (residual : Memory) : Round :=
  ⟨0x1000000, ⟨smramStart, fun _ => residual, fun _ _ => 0⟩, 0, Network.oneFrame 60 inSmm, 0x2000⟩

theorem sampleRound_length (residual : Memory) : (sampleRound residual).msgLength = 60 := by
  have length : Network.rxMsgLength (Network.oneFrame 60 inSmm) 0x2000 = 60 := by decide
  exact length

theorem sampleRound_agree (first second : Memory) : (sampleRound first).Agree (sampleRound second) :=
  ⟨rfl, fun _ _ => rfl, rfl⟩

/-- Two states that differ in one kind of byte each, all of them behind the
captured data: the enclave is sent different messages. -/
theorem smram_shows_in_messages :
    textMessage (transparent 16) (TrustedInput.keystroke 0x9c) TrustedInput.armedState ≠
      textMessage (transparent 16) { TrustedInput.keystroke 0x9c with beyond := fun _ => 1 }
        TrustedInput.armedState ∧
    (sampleRound fun _ => 0).Agree (sampleRound fun _ => 1) ∧
    (sampleRound fun _ => 0).message (transparent 16) ≠
      (sampleRound fun _ => 1).message (transparent 16) := by
  refine ⟨fun same => ?_, sampleRound_agree _ _, fun same => ?_⟩
  · have agree := (textMessage_eq_iff (transparent 16) rfl).mp same
    exact absurd (agree 256 (by decide) (by decide)) (by decide)
  · have within : isWithinSmram smramStart 4032 = true := by decide
    have sent := (sampleRound fun _ => 0).message_within (transparent 16) within
    have length := sampleRound_length fun _ => 0
    have agree := (Round.message_eq_iff (sampleRound_agree _ _) (by omega) (by omega) sent
      (same ▸ sent)).mp rfl
    exact absurd (agree 100 (by omega) (by decide)) (by decide)

/-- States that differ in what the captured data overwrites anyway: the messages
are the same. -/
theorem messages_equal_iff_overwritten :
    textMessage (transparent 16) (TrustedInput.keystroke 0x9c) TrustedInput.armedState =
      textMessage (transparent 16) { TrustedInput.keystroke 0x9c with
        beyond := fun k => if k < 256 then 1 else 0 } TrustedInput.armedState ∧
    ∀ p q, (sampleRound fun _ => 0).message (transparent 16) = some p →
      (sampleRound fun k => if k < 50 then 1 else 0).message (transparent 16) = some q → p = q := by
  obtain ⟨text, packet⟩ := messages_equal_iff (transparent 16)
  have length := sampleRound_length fun _ => 0
  refine ⟨(text _ _ _ _ rfl).mpr fun k past _ => ?_, fun p q sent other => ?_⟩
  · exact (if_neg (Nat.not_lt.mpr past)).symm
  · refine (packet _ _ p q (sampleRound_agree _ _) (by omega) (by omega) sent other).mpr ?_
    intro k past _
    exact (if_neg (by omega)).symm

end Aurora.Leakage
