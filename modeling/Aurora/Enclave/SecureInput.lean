import Aurora.Lib.CString
import Aurora.Ring.Calls

/-! The receiving end of trusted input: `ecall_secure_input` of the OpenSSH
enclave, and `_read_passphrase` of the client that called it. -/
namespace Aurora.SecureInput
open Lib

/-- `while (0 == get_in_buffer(recv_msg, &recv_len))`, with the buffer and the
stores of all iterations. -/
def drain (decrypt : Decryption) (within : Bool) : Nat → Reply → Memory → Option (Reply × List Store)
  | 0, _, _ => none
  | fuel + 1, reply, shm =>
    match get decrypt .inbound within shm with
    | (.received i message, stores) =>
      (drain decrypt within fuel (reply.after (.received i message)) (shm.apply stores)).map
        (fun r => (r.1, stores ++ r.2))
    | (outcome, stores) => some (reply.after outcome, stores)

/-- `recv_msg[PKT_SIZE]`, zeroed: a get writes at most its first `MSG_SIZE`
bytes. What follows it on the stack is not the enclave's message. -/
def recvMsg (message : List UInt8) (beyond : Memory) : Memory := fun k =>
  if k < msgSize then message.getD k 0 else if k < pktSize then 0 else beyond k

def cleared : Reply := ⟨List.replicate msgSize 0, 0⟩

/-- `min_len`, an `int`: the smaller of the text's length and the limit. -/
def minLen (recv : Memory) (maxLength : Int) : Int :=
  let length := strlen (recv.read 0 pktSize)
  if maxLength < length then maxLength else length

/-- `memcpy(pass, recv_msg, min_len)`, at offsets from `pass`. -/
def copyOut (recv : Memory) (maxLength : Int) : List Store :=
  blit 0 (recv.read 0 (sizeT (minLen recv maxLength)))

/-- `_read_passphrase` on the 1024 bytes the enclave filled. `none`: `strlen(pass)`
runs past the array, or is 0 and `memcpy` is asked for `SIZE_MAX` bytes. -/
def readPassphrase (pass : List UInt8) : Option (List UInt8) :=
  let length := strlen pass
  if length = pass.length ∨ length = 0 then none
  else
    let buf := pass.take (length - 1) ++ List.replicate (1024 - (length - 1)) 0
    some (cString buf)

/-- The enclave's part: drain the ring, then fill the caller's zeroed array. -/
def secureInput (decrypt : Decryption) (fuel : Nat) (shm beyond : Memory) : Option (List UInt8) :=
  (drain decrypt true fuel cleared shm).map fun r =>
    (Memory.apply (fun _ => 0) (copyOut (recvMsg r.1.message beyond) 1024)).read 0 1024

theorem recvMsg_tail (message : List UInt8) (beyond : Memory) :
    (recvMsg message beyond).read 0 pktSize =
      (recvMsg message beyond).read 0 msgSize ++ 0 :: List.replicate 15 0 := by
  have split : pktSize = msgSize + 16 := rfl
  have tail : (recvMsg message beyond).read msgSize 16 = Memory.read (fun _ => 0) 0 16 := by
    refine Memory.read_congr fun k bound => ?_
    exact (if_neg (by omega)).trans (if_pos (by rw [split]; omega))
  rw [split, Memory.read_append, Nat.zero_add, tail]
  rfl

/-- The end of `recv_msg` stays zero, so the text fits in front of it. -/
theorem recvMsg_strlen (message : List UInt8) (beyond : Memory) :
    strlen ((recvMsg message beyond).read 0 pktSize) ≤ msgSize := by
  rw [recvMsg_tail, strlen, cString_append_zero]
  have bound := (cString_starts ((recvMsg message beyond).read 0 msgSize)).length_le
  rwa [Memory.read_length] at bound

theorem recvMsg_read (whole : message.length = msgSize) (beyond : Memory) :
    (recvMsg message beyond).read 0 pktSize = message ++ 0 :: List.replicate 15 0 := by
  have text : (recvMsg message beyond).read 0 msgSize = Memory.read (fun k => message.getD k 0) 0 msgSize :=
    Memory.read_congr fun k bound => by
      rw [Nat.zero_add]
      exact if_pos bound
  rw [recvMsg_tail, text, ← whole, Memory.read_getD]

/-- The string of the message, cut to the limit. -/
theorem copyOut_eq (whole : message.length = msgSize) (beyond : Memory) (limit : Nat) :
    copyOut (recvMsg message beyond) limit = blit 0 ((cString message).take limit) := by
  have recv := recvMsg_read whole beyond
  have short : (cString message).length ≤ msgSize := whole ▸ (cString_starts message).length_le
  have room : msgSize ≤ pktSize := by decide
  have count : sizeT (minLen (recvMsg message beyond) limit) = min limit (cString message).length := by
    have small : msgSize < 2 ^ 64 := by decide
    rw [minLen, recv, strlen, cString_append_zero]
    split
    · rw [sizeT_natCast (by omega)]
      omega
    · rw [sizeT_natCast (by omega)]
      omega
  have taken : message.take (min limit (cString message).length) = (cString message).take limit := by
    have before := cString_starts message
    generalize cString message = text at before ⊢
    obtain ⟨rest, rfl⟩ := before
    rw [List.take_append_of_le_length (Nat.min_le_right _ _), ← List.take_eq_take_min]
  rw [copyOut, count, ← Memory.read_take _ (show min limit (cString message).length ≤ pktSize by omega),
    recv, List.take_append_of_le_length (by omega), taken]

/-- What the client's array holds after the call. -/
theorem pass_eq (whole : message.length = msgSize) (beyond : Memory) :
    (Memory.apply (fun _ => 0) (copyOut (recvMsg message beyond) (1024 : Nat))).read 0 1024 =
      (cString message).take 1024 ++ List.replicate (1024 - ((cString message).take 1024).length) 0 := by
  rw [copyOut_eq whole]
  exact Memory.read_blit_zeroed (List.length_take_le _ _)

/-- A text shorter than the array loses its last character, and nothing else. -/
theorem readPassphrase_eq {text : List UInt8} (nonzero : ∀ byte ∈ text, byte ≠ 0)
    (short : text.length < 1024) :
    readPassphrase (text ++ List.replicate (1024 - text.length) 0) =
      if text = [] then none else some text.dropLast := by
  have padding : List.replicate (1024 - text.length) (0 : UInt8) =
      0 :: List.replicate (1024 - text.length - 1) 0 := by
    rw [← List.replicate_succ]
    congr 1
    omega
  have length : strlen (text ++ List.replicate (1024 - text.length) 0) = text.length := by
    rw [padding, strlen, cString_append_zero, cString_eq_self nonzero]
  have size : (text ++ List.replicate (1024 - text.length) 0).length = 1024 := by
    simp only [List.length_append, List.length_replicate]
    omega
  unfold readPassphrase
  simp only [length, size]
  by_cases empty : text = []
  · rw [if_pos empty, if_pos (Or.inr (by simp [empty]))]
  · have positive : text.length ≠ 0 := by simpa using empty
    rw [if_neg empty, if_neg (by omega), Option.some.injEq]
    rw [List.take_append_of_le_length (by omega), ← List.dropLast_eq_take]
    obtain ⟨more, same⟩ : ∃ more, 1024 - (text.length - 1) = more + 1 := ⟨1024 - text.length, by omega⟩
    rw [same, List.replicate_succ, cString_append_zero]
    exact cString_eq_self fun byte member => nonzero byte (List.dropLast_subset _ member)

end Aurora.SecureInput
