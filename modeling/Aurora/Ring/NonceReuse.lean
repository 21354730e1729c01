import Aurora.Ring.Calls
import Aurora.Crypto.Standard

/-! The ring under the cipher it really runs. Both code bases write out one key and
one nonce, so every packet uses the same counter stream and the same tag mask:
packets reveal the differences of their messages, and sums of three packets are
packets that nobody sent. -/
namespace Aurora
open Lib Lib.Gcm Crypto

/-- A packet that an observer of the region read from the slot of a successful put,
in either direction, together with the message the put was given. -/
def Captured (packet message : List UInt8) : Prop :=
  ∃ (d : Direction) (within : Bool) (raw : Buffer) (msgLen : Int) (random shm : Memory) (i : Nat),
    (put aes256gcm d within raw msgLen random shm).1 = .stored i message ∧
      packet = (shm.apply (put aes256gcm d within raw msgLen random shm).2).read (d.slot i) pktSize

theorem packet_eq (message : List UInt8) :
    aes256gcm.encrypt key nonce ad message = Gcm.encrypt (Aes.aes256 key) (nonce12 nonce) ad message :=
  sealed_eq key nonce ad message

theorem accept_error {within : Bool} {raw : Buffer} {msgLen : Int} {random : Memory} {outcome : PutOutcome}
    (refused : accept within raw msgLen random = .error outcome) (i : Nat) (message : List UInt8) :
    outcome ≠ .stored i message := by
  unfold accept at refused
  split at refused
  · cases refused
    simp
  split at refused
  · cases refused
    simp
  split at refused
  · cases refused
    simp
  · cases refused

theorem Captured.eq {packet message : List UInt8} (captured : Captured packet message) :
    message.length = msgSize ∧ packet = aes256gcm.encrypt key nonce ad message := by
  obtain ⟨d, within, raw, msgLen, random, shm, i, stored, seen⟩ := captured
  unfold put at stored seen
  cases accepted : accept within raw msgLen random with
  | error outcome =>
    simp only [accepted] at stored
    exact absurd stored (accept_error accepted i message)
  | ok plain =>
    have whole := accept_length accepted
    simp only [accepted] at stored seen
    obtain ⟨_, same⟩ | ⟨j, bound, _, _, same⟩ := putMessage_cases aes256gcm d plain shm
    · simp [same] at stored
    · simp only [same, PutOutcome.stored.injEq] at stored
      obtain ⟨rfl, rfl⟩ := stored
      rw [same] at seen
      exact ⟨whole, seen.trans (stored_slot aes256gcm bound whole)⟩

/-- Any put into a region whose first slot is free is captured there. -/
theorem captured_first (d : Direction) (raw : Buffer) {msgLen : Nat} (random shm : Memory)
    (small : msgLen ≤ msgSize) (free : shm (d.owner 0) = d.sender) :
    Captured (aes256gcm.encrypt key nonce ad (padded raw msgLen random)) (padded raw msgLen random) := by
  refine ⟨d, true, raw, msgLen, random, shm, 0, ?_, ?_⟩
  all_goals simp only [put, accept_within raw random small, putMessage, search_first free]
  exact (stored_slot aes256gcm (by decide) (padded_length small)).symm

/-- The region cleared by its initialisation, the plaintext padded with one byte value. -/
theorem captured_constant (byte : UInt8) : Captured
    (aes256gcm.encrypt key nonce ad (List.replicate msgSize byte)) (List.replicate msgSize byte) := by
  have plain : padded ⟨0, fun _ => 0⟩ 0 (fun _ => byte) = List.replicate msgSize byte := by
    rw [padded]
    exact (List.nil_append _).trans (Memory.read_const fun _ _ => rfl)
  rw [← plain]
  exact captured_first .inbound ⟨0, fun _ => 0⟩ (fun _ => byte) (fun _ => 0) (Nat.zero_le _) rfl

/-- Two captured packets differ where their messages do: one known message gives
every other one without the key. -/
theorem known_message_reveals_others {packet other message secret : List UInt8}
    (known : Captured packet message) (unknown : Captured other secret) :
    secret = xorBytes ((xorBytes packet other).take msgSize) message := by
  obtain ⟨left, rfl⟩ := known.eq
  obtain ⟨right, rfl⟩ := unknown.eq
  have same : message.length = secret.length := left.trans right.symm
  have front : (xorBytes message secret).length = msgSize := by
    rw [xorBytes_length, left, right, Nat.min_self]
  rw [packet_eq, packet_eq, Gcm.encrypt, Gcm.encrypt, xorBytes_append (by simpa using same), gctr_xor _ _ _ same,
    ← front, List.take_left, xorBytes_comm message, xorBytes_self_right (Nat.le_of_eq same.symm)]

theorem known_message_reveals_constant :
    List.replicate msgSize 2 = xorBytes ((xorBytes (aes256gcm.encrypt key nonce ad (List.replicate msgSize 1))
      (aes256gcm.encrypt key nonce ad (List.replicate msgSize 2))).take msgSize) (List.replicate msgSize 1) :=
  known_message_reveals_others (captured_constant 1) (captured_constant 2)

/-- The sum of three captured packets, written by anyone into the first slot of either
ring, is received as the sum of the three messages. An authentic channel would have
refused it. -/
theorem sum_of_packets_received (d : Direction) (shm : Memory)
    {packet1 packet2 packet3 message1 message2 message3 : List UInt8} (first : Captured packet1 message1)
    (second : Captured packet2 message2) (third : Captured packet3 message3)
    (unsent : xor3 message1 message2 message3 ∉ [message1, message2, message3]) :
    let region := shm.apply (slotCopy d 0 (xor3 packet1 packet2 packet3) ++ [flip d 0 d.receiver])
    let log := [message1, message2, message3].map (Aead.Query.mk key nonce ad)
    getMessage aes256gcm.decrypt d region = (.received 0 (xor3 message1 message2 message3), [flip d 0 d.sender]) ∧
      getMessage (aes256gcm.ideal log) d region = (.forged 0, []) := by
  obtain ⟨whole1, rfl⟩ := first.eq
  obtain ⟨whole2, rfl⟩ := second.eq
  obtain ⟨whole3, rfl⟩ := third.eq
  have left := whole1.trans whole2.symm
  have right := whole2.trans whole3.symm
  have sum : xor3 (aes256gcm.encrypt key nonce ad message1) (aes256gcm.encrypt key nonce ad message2)
      (aes256gcm.encrypt key nonce ad message3) =
        aes256gcm.encrypt key nonce ad (xor3 message1 message2 message3) := by
    simp only [packet_eq, encrypt_xor3 _ _ ad left right]
  have whole : (xor3 message1 message2 message3).length = msgSize := (xor3_length left right).trans whole1
  intro region log
  have found : search d d.receiver region = some 0 := by
    apply search_first
    simp only [region, sum]
    exact stored_owner aes256gcm
  have slot : region.read (d.slot 0) pktSize =
      aes256gcm.encrypt key nonce ad (xor3 message1 message2 message3) := by
    simp only [region, sum]
    exact stored_slot aes256gcm (by decide) whole
  have refused : aes256gcm.ideal log key nonce ad
      (aes256gcm.encrypt key nonce ad (xor3 message1 message2 message3)) = none := by
    cases opened : aes256gcm.ideal log key nonce ad _ with
    | none => rfl
    | some message =>
      obtain ⟨member, same⟩ := aes256gcm.ideal_some opened
      rw [aes256gcm.encrypt_inj] at same
      subst same
      simp only [log, List.mem_map, Aead.Query.mk.injEq, true_and, exists_eq_right] at member
      exact absurd member unsent
  constructor
  · simp only [getMessage, found, slot, aes256gcm.decrypt_encrypt]
  · simp only [getMessage, found, slot, refused]

theorem sum_of_packets_received_constant :
    let packet := fun byte => aes256gcm.encrypt key nonce ad (List.replicate msgSize byte)
    (getMessage aes256gcm.decrypt .inbound (Memory.apply (fun _ => 0)
      (slotCopy .inbound 0 (xor3 (packet 1) (packet 2) (packet 4)) ++ [flip .inbound 0 inSgx]))).1 =
        .received 0 (List.replicate msgSize 7) := by
  have sum : xor3 (List.replicate msgSize 1) (List.replicate msgSize 2) (List.replicate msgSize 4) =
      List.replicate msgSize 7 := by
    simp only [xor3, xorBytes, List.zipWith_replicate, Nat.min_self]
    rfl
  have different (byte : UInt8) (other : 7 ≠ byte) : List.replicate msgSize 7 ≠ List.replicate msgSize byte := by
    intro same
    exact other ((List.replicate_inj.mp same).2.resolve_left (by decide))
  have received := (sum_of_packets_received .inbound (fun _ => 0) (captured_constant 1) (captured_constant 2)
    (captured_constant 4) (by simp [sum, different])).1
  rw [sum] at received
  exact congrArg Prod.fst received

end Aurora
