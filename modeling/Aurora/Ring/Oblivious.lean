import Aurora.Ring.Integrity

/-! Data obliviousness: whether a repeated message can be recognised in the
shared region. Key and nonce are constant, so a packet shows exactly what its
plaintext shows, and only the random padding keeps two equal messages apart. -/
namespace Aurora.Oblivious
open Lib Integrity

/-- The put of each build, under one signature; `none` is a call whose copy
runs away. -/
def putBuffer (aead : Aead 16) (enclave : Enclave) (build : Build) (raw : Buffer) (msgLen : Int)
    (random shm : Memory) : Option (PutOutcome × List Store) :=
  match build with
  | .network => some (Network.putInBuffer aead raw msgLen random shm)
  | .keyboard => some (Keyboard.putInBuffer aead raw msgLen random shm)
  | .openssh => some (Openssh.putOutBuffer aead enclave raw msgLen random shm)
  | .lwip => Lwip.putOutBuffer aead raw msgLen random shm

section Stored
variable {aead : Aead 16} {enclave : Enclave} {raw : Buffer} {msgLen : Int} {random shm : Memory}
  {stores : List Store}

theorem putMessage_stored {d : Direction}
    (result : putMessage aead d message shm = (.stored i sent, stores)) :
    sent = message ∧ i < maxEntry ∧
      stores = slotCopy d i (aead.encrypt key nonce ad message) ++ [flip d i d.receiver] := by
  obtain ⟨_, full⟩ | ⟨j, bound, _, _, stored⟩ := putMessage_cases aead d message shm
  · rw [full] at result
    cases result
  · rw [stored] at result
    cases result
    exact ⟨rfl, bound, rfl⟩

theorem put_stored {d : Direction} {within : Bool}
    (result : put aead d within raw msgLen random shm = (.stored i sent, stores)) :
    0 ≤ msgLen ∧ msgLen ≤ msgSize ∧
      putMessage aead d (padded raw msgLen.toNat random) shm = (.stored i sent, stores) := by
  unfold put accept at result
  split_ifs at result with outside negative large
  · cases result
  · cases result
  · cases result
  · exact ⟨Int.not_lt.mp negative, Int.not_lt.mp large, result⟩

/-- Every put that returns 0 took at most `MSG_SIZE` bytes and is the common
body on the padded message. -/
theorem putBuffer_stored {build : Build}
    (result : putBuffer aead enclave build raw msgLen random shm = some (.stored i sent, stores)) :
    0 ≤ msgLen ∧ msgLen ≤ msgSize ∧ putMessage aead build.sends (padded raw msgLen.toNat random) shm =
      (.stored i sent, stores) := by
  cases build with
  | network => exact put_stored (Option.some.inj result)
  | keyboard => exact put_stored (Option.some.inj result)
  | openssh => exact put_stored (Option.some.inj result)
  | lwip =>
    simp only [putBuffer, Lwip.putOutBuffer] at result
    split at result
    · cases result
    split at result
    · cases result
    exact ⟨by omega, by omega, Option.some.inj result⟩

/-- The slot a successful put fills ends up with the encryption of the padded
message. -/
theorem putBuffer_slot {build : Build}
    (result : putBuffer aead enclave build raw msgLen random shm = some (.stored i sent, stores)) :
    (shm.apply stores).read (build.sends.slot i) pktSize =
      aead.encrypt key nonce ad (padded raw msgLen.toNat random) := by
  obtain ⟨lower, upper, body⟩ := putBuffer_stored result
  obtain ⟨_, bound, rfl⟩ := putMessage_stored body
  exact stored_slot aead bound (padded_length (by omega))

end Stored

section Repeated
variable (aead : Aead 16) (enclave : Enclave) {build again : Build} {first second : Buffer}
  {msgLen : Int} {random other shm later : Memory} {stores more : List Store}

/-- Two successful puts of one message leave the same slot content exactly if
the source padded them with the same bytes. -/
theorem slots_eq_iff
    (once : putBuffer aead enclave build first msgLen random shm = some (.stored i sent, stores))
    (twice : putBuffer aead enclave again second msgLen other later = some (.stored j resent, more))
    (same : first.byte.read 0 msgLen.toNat = second.byte.read 0 msgLen.toNat) :
    (shm.apply stores).read (build.sends.slot i) pktSize =
        (later.apply more).read (again.sends.slot j) pktSize ↔
      random.read 0 (msgSize - msgLen.toNat) = other.read 0 (msgSize - msgLen.toNat) := by
  rw [putBuffer_slot once, putBuffer_slot twice, aead.encrypt_inj, padded_inj]
  exact and_iff_right same

/-- Two successful puts of one message, for which the source returned different
bytes, leave different slot contents exactly if the message was shorter than
`MSG_SIZE`: at full length nothing is padded and the packet repeats itself. -/
theorem repeated_message_differs_iff
    (once : putBuffer aead enclave build first msgLen random shm = some (.stored i sent, stores))
    (twice : putBuffer aead enclave again second msgLen other later = some (.stored j resent, more))
    (same : first.byte.read 0 msgLen.toNat = second.byte.read 0 msgLen.toNat)
    (fresh : msgLen < msgSize →
      random.read 0 (msgSize - msgLen.toNat) ≠ other.read 0 (msgSize - msgLen.toNat)) :
    (shm.apply stores).read (build.sends.slot i) pktSize ≠
        (later.apply more).read (again.sends.slot j) pktSize ↔ msgLen < msgSize := by
  have upper := (putBuffer_stored once).2.1
  rw [Ne, slots_eq_iff aead enclave once twice same]
  constructor
  · intro differ
    rcases Int.lt_or_eq_of_le upper with short | rfl
    · exact short
    · -- No byte is drawn, so no draw can differ.
      exact absurd rfl differ
  · exact fresh

end Repeated

section Samples
variable (aead : Aead 16) (enclave : Enclave) (raw : Buffer) {msgLen : Nat} (random shm : Memory)

theorem keyboard_put {shm : Memory} (small : msgLen ≤ msgSize)
    (found : search .inbound inSmm shm = some i) :
    putBuffer aead enclave .keyboard raw msgLen random shm =
      some (.stored i (padded raw msgLen random),
        slotCopy .inbound i (aead.encrypt key nonce ad (padded raw msgLen random)) ++
          [flip .inbound i inSgx]) := by
  simp only [putBuffer, Keyboard.putInBuffer, put, accept_within raw random small, putMessage,
    Direction.sender, Direction.receiver, found]

theorem search_second {message : List UInt8} (whole : message.length = msgSize)
    (free : shm (Direction.inbound.owner 1) = inSmm) :
    search .inbound inSmm (shm.apply (slotCopy .inbound 0 (aead.encrypt key nonce ad message) ++
      [flip .inbound 0 inSgx])) = some 1 := by
  refine search_some.mpr ⟨by decide, ?_, fun j below => ?_⟩
  · have apart : Apart .inbound 0 shm _ := stored_apart aead (by decide) whole
    exact (apart .inbound 1 (by decide) (by decide)).1.trans free
  · obtain rfl : j = 0 := by omega
    exact (stored_owner (d := .inbound) aead).trans_ne (by decide)

end Samples

/-- The keyboard firmware always passes `MSG_SIZE` as the length: the same
buffer put twice in a row fills two slots with the same 4096 bytes, although the
source would have returned ones to the first call and twos to the second. -/
theorem full_length_repeats : ∃ sent stores more,
    putBuffer (transparent 16) .sample .keyboard
      ⟨0, fun _ => 0x61⟩ 4080 (fun _ => 1) (fun _ => 0) = some (.stored 0 sent, stores) ∧
    putBuffer (transparent 16) .sample .keyboard
      ⟨0, fun _ => 0x61⟩ 4080 (fun _ => 2) (Memory.apply (fun _ => 0) stores) =
        some (.stored 1 sent, more) ∧
    (Memory.apply (fun _ => 0) stores).read (Direction.inbound.slot 0) pktSize =
      ((Memory.apply (fun _ => 0) stores).apply more).read (Direction.inbound.slot 1) pktSize := by
  let enclave : Enclave := .sample
  have small : 4080 ≤ msgSize := by decide
  -- Nothing is drawn, so both calls encrypt the same plaintext.
  have same : padded ⟨0, fun _ => 0x61⟩ 4080 (fun _ => 2) =
      padded ⟨0, fun _ => 0x61⟩ 4080 (fun _ => 1) := padded_inj.mpr ⟨rfl, rfl⟩
  have whole : (padded ⟨0, fun _ => 0x61⟩ 4080 (fun _ => 1)).length = msgSize := padded_length small
  have found : search .inbound inSmm (fun _ => 0) = some 0 := search_first rfl
  have once := keyboard_put (transparent 16) enclave ⟨0, fun _ => 0x61⟩ (fun _ => 1) small
    found
  have twice := keyboard_put (transparent 16) enclave ⟨0, fun _ => 0x61⟩ (fun _ => 2) small
    (search_second (transparent 16) (fun _ => 0) whole rfl)
  rw [same] at twice
  exact ⟨_, _, _, once, twice, (slots_eq_iff _ enclave once twice rfl).mpr rfl⟩

theorem repeated_message_differs_iff_five_bytes : ∃ sent resent stores more,
    putBuffer (transparent 16) .sample .keyboard
      ⟨0, fun _ => 0x61⟩ 5 (fun _ => 1) (fun _ => 0) = some (.stored 0 sent, stores) ∧
    putBuffer (transparent 16) .sample .keyboard
      ⟨0, fun _ => 0x61⟩ 5 (fun _ => 2) (fun _ => 0) = some (.stored 0 resent, more) ∧
    (Memory.apply (fun _ => 0) stores).read (Direction.inbound.slot 0) pktSize ≠
      (Memory.apply (fun _ => 0) more).read (Direction.inbound.slot 0) pktSize := by
  have small : 5 ≤ msgSize := by decide
  have found : search .inbound inSmm (fun _ => 0) = some 0 := search_first rfl
  have once := keyboard_put (transparent 16) .sample
    ⟨0, fun _ => 0x61⟩ (fun _ => 1) small found
  have twice := keyboard_put (transparent 16) .sample
    ⟨0, fun _ => 0x61⟩ (fun _ => 2) small found
  refine ⟨_, _, _, _, once, twice, ?_⟩
  refine (repeated_message_differs_iff _ _ once twice rfl ?_).mpr (by decide)
  intro _ same
  exact absurd (Memory.read_inj same (show 0 < 4075 by decide)) (by decide)

end Aurora.Oblivious
