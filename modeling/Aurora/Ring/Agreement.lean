import Aurora.Ring.Footprint

/-! The two enclaves carry their own copies of the ring code. On buffers of the
enclave the copies agree call by call, except where the lwIP copy has lost the
check that the length is not negative. -/
namespace Aurora.Agreement
open Lib Footprint

/-- A buffer of this size at this address lies inside the enclave. -/
def Holds (enclave : Enclave) (addr size : Nat) : Prop :=
  enclave.Inside addr ∧ ∀ k < size, enclave.Inside (addr + k)

theorem Holds.within {enclave : Enclave} {addr size : Nat} (holds : Holds enclave addr size)
    (reach : size ≤ 2 ^ 64) : enclave.sgxIsWithinEnclave addr size = true := by
  have top := enclave.fits
  have room := enclave.room
  obtain ⟨⟨low, high⟩, inside⟩ := holds
  refine (enclave.accepts_iff _ _ reach).mpr ?_
  rw [Nat.mod_eq_of_lt (by omega)]
  by_cases empty : size = 0
  · omega
  · have last := (inside (size - 1) (by omega)).2
    omega

/-- The same code and the same region; `none` is a copy that does not return. -/
def SamePut (shm : Memory) (lwip : Option (PutOutcome × List Store)) (openssh : PutOutcome × List Store) :
    Prop :=
  ∃ result, lwip = some result ∧ result.1.code = openssh.1.code ∧
    shm.apply result.2 = shm.apply openssh.2

/-- The same code, the same region, and on success the same message and length. -/
def SameGet (shm : Memory) (lwip openssh : GetOutcome × Reply × List Store) : Prop :=
  lwip.1.code = openssh.1.code ∧ shm.apply lwip.2.2 = shm.apply openssh.2.2 ∧
    (lwip.1.code = 0 → lwip.2.1.message = openssh.2.1.message ∧
      lwip.2.1.messageLen = openssh.2.1.messageLen)

section Calls
variable {enclave : Enclave} {raw : Buffer} {msgLen : Int} (aead : Aead 16) (random shm : Memory)

theorem put_agrees (holds : Holds enclave raw.addr msgLen.toNat) (positive : 0 ≤ msgLen) :
    SamePut shm (Lwip.putOutBuffer aead raw msgLen random shm)
      (Openssh.putOutBuffer aead enclave raw msgLen random shm) := by
  unfold Lwip.putOutBuffer Openssh.putOutBuffer
  by_cases large : (msgSize : Int) < msgLen
  · rw [if_pos large]
    obtain ⟨_, refusal, code, same⟩ | ⟨accepted, _⟩ := put_exits aead .outbound
      (enclave.sgxIsWithinEnclave raw.addr (sizeT msgLen)) raw msgLen random shm
    · rw [same]
      exact ⟨_, rfl, code.symm, rfl⟩
    · omega
  · have small : msgSize < 2 ^ 64 := by decide
    have count : sizeT msgLen = msgLen.toNat := by
      unfold sizeT
      omega
    have within : enclave.sgxIsWithinEnclave raw.addr (sizeT msgLen) = true := by
      rw [count]
      exact holds.within (by omega)
    rw [if_neg large, if_neg (by omega), within]
    obtain ⟨refused, _⟩ | ⟨_, same⟩ := put_exits aead .outbound true raw msgLen random shm
    · exact absurd ⟨rfl, positive, by omega⟩ refused
    · rw [same]
      exact ⟨_, rfl, rfl, rfl⟩

/-- A negative length is an error in one copy and an endless copy in the other. -/
theorem put_diverges (negative : msgLen < 0) :
    ¬ SamePut shm (Lwip.putOutBuffer aead raw msgLen random shm)
      (Openssh.putOutBuffer aead enclave raw msgLen random shm) := by
  rintro ⟨result, returned, _⟩
  rw [Lwip.putOutBuffer, if_neg (by omega), if_pos negative] at returned
  cases returned

theorem get_agrees {message : Nat} (holds : Holds enclave message msgSize) (reply : Reply)
    (decrypt : Decryption) :
    SameGet shm (Lwip.getInBuffer decrypt reply shm)
      (Openssh.getInBuffer decrypt enclave message reply shm) := by
  unfold Lwip.getInBuffer Openssh.getInBuffer
  rw [holds.within (by decide)]
  exact ⟨rfl, rfl, fun _ => ⟨rfl, rfl⟩⟩

end Calls

/-- For every region, every buffer inside the enclave and the same random bytes
the copies agree exactly on the lengths that are not negative. -/
theorem enclave_rings_agree_iff (aead : Aead 16) (enclave : Enclave) (raw : Buffer) (msgLen : Int)
    (message : Nat) (reply : Reply) (random shm : Memory)
    (rawInside : Holds enclave raw.addr msgLen.toNat) (messageInside : Holds enclave message msgSize) :
    SamePut shm (Lwip.putOutBuffer aead raw msgLen random shm)
        (Openssh.putOutBuffer aead enclave raw msgLen random shm) ∧
      SameGet shm (Lwip.getInBuffer aead.decrypt reply shm)
        (Openssh.getInBuffer aead.decrypt enclave message reply shm) ↔
    0 ≤ msgLen := by
  constructor
  · rintro ⟨same, _⟩
    by_contra negative
    exact put_diverges aead random shm (by omega) same
  · intro positive
    exact ⟨put_agrees aead random shm rawInside positive, get_agrees shm messageInside reply _⟩

theorem sample_holds {size : Nat} (small : size ≤ 0x200000) : Holds .sample 0x10000 size := by
  refine ⟨by decide, fun k bound => ?_⟩
  simp only [Enclave.Inside, Enclave.sample, Enclave.ofRange]
  omega

theorem enclave_rings_agree_iff_hundred :
    SamePut (fun _ => outSgx)
        (Lwip.putOutBuffer (transparent 16) ⟨0x10000, fun _ => 7⟩ 100 (fun _ => 0) fun _ => outSgx)
        (Openssh.putOutBuffer (transparent 16) .sample ⟨0x10000, fun _ => 7⟩ 100 (fun _ => 0)
          fun _ => outSgx) ∧
      SameGet (fun _ => outSgx)
        (Lwip.getInBuffer (transparent 16).decrypt ⟨[], 0⟩ fun _ => outSgx)
        (Openssh.getInBuffer (transparent 16).decrypt .sample 0x10000 ⟨[], 0⟩ fun _ => outSgx) :=
  (enclave_rings_agree_iff (transparent 16) .sample ⟨0x10000, fun _ => 7⟩ 100 0x10000 ⟨[], 0⟩ (fun _ => 0)
    (fun _ => outSgx) (sample_holds (by decide)) (sample_holds (by decide))).mpr (by decide)

/-- One byte less than nothing, from a buffer of the enclave into an empty ring. -/
theorem negative_length_tells_rings_apart :
    Holds .sample 0x10000 (-1 : Int).toNat ∧
    (Openssh.putOutBuffer (transparent 16) .sample ⟨0x10000, fun _ => 7⟩ (-1) (fun _ => 0)
      fun _ => outSgx).1.code = -1 ∧
    ¬ SamePut (fun _ => outSgx)
        (Lwip.putOutBuffer (transparent 16) ⟨0x10000, fun _ => 7⟩ (-1) (fun _ => 0) fun _ => outSgx)
        (Openssh.putOutBuffer (transparent 16) .sample ⟨0x10000, fun _ => 7⟩ (-1) (fun _ => 0)
          fun _ => outSgx) := by
  refine ⟨sample_holds (by decide), ?_, put_diverges _ _ _ (by decide)⟩
  obtain ⟨_, refusal, code, same⟩ | ⟨accepted, _⟩ := put_exits (transparent 16) .outbound
    (Enclave.sample.sgxIsWithinEnclave 0x10000 (sizeT (-1))) ⟨0x10000, fun _ => 7⟩ (-1) (fun _ => 0)
    (fun _ => outSgx)
  · rw [Openssh.putOutBuffer, same]
    exact code
  · omega

end Aurora.Agreement
