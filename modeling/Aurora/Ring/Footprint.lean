import Aurora.Ring.Calls

/-! When a put succeeds and what it leaves behind, for every content of the
region: the condition for success is exact, a refused call changes nothing, and
an accepted one changes the first free slot and its ownership byte alone. -/
namespace Aurora.Footprint
open Lib

section Stores
variable {d : Direction} {i : Nat} {shm : Memory}

/-- Outside the slot and its ownership byte a successful put changes nothing. -/
theorem stored_frame (aead : Aead 16) (whole : message.length = msgSize) {a : Nat}
    (other : a ≠ d.owner i) (outside : a < d.slot i ∨ d.slot i + pktSize ≤ a) :
    shm.apply (slotCopy d i (aead.encrypt key nonce ad message) ++ [flip d i d.receiver]) a = shm a := by
  refine shm.apply_frame fun s member => ?_
  rcases List.mem_append.mp member with copied | flipped
  · have inside := mem_blit copied
    rw [packet_length aead whole] at inside
    omega
  · cases List.mem_singleton.mp flipped
    exact Ne.symm other

end Stores

/-- The four exits of a put before the scan, and the two after it. -/
theorem put_exits (aead : Aead 16) (d : Direction) (within : Bool) (raw : Buffer) (msgLen : Int)
    (random shm : Memory) :
    (¬ (within = true ∧ 0 ≤ msgLen ∧ msgLen ≤ msgSize) ∧
      ∃ refusal : PutOutcome, refusal.code = -1 ∧
        put aead d within raw msgLen random shm = (refusal, [])) ∨
    ((within = true ∧ 0 ≤ msgLen ∧ msgLen ≤ msgSize) ∧
      put aead d within raw msgLen random shm =
        putMessage aead d (padded raw msgLen.toNat random) shm) := by
  unfold put accept
  by_cases inside : within = true
  · rw [if_neg (by simp [inside])]
    by_cases negative : msgLen < 0
    · rw [if_pos negative]
      exact Or.inl ⟨by omega, .negative, rfl, rfl⟩
    · rw [if_neg negative]
      by_cases large : (msgSize : Int) < msgLen
      · rw [if_pos large]
        exact Or.inl ⟨by omega, .tooLarge, rfl, rfl⟩
      · rw [if_neg large]
        exact Or.inr ⟨⟨inside, by omega, by omega⟩, rfl⟩
  · rw [if_pos (by simpa using inside)]
    exact Or.inl ⟨fun accepted => inside accepted.1, .outside, rfl, rfl⟩

/-- What a caller of a put can rely on, in terms of the region alone: where the
ownership bytes and the slots are, and which values mark a free slot and a taken
one. -/
structure Exact (aead : Aead 16) (owner slot : Nat → Nat) (free taken : UInt8) (within : Bool) (raw : Buffer)
    (msgLen : Int) (shm : Memory) (result : PutOutcome × List Store) : Prop where
  codes : result.1.code = 0 ∨ result.1.code = -1
  success : result.1.code = 0 ↔
    within = true ∧ 0 ≤ msgLen ∧ msgLen ≤ 4080 ∧ ∃ i < 64, shm (owner i) = free
  refused : result.1.code = -1 → ∀ a, shm.apply result.2 a = shm a
  stored : result.1.code = 0 → ∃ i < 64, shm (owner i) = free ∧ (∀ j < i, shm (owner j) ≠ free) ∧
    shm.apply result.2 (owner i) = taken ∧
    (∀ a, a ≠ owner i → a < slot i ∨ slot i + 4096 ≤ a → shm.apply result.2 a = shm a) ∧
    ∃ message, aead.decrypt key nonce ad ((shm.apply result.2).read (slot i) 4096) = some message ∧
      message.length = 4080 ∧ message.take msgLen.toNat = raw.byte.read 0 msgLen.toNat

/-- The law for both directions. -/
theorem put_exact (aead : Aead 16) (d : Direction) (within : Bool) (raw : Buffer) (msgLen : Int)
    (random shm : Memory) :
    Exact aead d.owner d.slot d.sender d.receiver within raw msgLen shm
      (put aead d within raw msgLen random shm) := by
  obtain ⟨refused, outcome, code, same⟩ | ⟨accepted, same⟩ :=
    put_exits aead d within raw msgLen random shm
  · rw [same]
    have failed : outcome.code ≠ 0 := by rw [code]; decide
    refine ⟨Or.inr code, ⟨fun ok => absurd ok failed, fun ok => ?_⟩, fun _ _ => rfl,
      fun ok => absurd ok failed⟩
    exact absurd ⟨ok.1, ok.2.1, ok.2.2.1⟩ refused
  rw [same]
  have small : msgLen.toNat ≤ msgSize := by omega
  have whole : (padded raw msgLen.toNat random).length = msgSize := padded_length small
  obtain ⟨occupied, full⟩ | ⟨i, bound, free, least, stored⟩ :=
    putMessage_cases aead d (padded raw msgLen.toNat random) shm
  · have failed : (PutOutcome.full (padded raw msgLen.toNat random)).code ≠ 0 := by
      simp [PutOutcome.code]
    rw [full]
    refine ⟨Or.inr rfl, ⟨fun ok => absurd ok failed, ?_⟩, fun _ _ => rfl, fun ok => absurd ok failed⟩
    rintro ⟨_, _, _, i, bound, free⟩
    exact absurd free (occupied i bound)
  · have succeeded : (PutOutcome.stored i (padded raw msgLen.toNat random)).code ≠ -1 := by
      simp [PutOutcome.code]
    rw [stored]
    refine ⟨Or.inl rfl, ⟨fun _ => ⟨accepted.1, accepted.2.1, accepted.2.2, i, bound, free⟩, fun _ => rfl⟩,
      fun failed => absurd failed succeeded, fun _ => ⟨i, bound, free, least, stored_owner aead, ?_, ?_⟩⟩
    · exact fun a other outside => stored_frame aead whole other outside
    · refine ⟨padded raw msgLen.toNat random, ?_, whole, ?_⟩
      · exact (congrArg _ (stored_slot aead bound whole)).trans aead.decrypt_encrypt
      · rw [padded, List.take_left' (Memory.read_length _ _ _)]

/-- `put_in_buffer` of the network firmware and `put_out_buffer` of the OpenSSH
enclave, with the positions of their ownership bytes and slots written out. -/
theorem put_success_and_footprint (aead : Aead 16) (enclave : Enclave) (raw : Buffer) (msgLen : Int)
    (random shm : Memory) :
    Exact aead (fun i => i) (fun i => 4096 * (65 + i)) inSmm inSgx (isWithinSmram raw.addr msgLen) raw msgLen shm
      (Network.putInBuffer aead raw msgLen random shm) ∧
    Exact aead (fun i => 64 + i) (fun i => 4096 * (1 + i)) outSgx outSmm
      (enclave.sgxIsWithinEnclave raw.addr (sizeT msgLen)) raw msgLen shm
      (Openssh.putOutBuffer aead enclave raw msgLen random shm) := by
  have inSlots : Direction.inbound.slot = fun i => 4096 * (65 + i) := by
    funext i
    simp only [Direction.slot, pktSize, maxEntry]
    omega
  have outSlots : Direction.outbound.slot = fun i => 4096 * (1 + i) := by
    funext i
    simp only [Direction.slot, pktSize]
    omega
  rw [← inSlots, ← outSlots]
  exact ⟨put_exact aead .inbound _ raw msgLen random shm, put_exact aead .outbound _ raw msgLen random shm⟩

/-- `is_within_smram` on machine integers: it accepts the buffers that lie in
SMRAM over the integers and no others, so no buffer that wraps, and what a put
reads after its three argument checks is SMRAM. -/
theorem isWithinSmram_exact (a : UInt32) (size : Int32) :
    (isWithinSmram a.toNat size.toInt = true ↔
      0xa0000 ≤ a.toNat ∧ (a.toNat : Int) + max size.toInt 1 - 1 ≤ 0xaffff) ∧
    ((2 ^ 32 : Int) < a.toNat + size.toInt → isWithinSmram a.toNat size.toInt = false) ∧
    ∀ (aead : Aead 16) (byte random shm : Memory) (outcome : PutOutcome) (stores : List Store),
      Network.putInBuffer aead ⟨a.toNat, byte⟩ size.toInt random shm = (outcome, stores) →
      outcome ≠ .outside → outcome ≠ .negative → outcome ≠ .tooLarge →
      ∀ k : Nat, (k : Int) < size.toInt → InSmram (a.toNat + k) := by
  have pointer := a.toNat_lt
  have int := size.toInt_lt
  have exact_range : isWithinSmram a.toNat size.toInt = true ↔
      0xa0000 ≤ a.toNat ∧ (a.toNat : Int) + max size.toInt 1 - 1 ≤ 0xaffff := by
    rw [isWithinSmram, isWithin_iff (by decide) (by omega), Nat.mod_eq_of_lt pointer]
    simp only [smramStart, smramEnd, smramSize]
    omega
  refine ⟨exact_range, fun wraps => ?_, ?_⟩
  · rw [← Bool.not_eq_true, exact_range]
    omega
  · intro aead byte random shm outcome stores result outside _ _ k below
    have within : isWithinSmram a.toNat size.toInt = true := by
      by_contra refused
      rw [Network.putInBuffer, put, accept, if_pos (by simpa using refused)] at result
      exact outside (congrArg Prod.fst result).symm
    have inside := exact_range.mp within
    simp only [InSmram, smramStart, smramEnd, smramSize]
    omega

end Aurora.Footprint
