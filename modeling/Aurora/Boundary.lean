import Mathlib.Data.Int.ModEq
import Mathlib.Tactic.Common

/-! The two pointer checks of the ring code: `is_within_smram` of the firmware,
in 32-bit unsigned arithmetic, and `sgx_is_within_enclave` of the SGX trusted
runtime. The runtime is no part of the code: its check is given with the enclave,
with what is assumed of it. -/
namespace Aurora

def smramSize : Nat := 0x00010000
def smramStart : Nat := 0x000a0000
def smramEnd : Nat := smramStart + smramSize

def InSmram (addr : Nat) : Prop := smramStart ≤ addr ∧ addr < smramEnd

instance (addr : Nat) : Decidable (InSmram addr) := inferInstanceAs (Decidable (_ ∧ _))

/-- The last byte is computed modulo the pointer width, and a sum that wrapped
lands below its start. -/
def isWithin (bits first last addr size : Nat) : Bool :=
  let start := addr % 2 ^ bits
  let stop := if 0 < size then (start + size - 1) % 2 ^ bits else start
  decide (start ≤ stop) && decide (first ≤ start) && decide (stop ≤ last)

def isWithinSmram (addr : Nat) (size : Int) : Bool :=
  isWithin 32 smramStart (smramEnd - 1) addr size.toNat

/-- An `int` argument converted to `size_t`. -/
def sizeT (n : Int) : Nat := (n % 2 ^ 64).toNat

theorem sizeT_natCast {n : Nat} (small : n < 2 ^ 64) : sizeT n = n := by
  unfold sizeT
  omega

/-- An enclave's linear range, with the check of the runtime that is linked into
it. The configured heap alone is 2 MiB, so there is room for the packet buffers
the ring code keeps on its stack. -/
structure Enclave where
  base : Nat
  size : Nat
  sgxIsWithinEnclave : Nat → Nat → Bool
  fits : base + size ≤ 2 ^ 64
  room : 4096 ≤ size
  /-- The check accepts exactly the buffers that lie inside the range without
  wrapping; a buffer of size 0 counts as its first byte. -/
  accepts_iff : ∀ addr length, length ≤ 2 ^ 64 →
    (sgxIsWithinEnclave addr length = true ↔
      base ≤ addr % 2 ^ 64 ∧ addr % 2 ^ 64 + max length 1 ≤ base + size)

def Enclave.Inside (e : Enclave) (addr : Nat) : Prop := e.base ≤ addr ∧ addr < e.base + e.size

instance (e : Enclave) (addr : Nat) : Decidable (e.Inside addr) :=
  inferInstanceAs (Decidable (_ ∧ _))

/-- The check accepts exactly the buffers that lie inside the range without
wrapping; a buffer of size 0 counts as its first byte. -/
theorem isWithin_iff {bits first last addr size : Nat} (width : last < 2 ^ bits)
    (reach : size ≤ 2 ^ bits) :
    isWithin bits first last addr size = true ↔
      first ≤ addr % 2 ^ bits ∧ addr % 2 ^ bits + max size 1 - 1 ≤ last := by
  simp only [isWithin, Bool.and_eq_true, decide_eq_true_eq]
  have small := Nat.mod_lt addr (Nat.two_pow_pos bits)
  generalize addr % 2 ^ bits = start at small ⊢
  by_cases positive : 0 < size
  · rw [if_pos positive, Nat.max_eq_left positive]
    by_cases wraps : start + size - 1 < 2 ^ bits
    · rw [Nat.mod_eq_of_lt wraps]
      omega
    · have wrapped : (start + size - 1) % 2 ^ bits = start + size - 1 - 2 ^ bits := by
        rw [Nat.mod_eq_sub_mod (Nat.le_of_not_lt wraps), Nat.mod_eq_of_lt (by omega)]
      rw [wrapped]
      omega
  · rw [if_neg positive]
    omega

theorem isWithinSmram_of_inside {addr size : Nat} (inside : ∀ k < size, InSmram (addr + k))
    (positive : 0 < size) (reach : size ≤ 2 ^ 32) : isWithinSmram addr size = true := by
  have first := inside 0 positive
  have last := inside (size - 1) (by omega)
  refine (isWithin_iff (by decide) reach).mpr ?_
  simp only [InSmram, smramStart, smramEnd, smramSize] at *
  omega

/-- An enclave whose runtime compares the ends of the buffer as the firmware does. -/
def Enclave.ofRange (base size : Nat) (fits : base + size ≤ 2 ^ 64) (room : 4096 ≤ size) : Enclave where
  base := base
  size := size
  sgxIsWithinEnclave := isWithin 64 base (base + size - 1)
  fits := fits
  room := room
  accepts_iff addr length reach := by
    rw [isWithin_iff (by omega) reach]
    omega

/-- Two megabytes from 64 KiB on. -/
def Enclave.sample : Enclave := .ofRange 0x10000 0x200000 (by decide) (by decide)

/-- A packet buffer fits at the start of every enclave. -/
theorem Enclave.within_base (e : Enclave) (length : Nat) (small : length ≤ 4096) :
    e.sgxIsWithinEnclave e.base length = true := by
  have top := e.fits
  have room := e.room
  apply (e.accepts_iff _ _ (by omega)).mpr
  rw [Nat.mod_eq_of_lt (by omega)]
  omega

end Aurora
