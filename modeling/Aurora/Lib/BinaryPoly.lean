import Mathlib.Algebra.BigOperators.Intervals
import Mathlib.Algebra.BigOperators.Ring.Finset
import Mathlib.Algebra.CharP.Two
import Mathlib.Tactic.Ring

/-! Bit vectors as polynomials over the field of two elements, most significant
bit first: bit `i` from the top is the coefficient of the `i`-th power. The value
of such a polynomial at an element of a ring of characteristic two turns
exclusive or into addition, and shifts and carry-less products into products. -/
namespace Lib
open Finset

section Series
variable {R : Type*} [CommRing R] (r : R)

/-- The sum of the powers below `n` that `bits` selects. -/
def series (bits : Nat → Bool) (n : Nat) : R := ∑ i ∈ range n, if bits i then r ^ i else 0

theorem series_congr {f g : Nat → Bool} (same : ∀ i < n, f i = g i) : series r f n = series r g n := by
  apply sum_congr rfl
  intro i member
  rw [same i (mem_range.mp member)]

theorem series_false {f : Nat → Bool} (none : ∀ i < n, f i = false) : series r f n = 0 := by
  apply sum_eq_zero
  intro i member
  simp [none i (mem_range.mp member)]

theorem series_add (f : Nat → Bool) (m n : Nat) :
    series r f (m + n) = series r f m + r ^ m * series r (fun i => f (m + i)) n := by
  simp only [series, sum_range_add, mul_sum, pow_add, mul_ite, mul_zero]

theorem series_xor [CharP R 2] (f g : Nat → Bool) (n : Nat) :
    series r (fun i => f i ^^ g i) n = series r f n + series r g n := by
  simp only [series, ← sum_add_distrib]
  apply sum_congr rfl
  intro i _
  by_cases left : f i <;> by_cases right : g i <;> simp [left, right, CharTwo.add_self_eq_zero]

end Series

section Value
variable {R : Type*} [CommRing R]

def bitValue (r : R) (v : BitVec w) : R := series r v.getMsbD w

theorem map_bitValue {S : Type*} [CommRing S] (f : R →+* S) (r : R) (v : BitVec w) :
    f (bitValue r v) = bitValue (f r) v := by
  simp only [bitValue, series, map_sum, apply_ite f, map_pow, map_zero]

variable (r : R)

@[simp] theorem bitValue_zero : bitValue r (0#w) = 0 := by
  apply series_false
  simp

theorem bitValue_xor [CharP R 2] (v u : BitVec w) :
    bitValue r (v ^^^ u) = bitValue r v + bitValue r u := by
  rw [bitValue, bitValue, bitValue, ← series_xor]
  apply series_congr
  simp

/-- The bits of the left operand are the low coefficients. -/
theorem bitValue_append (high : BitVec m) (low : BitVec n) :
    bitValue r (high ++ low) = bitValue r high + r ^ m * bitValue r low := by
  simp only [bitValue]
  rw [series_add]
  refine congrArg₂ (fun x y => x + r ^ m * y) (series_congr r ?_) (series_congr r ?_)
  · intro i small
    rw [BitVec.getMsbD_append, if_neg (by omega)]
  · intro i _
    rw [BitVec.getMsbD_append, if_pos (by omega), Nat.add_sub_cancel_left]

/-- A vector moved `k` places up inside a wider one. -/
theorem bitValue_place (v : BitVec w) {k n : Nat} (room : k ≤ n) :
    bitValue r (v.setWidth (n + w) <<< k) = r ^ (n - k) * bitValue r v := by
  have parts : series r (v.setWidth (n + w) <<< k).getMsbD (n - k + (w + k)) =
      r ^ (n - k) * series r v.getMsbD (w + k) := by
    rw [series_add, series_false, zero_add]
    · congr 1
      apply series_congr
      intro i small
      rw [BitVec.getMsbD_shiftLeft, BitVec.getMsbD_setWidth]
      have first : n + w - w ≤ n - k + i + k := by omega
      have place : n - k + i + k + w - (n + w) = i := by omega
      rw [decide_eq_true first, Bool.true_and, place]
    · intro i small
      rw [BitVec.getMsbD_shiftLeft, BitVec.getMsbD_setWidth]
      have first : ¬ n + w - w ≤ i + k := by omega
      rw [decide_eq_false first, Bool.false_and]
  have tail : series r v.getMsbD (w + k) = series r v.getMsbD w := by
    rw [series_add, add_eq_left, series_false, mul_zero]
    intro i _
    exact BitVec.getMsbD_of_ge _ _ (by omega)
  rw [tail, show n - k + (w + k) = n + w by omega] at parts
  exact parts

/-- What a right shift drops is what the opposite left shift keeps. -/
theorem bitValue_ushiftRight [CharP R 2] (v : BitVec w) {k : Nat} (small : k ≤ w) :
    bitValue r (v >>> k) = r ^ k * bitValue r v + r ^ w * bitValue r (v <<< (w - k)) := by
  let moved : Nat → Bool := fun i => decide (k ≤ i) && v.getMsbD (i - k)
  have whole : series r moved (k + w) = r ^ k * bitValue r v := by
    rw [series_add, series_false, zero_add]
    · simp [moved, bitValue]
    · intro i below
      simp [moved, below]
  have kept : series r moved w = bitValue r (v >>> k) := by
    apply series_congr
    intro i below
    rw [BitVec.getMsbD_ushiftRight]
    simp only [moved]
    by_cases inside : i < k
    · simp [inside]
    · simp [inside, below, Nat.not_lt.mp inside]
  have dropped : series r (fun i => moved (w + i)) k = bitValue r (v <<< (w - k)) := by
    rw [bitValue, show series r (v <<< (w - k)).getMsbD w =
      series r (v <<< (w - k)).getMsbD (k + (w - k)) by rw [Nat.add_sub_cancel' small], series_add]
    rw [series_false r (n := w - k), mul_zero, add_zero]
    · apply series_congr
      intro i below
      rw [BitVec.getMsbD_shiftLeft]
      simp only [moved, decide_eq_true (show k ≤ w + i by omega), Bool.true_and]
      rw [Nat.add_comm w i, Nat.add_sub_assoc small]
    · intro i _
      rw [BitVec.getMsbD_shiftLeft]
      exact BitVec.getMsbD_of_ge _ _ (by omega)
  rw [Nat.add_comm k w, series_add, kept, dropped] at whole
  rw [← whole, add_assoc, CharTwo.add_self_eq_zero, add_zero]

end Value

/-- Carry-less multiplication: the exclusive or of the shifted copies of `a` that
the low `k` bits of `b` select. -/
def clmulBits (a b : BitVec w) : Nat → BitVec (w + w)
  | 0 => 0#(w + w)
  | k + 1 => clmulBits a b k ^^^ if b.getLsbD k then a.setWidth (w + w) <<< k else 0#(w + w)

def clmul (a b : BitVec w) : BitVec (w + w) := clmulBits a b w

section Clmul
variable {R : Type*} [CommRing R] [CharP R 2] (r : R)

theorem bitValue_clmulBits (a b : BitVec w) {k : Nat} (small : k ≤ w) :
    bitValue r (clmulBits a b k) =
      r * (r ^ (w - k) * series r (fun i => b.getMsbD (w - k + i)) k) * bitValue r a := by
  induction k with
  | zero => simp [clmulBits, series]
  | succ k ih =>
    -- the new bit is the lowest coefficient of the part of `b` read so far
    have head : series r (fun i => b.getMsbD (w - (k + 1) + i)) (k + 1) =
        (if b.getLsbD k then 1 else 0) + r * series r (fun i => b.getMsbD (w - k + i)) k := by
      rw [Nat.add_comm k 1, series_add]
      congr 1
      · rw [BitVec.getLsbD_eq_getMsbD, decide_eq_true (show k < w by omega), Bool.true_and]
        simp [series, show w - (1 + k) = w - 1 - k by omega]
      · rw [pow_one]
        congr 1
        apply series_congr
        intro i _
        congr 1
        omega
    have term : bitValue r (if b.getLsbD k then a.setWidth (w + w) <<< k else 0#(w + w)) =
        (if b.getLsbD k then 1 else 0) * (r ^ (w - k) * bitValue r a) := by
      split
      · rw [bitValue_place r a (by omega), one_mul]
      · rw [bitValue_zero, zero_mul]
    have power : r ^ (w - k) = r * r ^ (w - (k + 1)) := by
      rw [← pow_succ', show w - (k + 1) + 1 = w - k by omega]
    rw [clmulBits, bitValue_xor, ih (by omega), term, head, power]
    ring

/-- Reading from the top shifts the product by one place. -/
theorem bitValue_clmul (a b : BitVec w) :
    bitValue r (clmul a b) = r * bitValue r a * bitValue r b := by
  rw [clmul, bitValue_clmulBits r a b (Nat.le_refl w)]
  simp only [Nat.sub_self, pow_zero, one_mul, Nat.zero_add]
  exact mul_right_comm r _ _

/-- A product of two `w`-bit vectors leaves the top bit clear. -/
theorem msb_clmulBits (a b : BitVec w) (k : Nat) (small : k ≤ w) :
    (clmulBits a b k).getMsbD 0 = false := by
  induction k with
  | zero => simp [clmulBits]
  | succ k ih =>
    have clear : (a.setWidth (w + w) <<< k).getMsbD 0 = false := by
      rw [BitVec.getMsbD_shiftLeft, BitVec.getMsbD_setWidth]
      simp
      omega
    rw [clmulBits, BitVec.getMsbD_xor, ih (by omega)]
    split <;> simp [clear]

end Clmul

end Lib
