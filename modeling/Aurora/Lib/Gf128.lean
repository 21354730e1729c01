import Mathlib.Algebra.CharP.Algebra
import Mathlib.Algebra.Field.ZMod
import Mathlib.RingTheory.AdjoinRoot
import Mathlib.Tactic.ComputeDegree
import Aurora.Lib.BinaryPoly

/-! The field of the Galois/Counter Mode: blocks of 128 bits, leftmost bit first,
modulo `x^128 + x^7 + x^2 + x + 1`. The product is the standard's shift-and-add
algorithm; its laws come from the quotient ring, into which blocks embed. -/
namespace Lib.Gf128
open Polynomial

/-- Multiplication of a block by `x`. -/
def double (v : BitVec 128) : BitVec 128 :=
  if v.getLsbD 0 then (v >>> 1) ^^^ (0xe1#128 <<< 120) else v >>> 1

/-- The last `k` rounds of the product by `x`, with `z` accumulated and `v` the
multiple of the other factor that the next round may add. -/
def mulRounds (x : BitVec 128) : Nat → BitVec 128 → BitVec 128 → BitVec 128
  | 0, z, _ => z
  | k + 1, z, v => mulRounds x k (if x.getMsbD (127 - k) then z ^^^ v else z) (double v)

def mul (x y : BitVec 128) : BitVec 128 := mulRounds x 128 0#128 y

section Root
variable {R : Type*} [CommRing R] [CharP R 2] {r : R} (root : r ^ 128 = r ^ 7 + r ^ 2 + r + 1)
include root

theorem bitValue_double (v : BitVec 128) : bitValue r (double v) = r * bitValue r v := by
  have polynomial : bitValue r (0xe1#128 <<< 120) = r ^ 128 := by
    rw [root, show 0xe1#128 <<< 120 = 0xe1#8 ++ 0#120 by decide, bitValue_append, bitValue_zero]
    simp [bitValue, series, Finset.sum_range_succ]
    ring
  have low : bitValue r (v <<< 127) = if v.getLsbD 0 then 1 else 0 := by
    rw [bitValue, show series r (v <<< 127).getMsbD 128 = series r (v <<< 127).getMsbD (1 + 127) from rfl,
      series_add, series_false r (n := 127), mul_zero, add_zero]
    · rw [BitVec.getLsbD_eq_getMsbD]
      simp [series]
    · intro i _
      rw [BitVec.getMsbD_shiftLeft]
      exact BitVec.getMsbD_of_ge _ _ (by omega)
  have shifted := bitValue_ushiftRight r v (show 1 ≤ 128 by decide)
  rw [pow_one, low] at shifted
  unfold double
  split
  · rename_i carry
    rw [bitValue_xor, shifted, polynomial, if_pos carry, mul_one, add_assoc,
      CharTwo.add_self_eq_zero, add_zero]
  · rename_i carry
    rw [shifted, if_neg carry, mul_zero, add_zero]

theorem bitValue_mulRounds (x : BitVec 128) {k : Nat} (small : k ≤ 128) (z v : BitVec 128) :
    bitValue r (mulRounds x k z v) =
      bitValue r z + series r (fun i => x.getMsbD (128 - k + i)) k * bitValue r v := by
  induction k generalizing z v with
  | zero => simp [mulRounds, series]
  | succ k ih =>
    have head : series r (fun i => x.getMsbD (128 - (k + 1) + i)) (k + 1) =
        (if x.getMsbD (127 - k) then 1 else 0) +
          r * series r (fun i => x.getMsbD (128 - k + i)) k := by
      rw [Nat.add_comm k 1, series_add]
      congr 1
      · simp [series, show 128 - (1 + k) = 127 - k by omega]
      · rw [pow_one]
        congr 1
        apply series_congr
        intro i _
        congr 1
        omega
    rw [mulRounds, ih (by omega), bitValue_double root, head]
    split
    · rw [bitValue_xor]
      ring
    · ring

/-- The standard's product is the product of the quotient ring. -/
theorem bitValue_mul (x y : BitVec 128) : bitValue r (mul x y) = bitValue r x * bitValue r y := by
  rw [mul, bitValue_mulRounds root x (Nat.le_refl 128), bitValue_zero, zero_add]
  simp only [Nat.sub_self, Nat.zero_add]
  rfl

end Root

/-! The quotient ring itself, where a block is determined by its value. -/

noncomputable def modulus : (ZMod 2)[X] := X ^ 128 + X ^ 7 + X ^ 2 + X + 1

theorem modulus_monic : modulus.Monic := by
  unfold modulus
  monicity!

theorem modulus_natDegree : modulus.natDegree = 128 := by
  unfold modulus
  compute_degree!

noncomputable abbrev Residue : Type := AdjoinRoot modulus

noncomputable def value (v : BitVec 128) : Residue := bitValue (AdjoinRoot.root modulus) v

instance : Nontrivial Residue :=
  AdjoinRoot.nontrivial modulus (by
    rw [degree_eq_natDegree modulus_monic.ne_zero, modulus_natDegree]
    decide)

instance : CharP Residue 2 :=
  charP_of_injective_ringHom (AdjoinRoot.of modulus).injective 2

theorem root_pow : AdjoinRoot.root modulus ^ 128 = AdjoinRoot.root modulus ^ 7 +
    AdjoinRoot.root modulus ^ 2 + AdjoinRoot.root modulus + 1 := by
  have sum : (X ^ 128 + (X ^ 7 + X ^ 2 + X + 1) : (ZMod 2)[X]) = modulus := by
    unfold modulus
    ring
  have zero := (congrArg (AdjoinRoot.mk modulus) sum).trans AdjoinRoot.mk_self
  simp only [map_add, map_pow, map_one, AdjoinRoot.mk_X] at zero
  exact CharTwo.add_eq_zero.mp zero

theorem coeff_bitValue (v : BitVec 128) (i : Nat) :
    (bitValue (X : (ZMod 2)[X]) v).coeff i = if v.getMsbD i then 1 else 0 := by
  have term : ∀ k, (if v.getMsbD k then (X : (ZMod 2)[X]) ^ k else 0).coeff i =
      if i = k then (if v.getMsbD k then 1 else 0) else 0 := by
    intro k
    split <;> simp [coeff_X_pow]
  simp only [bitValue, series, finsetSum_coeff, term, Finset.sum_ite_eq, Finset.mem_range]
  split
  · rfl
  · rw [BitVec.getMsbD_of_ge v i (by omega), if_neg Bool.false_ne_true]

theorem degree_bitValue_lt (v : BitVec 128) :
    (bitValue (X : (ZMod 2)[X]) v).degree < modulus.degree := by
  rw [degree_eq_natDegree modulus_monic.ne_zero, modulus_natDegree, degree_lt_iff_coeff_zero]
  intro i large
  rw [coeff_bitValue, BitVec.getMsbD_of_ge v i large, if_neg Bool.false_ne_true]

theorem value_mul (x y : BitVec 128) : value (mul x y) = value x * value y :=
  bitValue_mul root_pow x y

theorem value_xor (x y : BitVec 128) : value (x ^^^ y) = value x + value y := bitValue_xor _ x y

theorem eq_zero_of_value {v : BitVec 128} (zero : value v = 0) : v = 0#128 := by
  have polynomial : bitValue (X : (ZMod 2)[X]) v = 0 := by
    apply eq_zero_of_dvd_of_degree_lt _ (degree_bitValue_lt v)
    rw [← AdjoinRoot.mk_eq_zero, map_bitValue, AdjoinRoot.mk_X]
    exact zero
  apply BitVec.eq_of_getMsbD_eq
  intro i _
  have bit := congrArg (fun p => p.coeff i) polynomial
  simp only [coeff_bitValue, coeff_zero] at bit
  simpa using bit

theorem value_injective {v u : BitVec 128} (same : value v = value u) : v = u := by
  have zero : value (v ^^^ u) = 0 := by
    rw [value_xor, same, CharTwo.add_self_eq_zero]
  exact BitVec.xor_eq_zero_iff.mp (eq_zero_of_value zero)

/-- The leftmost bit alone is the field's one. -/
def one : BitVec 128 := 1#128 <<< 127

theorem value_one : value one = 1 := by
  rw [value, one, show 1#128 <<< 127 = 1#1 ++ 0#127 by decide, bitValue_append, bitValue_zero]
  simp [bitValue, series]

theorem xor_mul (x y z : BitVec 128) : mul (x ^^^ y) z = mul x z ^^^ mul y z := by
  apply value_injective
  simp only [value_mul, value_xor, add_mul]

end Lib.Gf128
