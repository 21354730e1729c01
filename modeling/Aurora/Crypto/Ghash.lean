import Mathlib.Tactic.LinearCombination
import Aurora.Lib.Gcm
import Aurora.Crypto.Sse

/-! Multiplication in the GCM field as the cipher code does it: carry-less
products of halves, one shift of the 256-bit product, and a lane-wise reduction,
either for one product or for the sum of four. -/
namespace Aurora.Crypto
open Lib

/-- The 256-bit product moved one bit up, lane by lane: the new low and high registers. -/
def shiftProduct (tmp15 tmp17 : M128) : M128 × M128 :=
  let tmp7 := srliEpi32 tmp15 31
  let tmp8 := srliEpi32 tmp17 31
  let tmp16 := slliEpi32 tmp15 1
  let tmp18 := slliEpi32 tmp17 1
  let tmp9 := srliSi128 tmp7 12
  let tmp22 := slliSi128 tmp8 4
  let tmp25 := slliSi128 tmp7 4
  let tmp29 := tmp16 ||| tmp25
  let tmp19 := tmp18 ||| tmp22
  let tmp20 := tmp19 ||| tmp9
  (tmp29, tmp20)

/-- The low register folded into the high one. -/
def foldProduct (tmp29 tmp20 : M128) : M128 :=
  let tmp26 := slliEpi32 tmp29 31
  let tmp23 := slliEpi32 tmp29 30
  let tmp32 := slliEpi32 tmp29 25
  let tmp27 := tmp26 ^^^ tmp23
  let tmp28 := tmp27 ^^^ tmp32
  let tmp24 := srliSi128 tmp28 4
  let tmp33 := slliSi128 tmp28 12
  let tmp30 := tmp29 ^^^ tmp33
  let tmp2 := srliEpi32 tmp30 1
  let tmp12 := srliEpi32 tmp30 2
  let tmp14 := srliEpi32 tmp30 7
  let tmp34 := tmp2 ^^^ tmp12
  let tmp35 := tmp34 ^^^ tmp14
  let tmp36 := tmp35 ^^^ tmp24
  let tmp31 := tmp30 ^^^ tmp36
  tmp20 ^^^ tmp31

/-- The tail that `addmul`, `mulv` and `MULREDUCE4` share. -/
def reduce (low high : M128) : M128 :=
  foldProduct (shiftProduct low high).1 (shiftProduct low high).2

def mulv (A B : M128) : M128 :=
  let tmp3 := clmulepi64 A B 0x00
  let tmp4 := clmulepi64 A B 0x10
  let tmp5 := clmulepi64 A B 0x01
  let tmp6 := clmulepi64 A B 0x11
  let tmp10 := tmp4 ^^^ tmp5
  let tmp13 := slliSi128 tmp10 8
  let tmp11 := srliSi128 tmp10 8
  reduce (tmp3 ^^^ tmp13) (tmp6 ^^^ tmp11)

/-- The mask that reverses the sixteen bytes of a register. -/
def rev : M128 := setEpi8 [0, 1, 2, 3, 4, 5, 6, 7, 8, 9, 10, 11, 12, 13, 14, 15]

/-- `addmul(c, a, xlen, b)`: the new accumulator. The tail is `mulv` with the
factors in registers. -/
def addmul (c : M128) (a : List UInt8) (xlen : Nat) (b : M128) : M128 :=
  let A := if xlen ≥ 16 then loadu a else loadu (a.take xlen)
  mulv (shuffleEpi8 A rev ^^^ c) b

/-- `RED_MUL_MID`: the product of the sums of the halves. -/
def redMulMid (H X : M128) : M128 :=
  let tmp := shuffleEpi32 H 0x4e
  let tmpB := shuffleEpi32 X 0x4e
  clmulepi64 (tmp ^^^ H) (tmpB ^^^ X) 0x00

/-- `MULREDUCE4`: four products, summed before the one reduction. -/
def mulreduce4 (H0 H1 H2 H3 X0' X1' X2' X3' accv : M128) : M128 :=
  let X0 := shuffleEpi8 X0' rev
  let X1 := shuffleEpi8 X1' rev
  let X2 := shuffleEpi8 X2' rev
  let X3 := shuffleEpi8 X3' rev ^^^ accv
  let lo := clmulepi64 H0 X0 0x00 ^^^ clmulepi64 H1 X1 0x00 ^^^ clmulepi64 H2 X2 0x00 ^^^
    clmulepi64 H3 X3 0x00
  let hi := clmulepi64 H0 X0 0x11 ^^^ clmulepi64 H1 X1 0x11 ^^^ clmulepi64 H2 X2 0x11 ^^^
    clmulepi64 H3 X3 0x11
  let tmp0 := redMulMid H0 X0 ^^^ lo ^^^ hi
  let tmp0 := redMulMid H1 X1 ^^^ tmp0
  let tmp0 := redMulMid H2 X2 ^^^ tmp0
  let tmp0 := redMulMid H3 X3 ^^^ tmp0
  reduce (slliSi128 tmp0 8 ^^^ lo) (srliSi128 tmp0 8 ^^^ hi)

section Reduction
variable {R : Type*} [CommRing R] [CharP R 2] {r : R}

/-- The bit that leaves a lane and the lane that receives it do not overlap. -/
theorem or_carry (x y : BitVec 32) : (x <<< 1) ||| (y >>> 31) = (x <<< 1) ^^^ (y >>> 31) := by
  apply BitVec.eq_of_getLsbD_eq
  intro i small
  simp only [BitVec.getLsbD_or, BitVec.getLsbD_xor, BitVec.getLsbD_shiftLeft, BitVec.getLsbD_ushiftRight]
  grind

/-- Both registers move up one place and the top bit of the low one crosses over. -/
theorem bitValue_shiftProduct (low high : M128) (clear : high.getMsbD 0 = false) :
    r ^ 32 * (bitValue r (shiftProduct low high).2 + r ^ 128 * bitValue r (shiftProduct low high).1) =
      r ^ 31 * (bitValue r high + r ^ 128 * bitValue r low) := by
  have top : bitValue r (lane high 3 >>> 31) = 0 := by
    rw [show lane high 3 >>> 31 = 0#32 from ?_, bitValue_zero]
    apply BitVec.eq_of_getLsbD_eq
    intro i small
    simp only [lane, BitVec.getLsbD_ushiftRight, BitVec.getLsbD_extractLsb', BitVec.getLsbD_zero]
    simp [BitVec.getMsbD] at clear
    grind
  let out : BitVec 32 → R := fun x => bitValue r (x >>> 31)
  have carry (x : BitVec 32) : r ^ 32 * bitValue r (x <<< 1) = r ^ 31 * bitValue r x + out x := by
    rw [show out x = _ from bitValue_ushiftRight r x (show 31 ≤ 32 by decide), ← add_assoc,
      CharTwo.add_self_eq_zero, zero_add]
  rw [← ofLanes_lane low, ← ofLanes_lane high]
  simp only [shiftProduct, slliEpi32_ofLanes, srliEpi32_ofLanes, slliSi128_4, srliSi128_12, ofLanes_or,
    or_carry, BitVec.or_zero, bitValue_ofLanes, bitValue_xor]
  -- every bit that leaves a lane enters the next one, so it is counted twice
  linear_combination carry (lane high 3) + r ^ 32 * carry (lane high 2) + r ^ 64 * carry (lane high 1) +
    r ^ 96 * carry (lane high 0) + r ^ 128 * (carry (lane low 3) + r ^ 32 * carry (lane low 2) +
    r ^ 64 * carry (lane low 1) + r ^ 96 * carry (lane low 0)) + top +
    (r ^ 32 * out (lane high 2) + r ^ 64 * out (lane high 1) + r ^ 96 * out (lane high 0) +
      r ^ 128 * (out (lane low 3) + r ^ 32 * out (lane low 2) + r ^ 64 * out (lane low 1) +
        r ^ 96 * out (lane low 0))) * (CharTwo.two_eq_zero : (2 : R) = 0)

/-- The fold multiplies the low register by `r ^ 128`, whatever the lanes lose and receive. -/
theorem bitValue_foldProduct (root : r ^ 128 = r ^ 7 + r ^ 2 + r + 1) (low high : M128) :
    bitValue r (foldProduct low high) = bitValue r high + r ^ 128 * bitValue r low := by
  have right1 (x : BitVec 32) : bitValue r (x >>> 1) = r ^ 1 * bitValue r x + r ^ 32 * bitValue r (x <<< 31) :=
    bitValue_ushiftRight r x (by decide)
  have right2 (x : BitVec 32) : bitValue r (x >>> 2) = r ^ 2 * bitValue r x + r ^ 32 * bitValue r (x <<< 30) :=
    bitValue_ushiftRight r x (by decide)
  have right7 (x : BitVec 32) : bitValue r (x >>> 7) = r ^ 7 * bitValue r x + r ^ 32 * bitValue r (x <<< 25) :=
    bitValue_ushiftRight r x (by decide)
  -- what the top lane receives from the lowest one lies above the bits it loses
  have kept (x y : BitVec 32) (k : Nat) (far : 25 ≤ k) :
      (x ^^^ (y <<< 31 ^^^ y <<< 30 ^^^ y <<< 25)) <<< k = x <<< k := by
    apply BitVec.eq_of_getLsbD_eq
    intro i small
    simp only [BitVec.getLsbD_shiftLeft, BitVec.getLsbD_xor]
    grind
  let lost : BitVec 32 → R := fun x => bitValue r (x <<< 31) + bitValue r (x <<< 30) + bitValue r (x <<< 25)
  rw [← ofLanes_lane low, ← ofLanes_lane high]
  simp only [foldProduct, slliEpi32_ofLanes, srliEpi32_ofLanes, slliSi128_12, srliSi128_4, ofLanes_xor,
    BitVec.xor_zero, bitValue_ofLanes, bitValue_xor, right1, right2, right7,
    kept _ _ 31 (by decide), kept _ _ 30 (by decide), kept _ _ 25 (by decide)]
  linear_combination (r ^ 32 * lost (lane low 3) + r ^ 64 * lost (lane low 2) + r ^ 96 * lost (lane low 1) +
      r ^ 128 * lost (lane low 0)) * (CharTwo.two_eq_zero : (2 : R) = 0) -
    (bitValue r (lane low 3) + r ^ 32 * bitValue r (lane low 2) + r ^ 64 * bitValue r (lane low 1) +
      r ^ 96 * bitValue r (lane low 0) + lost (lane low 0)) * root

variable (root : r ^ 128 = r ^ 7 + r ^ 2 + r + 1)
include root

theorem isUnit_root : IsUnit r := by
  refine IsUnit.of_mul_eq_one (r ^ 127 + r ^ 6 + r + 1) ?_
  linear_combination root + (r ^ 7 + r ^ 2 + r) * (CharTwo.two_eq_zero : (2 : R) = 0)

theorem bitValue_reduce (low high : M128) (clear : high.getMsbD 0 = false) :
    r * bitValue r (reduce low high) = bitValue r high + r ^ 128 * bitValue r low := by
  apply ((isUnit_root root).pow 31).mul_left_cancel
  rw [reduce, bitValue_foldProduct root, ← mul_assoc, ← pow_succ, bitValue_shiftProduct low high clear]

end Reduction

section Products
variable {R : Type*} [CommRing R] [CharP R 2] {r : R} (root : r ^ 128 = r ^ 7 + r ^ 2 + r + 1)

theorem msb_clmulepi64 (v u : M128) (imm : Nat) : (clmulepi64 v u imm).getMsbD 0 = false :=
  msb_clmulBits _ _ 64 (Nat.le_refl 64)

theorem msb_srliSi128_8 (v : M128) : (srliSi128 v 8).getMsbD 0 = false := by
  simp [srliSi128]

omit [CharP R 2] in
theorem bitValue_clmulepi64 [CharP R 2] (v u : M128) (imm : Nat) : bitValue r (clmulepi64 v u imm) =
    r * bitValue r (half v (imm % 2)) * bitValue r (half u (imm / 16 % 2)) :=
  bitValue_clmul r _ _

theorem half_swap (v : M128) : half (shuffleEpi32 v 0x4e ^^^ v) 0 = half v 1 ^^^ half v 0 := by
  apply BitVec.eq_of_getLsbD_eq
  intro i small
  simp only [half, shuffleEpi32, select, lane, BitVec.getLsbD_extractLsb', BitVec.getLsbD_xor, getLsbD_ofLanes]
  grind

/-- The middle product holds the two straight products besides the mixed ones. -/
theorem bitValue_redMulMid (H X : M128) : bitValue r (redMulMid H X) =
    r * (bitValue r (half H 1) + bitValue r (half H 0)) * (bitValue r (half X 1) + bitValue r (half X 0)) := by
  rw [redMulMid, bitValue_clmulepi64, half_swap, half_swap, bitValue_xor, bitValue_xor]

include root

/-- The halves of the middle sum join the outer registers before the reduction. -/
theorem bitValue_reduce_spread (low middle high : M128) (clear : high.getMsbD 0 = false) :
    r * bitValue r (reduce (low ^^^ slliSi128 middle 8) (high ^^^ srliSi128 middle 8)) =
      bitValue r high + r ^ 64 * bitValue r middle + r ^ 128 * bitValue r low := by
  rw [bitValue_reduce root _ _ (by rw [BitVec.getMsbD_xor, clear, msb_srliSi128_8, Bool.false_xor]),
    bitValue_xor, bitValue_xor, bitValue_slliSi128_8, bitValue_srliSi128_8, bitValue_half r middle]
  ring

theorem bitValue_mulv (A B : M128) : bitValue r (mulv A B) = bitValue r A * bitValue r B := by
  apply (isUnit_root root).mul_left_cancel
  rw [mulv, bitValue_reduce_spread root _ _ _ (msb_clmulepi64 A B 0x11), bitValue_xor]
  simp only [bitValue_clmulepi64, bitValue_half r A, bitValue_half r B]
  ring

/-- One reduction of the summed products is the sum of the products. -/
theorem bitValue_mulreduce4 (H0 H1 H2 H3 X0 X1 X2 X3 accv : M128) :
    bitValue r (mulreduce4 H0 H1 H2 H3 X0 X1 X2 X3 accv) =
      bitValue r H0 * bitValue r (shuffleEpi8 X0 rev) + bitValue r H1 * bitValue r (shuffleEpi8 X1 rev) +
      bitValue r H2 * bitValue r (shuffleEpi8 X2 rev) +
      bitValue r H3 * bitValue r (shuffleEpi8 X3 rev ^^^ accv) := by
  apply (isUnit_root root).mul_left_cancel
  have clear (v u w x y z s t : M128) : (clmulepi64 v u 0x11 ^^^ clmulepi64 w x 0x11 ^^^
      clmulepi64 y z 0x11 ^^^ clmulepi64 s t 0x11).getMsbD 0 = false := by
    simp only [BitVec.getMsbD_xor, msb_clmulepi64, Bool.xor_self]
  simp only [mulreduce4]
  rw [BitVec.xor_comm (slliSi128 _ 8), BitVec.xor_comm (srliSi128 _ 8),
    bitValue_reduce_spread root _ _ _ (clear ..)]
  generalize shuffleEpi8 X3 rev ^^^ accv = Y3
  generalize shuffleEpi8 X2 rev = Y2
  generalize shuffleEpi8 X1 rev = Y1
  generalize shuffleEpi8 X0 rev = Y0
  simp only [bitValue_xor, bitValue_redMulMid, bitValue_clmulepi64, bitValue_half r Y0, bitValue_half r Y1,
    bitValue_half r Y2, bitValue_half r Y3, bitValue_half r H0, bitValue_half r H1, bitValue_half r H2,
    bitValue_half r H3]
  -- the straight products of halves are in the middle sum twice
  let straight : M128 → M128 → R := fun H Y =>
    r * (bitValue r (half H 1) * bitValue r (half Y 1) + bitValue r (half H 0) * bitValue r (half Y 0))
  linear_combination r ^ 64 * (straight H0 Y0 + straight H1 Y1 + straight H2 Y2 + straight H3 Y3) *
    (CharTwo.two_eq_zero : (2 : R) = 0)

end Products

/-- The register product is the standard's, bit by bit. -/
theorem mulv_eq_mul (A B : M128) : mulv A B = Gf128.mul A B := by
  apply Gf128.value_injective
  rw [Gf128.value_mul]
  exact bitValue_mulv Gf128.root_pow A B

/-- The register product makes the 128-bit registers, with exclusive or, the
standard's commutative ring of blocks. -/
theorem mulv_field_laws (A B C : M128) :
    mulv A B = Gf128.mul A B ∧ mulv A B = mulv B A ∧ mulv (mulv A B) C = mulv A (mulv B C) ∧
      mulv (A ^^^ B) C = mulv A C ^^^ mulv B C ∧ mulv Gf128.one A = A := by
  simp only [mulv_eq_mul, true_and]
  refine ⟨?_, ?_, Gf128.xor_mul A B C, ?_⟩
  · apply Gf128.value_injective
    rw [Gf128.value_mul, Gf128.value_mul, mul_comm]
  · apply Gf128.value_injective
    simp only [Gf128.value_mul, mul_assoc]
  · apply Gf128.value_injective
    rw [Gf128.value_mul, Gf128.value_one, one_mul]

/-- One aggregated reduction of four products is the sum of four reduced products,
for any four factors and any accumulator. -/
theorem mulreduce4_eq_products (H0 H1 H2 H3 X0 X1 X2 X3 accv : M128) :
    mulreduce4 H0 H1 H2 H3 X0 X1 X2 X3 accv =
      mulv H0 (shuffleEpi8 X0 rev) ^^^ mulv H1 (shuffleEpi8 X1 rev) ^^^ mulv H2 (shuffleEpi8 X2 rev) ^^^
        mulv H3 (shuffleEpi8 X3 rev ^^^ accv) := by
  apply Gf128.value_injective
  simp only [Gf128.value, bitValue_mulreduce4 Gf128.root_pow, bitValue_xor, bitValue_mulv Gf128.root_pow]

/-- With the powers of one key, the aggregated reduction is four steps of the hash. -/
theorem mulreduce4_eq_ghash (h X0 X1 X2 X3 accv : M128) :
    mulreduce4 h (mulv h h) (mulv (mulv h h) h) (mulv (mulv (mulv h h) h) h) X0 X1 X2 X3 accv =
      Gcm.ghash h accv [shuffleEpi8 X3 rev, shuffleEpi8 X2 rev, shuffleEpi8 X1 rev, shuffleEpi8 X0 rev] := by
  apply Gf128.value_injective
  simp only [Gcm.ghash, List.foldl_cons, List.foldl_nil, Gf128.value_mul, Gf128.value_xor]
  simp only [Gf128.value, bitValue_mulreduce4 Gf128.root_pow, bitValue_mulv Gf128.root_pow, bitValue_xor]
  ring

theorem shuffleEpi8_rev (list : List UInt8) : shuffleEpi8 (loadu list) rev = Gcm.block list := by
  unfold shuffleEpi8 Gcm.block
  congr 1
  apply List.map_congr_left
  intro i member
  have small := List.mem_range.mp member
  have mask : ∀ i < 16, (byteAt rev i).toNat = 15 - i := by decide
  rw [mask i small, if_neg (by omega), Nat.mod_eq_of_lt (by omega), loadu, byteAt_load list (by omega)]

theorem addmul_eq (c b : M128) (a : List UInt8) (xlen : Nat) (within : xlen = min 16 a.length) :
    addmul c a xlen b = Gf128.mul (c ^^^ Gcm.block a) b := by
  have loaded : shuffleEpi8 (if xlen ≥ 16 then loadu a else loadu (a.take xlen)) rev = Gcm.block a := by
    split
    · exact shuffleEpi8_rev a
    · rw [List.take_of_length_le (by omega), shuffleEpi8_rev]
  rw [addmul, loaded, mulv_eq_mul, BitVec.xor_comm]

end Aurora.Crypto
