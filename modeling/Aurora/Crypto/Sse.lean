import Aurora.Lib.BinaryPoly
import Aurora.Lib.Bytes

/-! The 128-bit registers and the intrinsics that the cipher code is written in.
Lanes and bytes are numbered from the low end, as in memory. -/
namespace Aurora.Crypto
open Lib

abbrev M128 := BitVec 128

def lane (v : M128) (k : Nat) : BitVec 32 := v.extractLsb' (32 * k) 32

def ofLanes (d c b a : BitVec 32) : M128 := d ++ c ++ b ++ a

def half (v : M128) (k : Nat) : BitVec 64 := v.extractLsb' (64 * k) 64

/-- `_mm_loadu_si128` of the bytes a pointer is at. -/
def loadu (memory : List UInt8) : M128 := load 128 memory

/-- `_mm_storeu_si128`: the bytes written. -/
def storeu (v : M128) : List UInt8 := bytes 16 v

def slliSi128 (v : M128) (count : Nat) : M128 := v <<< (8 * count)

def srliSi128 (v : M128) (count : Nat) : M128 := v >>> (8 * count)

def slliEpi32 (v : M128) (count : Nat) : M128 :=
  ofLanes (lane v 3 <<< count) (lane v 2 <<< count) (lane v 1 <<< count) (lane v 0 <<< count)

def srliEpi32 (v : M128) (count : Nat) : M128 :=
  ofLanes (lane v 3 >>> count) (lane v 2 >>> count) (lane v 1 >>> count) (lane v 0 >>> count)

/-- Two bits of the immediate select the source of each lane. -/
def select (imm : Nat) (k : Nat) : Nat := imm >>> (2 * k) % 4

def shuffleEpi32 (v : M128) (imm : Nat) : M128 :=
  ofLanes (lane v (select imm 3)) (lane v (select imm 2)) (lane v (select imm 1)) (lane v (select imm 0))

/-- `_mm_shuffle_ps` between the casts: two lanes of each operand. -/
def shufflePs (v u : M128) (imm : Nat) : M128 :=
  ofLanes (lane u (select imm 3)) (lane u (select imm 2)) (lane v (select imm 1)) (lane v (select imm 0))

/-- Bit 0 of the immediate selects the half of the first operand, bit 4 that of the second. -/
def clmulepi64 (v u : M128) (imm : Nat) : M128 := clmul (half v (imm % 2)) (half u (imm / 16 % 2))

/-- `_mm_set_epi8` names the highest byte first. -/
def setEpi8 (arguments : List UInt8) : M128 := load 128 arguments.reverse

/-- A mask byte with its top bit set clears, any other selects by its low four bits. -/
def shuffleEpi8 (v mask : M128) : M128 :=
  load 128 ((List.range 16).map fun i =>
    if (byteAt mask i).toNat ≥ 128 then 0 else byteAt v ((byteAt mask i).toNat % 16))

section Lanes
variable (d c b a : BitVec 32)

theorem getLsbD_ofLanes (i : Nat) :
    (ofLanes d c b a).getLsbD i = if i < 32 then a.getLsbD i else if i < 64 then b.getLsbD (i - 32)
      else if i < 96 then c.getLsbD (i - 64) else d.getLsbD (i - 96) := by
  simp only [ofLanes, BitVec.getLsbD_append]
  grind

@[simp] theorem lane_ofLanes_0 : lane (ofLanes d c b a) 0 = a := by
  apply BitVec.eq_of_getLsbD_eq
  intro i small
  simp only [lane, getLsbD_ofLanes, BitVec.getLsbD_extractLsb']
  grind

@[simp] theorem lane_ofLanes_1 : lane (ofLanes d c b a) 1 = b := by
  apply BitVec.eq_of_getLsbD_eq
  intro i small
  simp only [lane, getLsbD_ofLanes, BitVec.getLsbD_extractLsb']
  grind

@[simp] theorem lane_ofLanes_2 : lane (ofLanes d c b a) 2 = c := by
  apply BitVec.eq_of_getLsbD_eq
  intro i small
  simp only [lane, getLsbD_ofLanes, BitVec.getLsbD_extractLsb']
  grind

@[simp] theorem lane_ofLanes_3 : lane (ofLanes d c b a) 3 = d := by
  apply BitVec.eq_of_getLsbD_eq
  intro i small
  simp only [lane, getLsbD_ofLanes, BitVec.getLsbD_extractLsb']
  grind

theorem ofLanes_lane (v : M128) : ofLanes (lane v 3) (lane v 2) (lane v 1) (lane v 0) = v := by
  apply BitVec.eq_of_getLsbD_eq
  intro i small
  simp only [lane, getLsbD_ofLanes, BitVec.getLsbD_extractLsb']
  grind

theorem ofLanes_xor (h g f e : BitVec 32) :
    ofLanes d c b a ^^^ ofLanes h g f e = ofLanes (d ^^^ h) (c ^^^ g) (b ^^^ f) (a ^^^ e) := by
  apply BitVec.eq_of_getLsbD_eq
  intro i small
  simp only [getLsbD_ofLanes, BitVec.getLsbD_xor]
  grind

theorem ofLanes_or (h g f e : BitVec 32) :
    ofLanes d c b a ||| ofLanes h g f e = ofLanes (d ||| h) (c ||| g) (b ||| f) (a ||| e) := by
  apply BitVec.eq_of_getLsbD_eq
  intro i small
  simp only [getLsbD_ofLanes, BitVec.getLsbD_or]
  grind

theorem slliSi128_4 : slliSi128 (ofLanes d c b a) 4 = ofLanes c b a 0#32 := by
  apply BitVec.eq_of_getLsbD_eq
  intro i small
  simp only [slliSi128, getLsbD_ofLanes, BitVec.getLsbD_shiftLeft]
  grind

theorem slliSi128_12 : slliSi128 (ofLanes d c b a) 12 = ofLanes a 0#32 0#32 0#32 := by
  apply BitVec.eq_of_getLsbD_eq
  intro i small
  simp only [slliSi128, getLsbD_ofLanes, BitVec.getLsbD_shiftLeft]
  grind

theorem srliSi128_4 : srliSi128 (ofLanes d c b a) 4 = ofLanes 0#32 d c b := by
  apply BitVec.eq_of_getLsbD_eq
  intro i small
  simp only [srliSi128, getLsbD_ofLanes, BitVec.getLsbD_ushiftRight]
  grind

theorem srliSi128_12 : srliSi128 (ofLanes d c b a) 12 = ofLanes 0#32 0#32 0#32 d := by
  apply BitVec.eq_of_getLsbD_eq
  intro i small
  simp only [srliSi128, getLsbD_ofLanes, BitVec.getLsbD_ushiftRight]
  grind

theorem slliEpi32_ofLanes (count : Nat) : slliEpi32 (ofLanes d c b a) count =
    ofLanes (d <<< count) (c <<< count) (b <<< count) (a <<< count) := by
  simp only [slliEpi32, lane_ofLanes_0, lane_ofLanes_1, lane_ofLanes_2, lane_ofLanes_3]

theorem srliEpi32_ofLanes (count : Nat) : srliEpi32 (ofLanes d c b a) count =
    ofLanes (d >>> count) (c >>> count) (b >>> count) (a >>> count) := by
  simp only [srliEpi32, lane_ofLanes_0, lane_ofLanes_1, lane_ofLanes_2, lane_ofLanes_3]

theorem bitValue_ofLanes {R : Type*} [CommRing R] (r : R) : bitValue r (ofLanes d c b a) =
    bitValue r d + r ^ 32 * bitValue r c + r ^ 64 * bitValue r b + r ^ 96 * bitValue r a := by
  rw [ofLanes, bitValue_append, bitValue_append, bitValue_append]

end Lanes

section Halves
variable {R : Type*} [CommRing R] (r : R) (v : M128)

theorem half_append : half v 1 ++ half v 0 = v := by
  apply BitVec.eq_of_getLsbD_eq
  intro i small
  simp only [half, BitVec.getLsbD_append, BitVec.getLsbD_extractLsb']
  grind

theorem bitValue_half : bitValue r v = bitValue r (half v 1) + r ^ 64 * bitValue r (half v 0) := by
  rw [← bitValue_append, half_append]

theorem bitValue_slliSi128_8 : bitValue r (slliSi128 v 8) = bitValue r (half v 0) := by
  have shape : slliSi128 v 8 = half v 0 ++ 0#64 := by
    apply BitVec.eq_of_getLsbD_eq
    intro i small
    simp only [slliSi128, half, BitVec.getLsbD_append, BitVec.getLsbD_extractLsb', BitVec.getLsbD_shiftLeft]
    grind
  rw [shape, bitValue_append, bitValue_zero, mul_zero, add_zero]

theorem bitValue_srliSi128_8 : bitValue r (srliSi128 v 8) = r ^ 64 * bitValue r (half v 1) := by
  have shape : srliSi128 v 8 = 0#64 ++ half v 1 := by
    apply BitVec.eq_of_getLsbD_eq
    intro i small
    simp only [srliSi128, half, BitVec.getLsbD_append, BitVec.getLsbD_extractLsb', BitVec.getLsbD_ushiftRight]
    grind
  rw [shape, bitValue_append, bitValue_zero, zero_add]

end Halves

end Aurora.Crypto
