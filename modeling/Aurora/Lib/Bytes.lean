import Mathlib.Data.Nat.ModEq
import Mathlib.Tactic.Common

/-! Byte strings in fixed-width registers, first byte lowest. A short string loads
as if zeros followed it. -/
namespace Lib

def leValue : List UInt8 → Nat
  | [] => 0
  | b :: bs => b.toNat + 256 * leValue bs

def load (w : Nat) (bytes : List UInt8) : BitVec w := BitVec.ofNat w (leValue bytes)

def byteAt (v : BitVec w) (i : Nat) : UInt8 := UInt8.ofBitVec (v.extractLsb' (8 * i) 8)

/-- The low `n` bytes of a register. -/
def bytes (n : Nat) (v : BitVec w) : List UInt8 := (List.range n).map (byteAt v)

theorem testBit_leValue (list : List UInt8) (i : Nat) :
    (leValue list).testBit i = (list.getD (i / 8) 0).toBitVec.getLsbD (i % 8) := by
  induction list generalizing i with
  | nil => simp [leValue]
  | cons b bs ih =>
    have value : leValue (b :: bs) = 2 ^ 8 * leValue bs + b.toNat := by
      rw [leValue, Nat.add_comm]
      rfl
    rw [value, Nat.testBit_two_pow_mul_add _ b.toNat_lt]
    split
    · rename_i low
      rw [Nat.div_eq_of_lt low, Nat.mod_eq_of_lt low, List.getD_cons_zero]
      rfl
    · rename_i high
      have quotient : i / 8 = (i - 8) / 8 + 1 := by omega
      have rest : i % 8 = (i - 8) % 8 := by omega
      rw [ih, quotient, rest, List.getD_cons_succ]

theorem getLsbD_load (list : List UInt8) (i : Nat) :
    (load w list).getLsbD i = (decide (i < w) && (list.getD (i / 8) 0).toBitVec.getLsbD (i % 8)) := by
  rw [load, BitVec.getLsbD_ofNat, testBit_leValue]

theorem byteAt_load (list : List UInt8) {i : Nat} (inside : 8 * (i + 1) ≤ w) :
    byteAt (load w list) i = list.getD i 0 := by
  apply UInt8.toBitVec_inj.mp
  rw [byteAt]
  apply BitVec.eq_of_getLsbD_eq
  intro k small
  have place : (8 * i + k) / 8 = i ∧ (8 * i + k) % 8 = k := by omega
  rw [BitVec.getLsbD_extractLsb', getLsbD_load, place.1, place.2, decide_eq_true small,
    decide_eq_true (show 8 * i + k < w by omega), Bool.true_and, Bool.true_and]

@[simp] theorem bytes_length (n : Nat) (v : BitVec w) : (bytes n v).length = n := by
  simp [bytes]

theorem bytes_load_take {list : List UInt8} {n : Nat} (long : n ≤ list.length) (room : 8 * n ≤ w) :
    bytes n (load w list) = list.take n := by
  apply List.ext_getElem
  · simp [long]
  · intro i inside _
    rw [bytes_length] at inside
    simp only [bytes, List.getElem_map, List.getElem_range, byteAt_load list (show 8 * (i + 1) ≤ w by omega),
      List.getElem_take]
    exact (List.getElem_eq_getD 0).symm

theorem bytes_load {list : List UInt8} (room : 8 * list.length ≤ w) :
    bytes list.length (load w list) = list := by
  rw [bytes_load_take (Nat.le_refl _) room, List.take_length]

theorem getLsbD_byteAt (v : BitVec w) (i : Nat) {k : Nat} (small : k < 8) :
    (byteAt v i).toBitVec.getLsbD k = v.getLsbD (8 * i + k) := by
  rw [byteAt, BitVec.getLsbD_extractLsb', decide_eq_true small, Bool.true_and]

theorem bytes_getD (v : BitVec w) {n i : Nat} (inside : i < n) : (bytes n v).getD i 0 = byteAt v i := by
  simp [bytes, List.getD, inside]

theorem load_bytes (v : BitVec w) {n : Nat} (whole : w ≤ 8 * n) : load w (bytes n v) = v := by
  apply BitVec.eq_of_getLsbD_eq
  intro i small
  have inside : i / 8 < n := by omega
  have place : 8 * (i / 8) + i % 8 = i := Nat.div_add_mod i 8
  rw [getLsbD_load, decide_eq_true small, Bool.true_and, bytes_getD v inside,
    getLsbD_byteAt v _ (Nat.mod_lt i (by decide)), place]

def xorBytes (a b : List UInt8) : List UInt8 := List.zipWith (· ^^^ ·) a b

theorem xorBytes_length (a b : List UInt8) : (xorBytes a b).length = min a.length b.length :=
  List.length_zipWith

theorem xorBytes_getD {a b : List UInt8} (same : a.length = b.length) (i : Nat) :
    (xorBytes a b).getD i 0 = a.getD i 0 ^^^ b.getD i 0 := by
  by_cases inside : i < a.length
  · simp [xorBytes, List.getD, inside, ← same]
  · simp [xorBytes, List.getD, List.getElem?_zipWith, List.getElem?_eq_none (Nat.not_lt.mp inside),
      List.getElem?_eq_none (same ▸ Nat.not_lt.mp inside)]

theorem xorBytes_append {a b c d : List UInt8} (same : a.length = b.length) :
    xorBytes (a ++ c) (b ++ d) = xorBytes a b ++ xorBytes c d :=
  List.zipWith_append same

/-- Bytes past the end of the shorter operand do not matter. -/
theorem xorBytes_append_right {a b : List UInt8} (short : a.length ≤ b.length) (c : List UInt8) :
    xorBytes a (b ++ c) = xorBytes a b := by
  induction a generalizing b with
  | nil => simp [xorBytes]
  | cons x a ih =>
    cases b with
    | nil => simp at short
    | cons y b =>
      have rest := ih (b := b) (by simpa using short)
      simp only [xorBytes, List.cons_append, List.zipWith_cons_cons] at rest ⊢
      rw [rest]

theorem xorBytes_self_right {a b : List UInt8} (enough : a.length ≤ b.length) :
    xorBytes (xorBytes a b) b = a := by
  induction a generalizing b with
  | nil => simp [xorBytes]
  | cons x a ih =>
    cases b with
    | nil => simp at enough
    | cons y b =>
      have rest := ih (b := b) (by simpa using enough)
      simp only [xorBytes, List.zipWith_cons_cons] at rest ⊢
      rw [rest, UInt8.xor_assoc, UInt8.xor_self, UInt8.xor_zero]

theorem xorBytes_comm (a b : List UInt8) : xorBytes a b = xorBytes b a := by
  rw [xorBytes, xorBytes, List.zipWith_comm]
  simp only [UInt8.xor_comm]

theorem byteAt_xor (v u : BitVec w) (i : Nat) : byteAt (v ^^^ u) i = byteAt v i ^^^ byteAt u i := by
  simp only [byteAt, BitVec.extractLsb'_xor]
  rfl

theorem bytes_xor (n : Nat) (v u : BitVec w) : bytes n (v ^^^ u) = xorBytes (bytes n v) (bytes n u) := by
  apply List.ext_getElem
  · simp [xorBytes_length]
  · intro i _ _
    simp [bytes, xorBytes, byteAt_xor]

end Lib
