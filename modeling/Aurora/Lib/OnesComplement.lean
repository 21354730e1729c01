import Mathlib.Data.Nat.ModEq
import Mathlib.Tactic.Common

/-! Sums of 16-bit words with the carry out of the top added back in at the bottom. Any
number stands for such a sum: its residue modulo 65535, with zero kept apart from the
other multiples. A sum over bytes in the wrong order, in pieces or with late carries is
then compared with the right one by what the two numbers stand for. -/
namespace Lib.OnesComplement

/-- The two numbers stand for the same sum. -/
def Same (a b : Nat) : Prop := a ≡ b [MOD 65535] ∧ (a = 0 ↔ b = 0)

theorem Same.refl (a : Nat) : Same a a := ⟨Nat.ModEq.refl a, Iff.rfl⟩

theorem Same.symm (same : Same a b) : Same b a := ⟨same.1.symm, same.2.symm⟩

theorem Same.trans (first : Same a b) (second : Same b c) : Same a c :=
  ⟨first.1.trans second.1, first.2.trans second.2⟩

theorem Same.add (left : Same a b) (right : Same c d) : Same (a + c) (b + d) := by
  refine ⟨left.1.add right.1, ?_⟩
  rw [Nat.add_eq_zero_iff, Nat.add_eq_zero_iff, left.2, right.2]

theorem Same.mul (factor : Nat) (same : Same a b) : Same (factor * a) (factor * b) := by
  refine ⟨same.1.mul_left factor, ?_⟩
  rw [Nat.mul_eq_zero, Nat.mul_eq_zero, same.2]

/-- A 16-bit number is all that it stands for. -/
theorem Same.eq (same : Same a b) (small : a ≤ 65535) (little : b ≤ 65535) : a = b := by
  obtain ⟨residue, zero⟩ := same
  unfold Nat.ModEq at residue
  omega

/-- Two bytes of shift are none. -/
theorem same_shift (a : Nat) : Same (256 * (256 * a)) a := by
  refine ⟨?_, by omega⟩
  unfold Nat.ModEq
  omega

/-- The addition of the machines that have one. -/
def add (a b : Nat) : Nat := if a + b < 65536 then a + b else a + b - 65535

theorem add_same (small : a ≤ 65535) (little : b ≤ 65535) : Same (add a b) (a + b) ∧ add a b ≤ 65535 := by
  unfold Same Nat.ModEq add
  split <;> omega

/-! One carry at a time, and the two bytes of a word exchanged. -/

def fold (u : Nat) : Nat := u / 65536 + u % 65536

def swap (w : Nat) : Nat := w % 256 * 256 + w / 256 % 256

theorem fold_same (u : Nat) : Same (fold u) u := by
  unfold Same Nat.ModEq fold
  omega

theorem fold_le {u : Nat} (small : u ≤ 131070) : fold u ≤ 65535 := by
  unfold fold
  omega

theorem fold_fold_le {u : Nat} (small : u < 4294967296) : fold (fold u) ≤ 65535 :=
  fold_le (by unfold fold; omega)

theorem swap_same {w : Nat} (small : w ≤ 65535) : Same (swap w) (256 * w) := by
  have split : 256 * w = swap w + 65535 * (w / 256) := by
    unfold swap
    omega
  refine ⟨?_, by unfold swap; omega⟩
  rw [split]
  exact (Nat.add_mul_mod_self_left _ _ _).symm

theorem swap_le (w : Nat) : swap w ≤ 65535 := by
  unfold swap
  omega

theorem swap_complement {w : Nat} (small : w ≤ 65535) : swap (65535 - w) = 65535 - swap w := by
  unfold swap
  omega

/-! Bytes, as the high and low halves of words in turn. -/

/-- The sum of the words, the first byte in the high half or the low one. -/
def weigh : Bool → List UInt8 → Nat
  | _, [] => 0
  | true, byte :: rest => 256 * byte.toNat + weigh false rest
  | false, byte :: rest => byte.toNat + weigh true rest

/-- The sum of a byte string: of its big-endian words, the last one filled up with a
zero byte. -/
def sum : List UInt8 → Nat
  | [] => 0
  | [byte] => 256 * byte.toNat
  | high :: low :: rest => add (256 * high.toNat + low.toNat) (sum rest)

theorem sum_same (data : List UInt8) : Same (sum data) (weigh true data) ∧ sum data ≤ 65535 := by
  fun_induction sum data with
  | case1 => exact ⟨Same.refl 0, by decide⟩
  | case2 byte =>
    have small := byte.toNat_lt
    exact ⟨Same.refl _, by omega⟩
  | case3 high low rest ih =>
    have first := high.toNat_lt
    have second := low.toNat_lt
    obtain ⟨same, small⟩ := add_same (show 256 * high.toNat + low.toNat ≤ 65535 by omega) ih.2
    refine ⟨same.trans ?_, small⟩
    simp only [weigh, ← Nat.add_assoc]
    exact (Same.refl _).add ih.1

theorem weigh_append (high : Bool) (front rest : List UInt8) :
    weigh high (front ++ rest) = weigh high front + weigh (high ^^ decide (front.length % 2 = 1)) rest := by
  induction front generalizing high with
  | nil => simp [weigh]
  | cons byte front ih =>
    have parity : decide ((byte :: front).length % 2 = 1) = !decide (front.length % 2 = 1) := by
      rw [List.length_cons, ← decide_not, decide_eq_decide]
      omega
    cases high
    all_goals
      rw [List.cons_append, weigh, weigh, ih, parity, Nat.add_assoc]
      simp

/-- In the other halves a byte string weighs 256 times as much. -/
theorem weigh_same (data : List UInt8) : Same (weigh false data) (256 * weigh true data) := by
  induction data with
  | nil => exact Same.refl 0
  | cons byte rest ih =>
    rw [weigh, weigh, Nat.mul_add]
    exact (same_shift _).symm.add ((same_shift _).symm.trans (ih.mul 256).symm)

theorem weigh_le (high : Bool) : ∀ data : List UInt8, weigh high data ≤ 65535 * ((data.length + 1) / 2)
  | [] => Nat.zero_le _
  | [byte] => by
    have small := byte.toNat_lt
    cases high <;> simp only [weigh, List.length_singleton] <;> omega
  | first :: second :: rest => by
    have ih := weigh_le high rest
    have small := first.toNat_lt
    have little := second.toNat_lt
    cases high <;> simp only [weigh, List.length_cons] <;> omega

end Lib.OnesComplement
