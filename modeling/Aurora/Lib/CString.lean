import Mathlib.Data.List.TakeWhile

/-! C strings in byte lists: the bytes before the first zero. -/
namespace Lib

/-- What a `char *` to these bytes denotes. Without a zero among them the
string does not end in the object; then this is the whole list. -/
def cString (bytes : List UInt8) : List UInt8 := bytes.takeWhile (· != 0)

def strlen (bytes : List UInt8) : Nat := (cString bytes).length

theorem cString_append_zero (text rest : List UInt8) : cString (text ++ 0 :: rest) = cString text := by
  induction text with
  | nil => rfl
  | cons byte text ih =>
    unfold cString at ih ⊢
    by_cases zero : byte = 0
    · simp [zero]
    · simp [zero, ih]

theorem cString_eq_self {text : List UInt8} (nonzero : ∀ byte ∈ text, byte ≠ 0) :
    cString text = text :=
  List.takeWhile_eq_self_iff.mpr (by simpa using nonzero)

theorem cString_nonzero {text : List UInt8} : ∀ byte ∈ cString text, byte ≠ 0 := by
  intro byte member
  simpa using List.mem_takeWhile_imp member

theorem cString_starts (text : List UInt8) : cString text <+: text := List.takeWhile_prefix _

/-- Cutting at the first zero loses a later byte that dropping all zeros keeps. -/
theorem cString_length_lt {text : List UInt8} {last : UInt8} (zero : 0 ∈ text) (kept : last ≠ 0) :
    (cString (text ++ [last])).length < ((text ++ [last]).filter (· != 0)).length := by
  obtain ⟨before, after, rfl, first⟩ := List.eq_append_cons_of_mem zero
  have nonzero : ∀ byte ∈ before, byte ≠ 0 := fun byte member same => first (same ▸ member)
  have whole : before.filter (· != 0) = before := List.filter_eq_self.mpr (by simpa using nonzero)
  rw [List.append_assoc, List.cons_append, cString_append_zero, cString_eq_self nonzero,
    List.filter_append, whole]
  simp [kept]

end Lib
