import Mathlib.Tactic.Common

/-! Device registers in which some bits are flags that a one clears: a write
replaces the other bits, and a flag survives it only where a zero is written. -/
namespace Lib
variable {w : Nat}

def writeOneToClear (flags old val : BitVec w) : BitVec w :=
  (val &&& ~~~flags) ||| (old &&& ~~~(val &&& flags) &&& flags)

/-- A write without ones at the flags keeps them. -/
theorem writeOneToClear_keep {flags old val : BitVec w} (zeros : val &&& flags = 0#w) :
    writeOneToClear flags old val &&& flags = old &&& flags := by
  ext i bound
  have zero := congrArg (·[i]) zeros
  simp only [BitVec.getElem_and, BitVec.getElem_zero] at zero
  simp only [writeOneToClear, BitVec.getElem_and, BitVec.getElem_or, BitVec.getElem_not, zero]
  cases flags[i] <;> simp

/-- Writing back what was read clears every flag that was set, so such a register
cannot be restored from what was saved of it. -/
theorem writeOneToClear_restore {flags old val : BitVec w} (seen : old &&& flags = val &&& flags) :
    writeOneToClear flags old val = val &&& ~~~flags := by
  ext i bound
  have same := congrArg (·[i]) seen
  simp only [BitVec.getElem_and] at same
  simp only [writeOneToClear, BitVec.getElem_and, BitVec.getElem_or, BitVec.getElem_not]
  revert same
  cases flags[i] <;> cases val[i] <;> cases old[i] <;> decide

theorem and_not_eq_self_iff {flags val : BitVec w} : val &&& ~~~flags = val ↔ val &&& flags = 0#w := by
  constructor
  · intro same
    ext i bound
    have bit := congrArg (·[i]) same
    simp only [BitVec.getElem_and, BitVec.getElem_not] at bit
    simp only [BitVec.getElem_and, BitVec.getElem_zero]
    revert bit
    cases flags[i] <;> cases val[i] <;> decide
  · intro zeros
    ext i bound
    have bit := congrArg (·[i]) zeros
    simp only [BitVec.getElem_and, BitVec.getElem_zero] at bit
    simp only [BitVec.getElem_and, BitVec.getElem_not]
    revert bit
    cases flags[i] <;> cases val[i] <;> decide

/-- A register with one of its flags set or cleared. -/
def setFlag (flag : BitVec w) (on : Bool) (val : BitVec w) : BitVec w :=
  if on then val ||| flag else val &&& ~~~flag

@[simp] theorem setFlag_setFlag (flag : BitVec w) (on before : Bool) (val : BitVec w) :
    setFlag flag on (setFlag flag before val) = setFlag flag on val := by
  ext i bound
  cases on <;> cases before <;> simp [setFlag] <;> cases flag[i] <;> simp

/-- The other bits do not see it. -/
theorem setFlag_and {flag mask : BitVec w} (apart : flag &&& mask = 0#w) (on : Bool) (val : BitVec w) :
    setFlag flag on val &&& mask = val &&& mask := by
  ext i bound
  have zero := congrArg (·[i]) apart
  simp only [BitVec.getElem_and, BitVec.getElem_zero] at zero
  revert zero
  cases on <;> simp [setFlag] <;> cases flag[i] <;> cases mask[i] <;> simp

theorem setFlag_and_self (flag val : BitVec w) : setFlag flag false val &&& flag = 0#w := by
  ext i bound
  simp [setFlag]

theorem setFlag_eq_self_iff {flag val : BitVec w} {on : Bool} :
    setFlag flag on val = val ↔ val &&& flag = if on then flag else 0#w := by
  cases on with
  | false => exact and_not_eq_self_iff
  | true =>
    constructor
    · intro same
      ext i bound
      have bit := congrArg (·[i]) same
      simp only [setFlag, if_true, BitVec.getElem_or] at bit
      simp only [if_true, BitVec.getElem_and]
      revert bit
      cases flag[i] <;> cases val[i] <;> decide
    · intro set
      ext i bound
      have bit := congrArg (·[i]) set
      simp only [if_true, BitVec.getElem_and] at bit
      simp only [setFlag, if_true, BitVec.getElem_or]
      revert bit
      cases flag[i] <;> cases val[i] <;> decide

end Lib
