import Mathlib.Data.Option.Basic

/-! Loops written with fuel. Such a loop is a function of its fuel; it ends after
some number of rounds when more fuel than that changes nothing, and less fuel
does not reach the exit. -/
namespace Lib
variable {R T : Type}

structure Ends (loop : Nat → Option R) (rounds : Nat) (result : R) : Prop where
  short : ∀ fuel ≤ rounds, loop fuel = none
  enough : ∀ fuel, rounds < fuel → loop fuel = some result

namespace Ends
variable {loop rest : Nat → Option R} {rounds : Nat} {result : R}

/-- The loop leaves at its first test. -/
theorem leave (start : loop 0 = none) (stop : ∀ fuel, loop (fuel + 1) = some result) :
    Ends loop 0 result := by
  refine ⟨fun fuel none_left => ?_, fun fuel some_left => ?_⟩
  · rw [Nat.le_zero.mp none_left, start]
  · obtain ⟨more, rfl⟩ := Nat.exists_eq_add_of_lt some_left
    rw [Nat.zero_add, stop]

/-- The loop makes one round and goes on as another one. -/
theorem round (start : loop 0 = none) (next : ∀ fuel, loop (fuel + 1) = rest fuel)
    (ends : Ends rest rounds result) : Ends loop (rounds + 1) result := by
  refine ⟨fun fuel few => ?_, fun fuel many => ?_⟩
  · cases fuel with
    | zero => exact start
    | succ fuel => rw [next, ends.short fuel (by omega)]
  · cases fuel with
    | zero => omega
    | succ fuel => rw [next, ends.enough fuel (by omega)]

theorem map (ends : Ends loop rounds result) (f : R → T) :
    Ends (fun fuel => (loop fuel).map f) rounds (f result) := by
  refine ⟨fun fuel few => ?_, fun fuel many => ?_⟩
  · rw [ends.short fuel few, Option.map_none]
  · rw [ends.enough fuel many, Option.map_some]

end Ends
end Lib
