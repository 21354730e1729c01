import Mathlib.Data.List.Basic
import Mathlib.Logic.Function.Basic

/-! Labeled runs of a nondeterministic step relation, grown at the end, so that
a run always speaks about the complete history of what was observed. -/
namespace Lib
variable {S E : Type}

inductive Run (step : S → List E → S → Prop) (start : S) : List E → S → Prop where
  | start : Run step start [] start
  | next : Run step start events s → step s emitted t → Run step start (events ++ emitted) t

namespace Run
variable {step : S → List E → S → Prop} {start : S}

/-- An assertion about history and state that every step carries over. -/
theorem invariant {P : List E → S → Prop} (initial : P [] start)
    (preserved : ∀ {events s emitted t}, P events s → step s emitted t → P (events ++ emitted) t)
    (run : Run step start events s) : P events s := by
  induction run with
  | start => exact initial
  | next _ last ih => exact preserved ih last

theorem single (only : step start emitted t) : Run step start emitted t :=
  Run.next .start only

theorem trans (first : Run step start events s) (second : Run step s more t) :
    Run step start (events ++ more) t := by
  induction second with
  | start => simpa only [List.append_nil] using first
  | next _ last ih => simpa only [List.append_assoc] using Run.next ih last

end Run

/-- One of several threads has moved: whatever runs now is that thread, renewed,
or another one that ran before. -/
theorem update_cases {I T : Type} [DecidableEq I] {threads : I → Option T} {t u : I} {new : Option T}
    {thread : T} (running : Function.update threads t new u = some thread) :
    u = t ∧ new = some thread ∨ u ≠ t ∧ threads u = some thread := by
  by_cases same : u = t
  · subst same
    rw [Function.update_self] at running
    exact Or.inl ⟨rfl, running⟩
  · rw [Function.update_of_ne same] at running
    exact Or.inr ⟨same, running⟩

/-- Every event of a history is justified by what happened before it. -/
def Justified (good : List E → E → Prop) (events : List E) : Prop :=
  ∀ before event after, events = before ++ event :: after → good before event

theorem Justified.nil (good : List E → E → Prop) : Justified good [] := by
  intro before event after split
  simp at split

theorem Justified.concat {good : List E → E → Prop} {events : List E}
    (justified : Justified good events) (last : good events event) :
    Justified good (events ++ [event]) := by
  intro before other after split
  rcases List.eq_nil_or_concat after with rfl | ⟨rest, final, rfl⟩
  · obtain ⟨rfl, same⟩ := List.append_inj' split rfl
    cases same
    exact last
  · rw [List.concat_eq_append, ← List.cons_append, ← List.append_assoc] at split
    obtain ⟨same, _⟩ := List.append_inj' split rfl
    exact justified before other rest same

end Lib
