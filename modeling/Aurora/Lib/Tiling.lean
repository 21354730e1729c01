import Mathlib.Data.List.Perm.Basic
import Mathlib.Data.List.Sort
import Mathlib.Order.Basic

/-! Pieces of a line, each from its `start` up to its `stop`: when two of them clash, in
what order a list holds them, and when it tiles the line without a hole. -/
namespace Lib.Tiling

variable {α : Type} (start stop : α → Nat)

/-- Neither piece begins inside the other, and they begin apart. -/
def Apart (a b : α) : Prop :=
  start a ≠ start b ∧ ¬ (start a < start b ∧ start b < stop a) ∧ ¬ (start b < start a ∧ start a < stop b)

def Before (a b : α) : Prop := start a < start b ∧ stop a ≤ start b

/-- Each piece begins where the one in front of it ends, the first one at a position. -/
def Tiles : Nat → List α → Prop
  | _, [] => True
  | position, a :: rest => position = start a ∧ Tiles (stop a) rest

/-- Where a tiling ends. -/
def reach : Nat → List α → Nat
  | position, [] => position
  | _, a :: rest => reach (stop a) rest

variable {start stop}

theorem apart_comm {a b : α} : Apart start stop a b ↔ Apart start stop b a := by
  unfold Apart
  omega

theorem apart_iff_of_lt {a b : α} (less : start a < start b) : Apart start stop a b ↔ stop a ≤ start b := by
  unfold Apart
  omega

theorem Before.apart {a b : α} (before : Before start stop a b) : Apart start stop a b :=
  (apart_iff_of_lt before.1).mpr before.2

instance : Std.Antisymm (Before start stop) :=
  ⟨fun _ _ first second => absurd first.1 (Nat.lt_asymm second.1)⟩

theorem tiles_append {position : Nat} {front rest : List α} :
    Tiles start stop position (front ++ rest) ↔
      Tiles start stop position front ∧ Tiles start stop (reach stop position front) rest := by
  induction front generalizing position with
  | nil => simp [Tiles, reach]
  | cons a front ih => simp only [List.cons_append, Tiles, reach, ih, and_assoc]

theorem reach_concat {position : Nat} {front : List α} {a : α} : reach stop position (front ++ [a]) = stop a := by
  induction front generalizing position with
  | nil => rfl
  | cons b front ih => exact ih

theorem Tiles.le_start {position : Nat} {list : List α} (tiles : Tiles start stop position list)
    (proper : ∀ a ∈ list, start a < stop a) : ∀ a ∈ list, position ≤ start a := by
  induction list generalizing position with
  | nil => simp
  | cons a rest ih =>
    obtain ⟨here, proper⟩ := List.forall_mem_cons.mp proper
    obtain ⟨rfl, tiles⟩ := tiles
    refine List.forall_mem_cons.mpr ⟨Nat.le_refl _, fun b inside => ?_⟩
    have := ih tiles proper b inside
    omega

theorem Tiles.pairwise {position : Nat} {list : List α} (tiles : Tiles start stop position list)
    (proper : ∀ a ∈ list, start a < stop a) : list.Pairwise (Before start stop) := by
  induction list generalizing position with
  | nil => exact .nil
  | cons a rest ih =>
    obtain ⟨here, proper⟩ := List.forall_mem_cons.mp proper
    have later := tiles.2.le_start proper
    exact .cons (fun b inside => ⟨by have := later b inside; omega, later b inside⟩) (ih tiles.2 proper)

/-- A part of a tiling that is one itself and reaches the end is all of it. -/
theorem Tiles.eq_of_sublist {position : Nat} {part list : List α} (tiles : Tiles start stop position list)
    (proper : ∀ a ∈ list, start a < stop a) (fewer : part.Sublist list) (own : Tiles start stop position part)
    (ends : ∀ a ∈ list.getLast?, a ∈ part) : part = list := by
  induction fewer generalizing position with
  | slnil => rfl
  | @cons part rest a fewer ih =>
    obtain ⟨here, proper⟩ := List.forall_mem_cons.mp proper
    obtain ⟨rfl, tiles⟩ := tiles
    cases part with
    | nil => simp [List.getLast?_cons] at ends
    | cons b part =>
      have := tiles.le_start proper b (fewer.subset List.mem_cons_self)
      have := own.1
      omega
  | @cons_cons part rest a fewer ih =>
    obtain ⟨here, proper⟩ := List.forall_mem_cons.mp proper
    refine congrArg _ (ih tiles.2 proper own.2 fun b last => ?_)
    have inside := List.mem_of_getLast? last
    have later := tiles.2.le_start proper b inside
    have whole : (a :: rest).getLast? = some b := by
      rw [List.getLast?_cons, Option.mem_def.mp last]
      rfl
    obtain rfl | there := List.mem_cons.mp (ends b whole)
    · omega
    · exact there

end Lib.Tiling
