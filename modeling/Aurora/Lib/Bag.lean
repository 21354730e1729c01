import Mathlib.Algebra.Order.Group.Multiset
import Mathlib.Data.Multiset.Range
import Mathlib.Tactic.Common

/-! The bounded unordered bag: the abstract object a slot array implements.
Calls are replayed one by one; a replay fails as soon as a call's answer is not
one the bag allows, so acceptance of a history is the whole specification. -/
namespace Lib.Bag

/-- A call together with its answer. -/
inductive Call (α : Type) where
  | put (message : α)
  | full
  | take (message : α)
  | empty
deriving DecidableEq, Repr

variable {α : Type} [DecidableEq α] {capacity : Nat}

def step (capacity : Nat) (bag : Multiset α) : Call α → Option (Multiset α)
  | .put message => if bag.card < capacity then some (message ::ₘ bag) else none
  | .full => if bag.card = capacity then some bag else none
  | .take message => if message ∈ bag then some (bag.erase message) else none
  | .empty => if bag = 0 then some bag else none

def replay (capacity : Nat) (bag : Multiset α) : List (Call α) → Option (Multiset α)
  | [] => some bag
  | call :: rest => (step capacity bag call).bind (replay capacity · rest)

/-! The messages put and taken, in the order of the calls. -/

def puts : List (Call α) → List α
  | [] => []
  | .put message :: rest => message :: puts rest
  | .full :: rest | .take _ :: rest | .empty :: rest => puts rest

def takes : List (Call α) → List α
  | [] => []
  | .take message :: rest => message :: takes rest
  | .put _ :: rest | .full :: rest | .empty :: rest => takes rest

omit [DecidableEq α] in
theorem puts_append (first second : List (Call α)) :
    puts (first ++ second) = puts first ++ puts second := by
  induction first with
  | nil => rfl
  | cons call rest ih => cases call <;> simp only [List.cons_append, puts, ih]

omit [DecidableEq α] in
theorem takes_append (first second : List (Call α)) :
    takes (first ++ second) = takes first ++ takes second := by
  induction first with
  | nil => rfl
  | cons call rest ih => cases call <;> simp only [List.cons_append, takes, ih]

theorem replay_single (bag : Multiset α) (call : Call α) :
    replay capacity bag [call] = step capacity bag call := by
  simp only [replay, Option.bind_fun_some]

theorem replay_append (bag : Multiset α) (first second : List (Call α)) :
    replay capacity bag (first ++ second) =
      (replay capacity bag first).bind (replay capacity · second) := by
  induction first generalizing bag with
  | nil => rfl
  | cons call rest ih =>
    simp only [List.cons_append, replay, Option.bind_assoc]
    congr 1
    funext middle
    exact ih middle

/-- Conservation: what was there and what was put is what was taken and what
is left. -/
theorem replay_balance {bag final : Multiset α} {calls : List (Call α)}
    (accepted : replay capacity bag calls = some final) :
    bag + ↑(puts calls) = ↑(takes calls) + final := by
  induction calls generalizing bag with
  | nil =>
    cases accepted
    simp only [puts, takes, Multiset.coe_nil, add_zero, zero_add]
  | cons call rest ih =>
    obtain ⟨middle, stepped, following⟩ := Option.bind_eq_some_iff.mp accepted
    have tail := ih following
    cases call with
    | put message =>
      simp only [step, Option.ite_none_right_eq_some, Option.some.injEq] at stepped
      obtain ⟨_, rfl⟩ := stepped
      rw [puts, takes, ← tail, ← Multiset.cons_coe, Multiset.cons_add, Multiset.add_cons]
    | full =>
      simp only [step, Option.ite_none_right_eq_some, Option.some.injEq] at stepped
      obtain ⟨_, rfl⟩ := stepped
      exact tail
    | take message =>
      simp only [step, Option.ite_none_right_eq_some, Option.some.injEq] at stepped
      obtain ⟨present, rfl⟩ := stepped
      rw [puts, takes, ← Multiset.cons_coe, Multiset.cons_add, ← tail, ← Multiset.cons_add,
        Multiset.cons_erase present]
    | empty =>
      simp only [step, Option.ite_none_right_eq_some, Option.some.injEq] at stepped
      obtain ⟨_, rfl⟩ := stepped
      exact tail

/-- A taken message was put earlier and not taken in between. -/
theorem replay_take {final : Multiset α} {before after : List (Call α)} {message : α}
    (accepted : replay capacity 0 (before ++ .take message :: after) = some final) :
    (takes before : Multiset α) + {message} ≤ puts before := by
  rw [replay_append] at accepted
  obtain ⟨bag, prior, rest⟩ := Option.bind_eq_some_iff.mp accepted
  obtain ⟨_, stepped, _⟩ := Option.bind_eq_some_iff.mp rest
  simp only [step, Option.ite_none_right_eq_some] at stepped
  have balance := replay_balance prior
  rw [zero_add] at balance
  rw [balance]
  exact add_le_add_right (Multiset.singleton_le.mpr stepped.1) _

/-! A slot array holds at index `i` the message `content i`, or nothing. -/

def contents (content : Nat → Option α) (size : Nat) : Multiset α :=
  ((List.range size).filterMap content : List α)

omit [DecidableEq α] in
theorem contents_congr {content other : Nat → Option α} {size : Nat}
    (same : ∀ i < size, content i = other i) : contents content size = contents other size := by
  have lists : (List.range size).filterMap content = (List.range size).filterMap other :=
    List.filterMap_congr (fun i member => same i (List.mem_range.mp member))
  rw [contents, lists, contents]

/-- What the indices other than `i` hold. -/
def others (content : Nat → Option α) (size i : Nat) : Multiset α :=
  (((List.range size).erase i).filterMap content : List α)

omit [DecidableEq α] in
theorem others_congr {content other : Nat → Option α} {size i : Nat}
    (same : ∀ j < size, j ≠ i → other j = content j) : others other size i = others content size i := by
  have lists : ((List.range size).erase i).filterMap other =
      ((List.range size).erase i).filterMap content := by
    apply List.filterMap_congr
    intro j member
    have inside := (List.nodup_range.mem_erase_iff).mp member
    exact same j (List.mem_range.mp inside.2) inside.1
  rw [others, lists, others]

omit [DecidableEq α] in
/-- Splitting off one index of the array. -/
theorem contents_split (content : Nat → Option α) {size i : Nat} (bound : i < size) :
    contents content size = (content i).elim 0 ({·}) + others content size i := by
  have split := (List.perm_cons_erase (List.mem_range.mpr bound)).filterMap content
  have same : contents content size = ((i :: (List.range size).erase i).filterMap content : List α) :=
    Multiset.coe_eq_coe.mpr split
  rw [same, others]
  cases value : content i with
  | none => rw [List.filterMap_cons_none value, Option.elim_none, zero_add]
  | some message =>
    rw [List.filterMap_cons_some value, Option.elim_some, Multiset.singleton_add, Multiset.cons_coe]

omit [DecidableEq α] in
theorem contents_put {content other : Nat → Option α} {size i : Nat} {message : α} (bound : i < size)
    (vacant : content i = none) (filled : other i = some message)
    (same : ∀ j < size, j ≠ i → other j = content j) :
    contents other size = message ::ₘ contents content size := by
  rw [contents_split other bound, contents_split content bound, vacant, filled, others_congr same,
    Option.elim_some, Option.elim_none, zero_add, Multiset.singleton_add]

theorem contents_take {content other : Nat → Option α} {size i : Nat} {message : α} (bound : i < size)
    (held : content i = some message) (vacated : other i = none)
    (same : ∀ j < size, j ≠ i → other j = content j) :
    message ∈ contents content size ∧
      contents other size = (contents content size).erase message := by
  have whole : contents content size = message ::ₘ contents other size :=
    contents_put bound vacated held (fun j small different => (same j small different).symm)
  rw [whole]
  exact ⟨Multiset.mem_cons_self _ _, (Multiset.erase_cons_head _ _).symm⟩

omit [DecidableEq α] in
theorem contents_card_lt {content : Nat → Option α} {size i : Nat} (bound : i < size)
    (vacant : content i = none) : (contents content size).card < size := by
  have shorter : ((List.range size).filterMap content).length < (List.range size).length :=
    List.length_filterMap_lt_length_iff_exists.mpr ⟨i, List.mem_range.mpr bound, vacant⟩
  rwa [List.length_range] at shorter

omit [DecidableEq α] in
theorem contents_full {content : Nat → Option α} {size : Nat}
    (occupied : ∀ i < size, (content i).isSome) : (contents content size).card = size := by
  have whole : ((List.range size).filterMap content).length = (List.range size).length :=
    List.filterMap_length_eq_length.mpr (fun i member => occupied i (List.mem_range.mp member))
  rwa [List.length_range] at whole

omit [DecidableEq α] in
theorem contents_empty {content : Nat → Option α} {size : Nat}
    (vacant : ∀ i < size, content i = none) : contents content size = 0 := by
  have nothing : (List.range size).filterMap content = [] :=
    List.filterMap_eq_nil_iff.mpr (fun i member => vacant i (List.mem_range.mp member))
  rw [contents, nothing, Multiset.coe_nil]

theorem contents_count (content : Nat → Option α) (size : Nat) (message : α) :
    (contents content size).count message =
      (List.range size).countP (fun i => decide (content i = some message)) := by
  rw [contents, Multiset.coe_count, List.count_filterMap]
  apply List.countP_congr
  intro i _
  rw [beq_iff_eq, decide_eq_true_eq]

/-- Counting marked indices when the mark of one index changes. -/
theorem countP_change {mark other : Nat → Bool} {size i : Nat} (bound : i < size)
    (same : ∀ j < size, j ≠ i → other j = mark j) :
    (List.range size).countP other + (mark i).toNat =
      (List.range size).countP mark + (other i).toNat := by
  induction size with
  | zero => omega
  | succ size ih =>
    simp only [List.range_succ, List.countP_append, List.countP_singleton]
    by_cases last : i = size
    · subst last
      have rest : (List.range i).countP other = (List.range i).countP mark := by
        refine List.countP_congr fun j member => ?_
        have below := List.mem_range.mp member
        rw [same j (by omega) (by omega)]
      rw [rest]
      cases mark i <;> cases other i <;> rfl
    · have rest := ih (by omega) (fun j small => same j (by omega))
      rw [same size (by omega) (Ne.symm last)]
      omega

end Lib.Bag
