import Mathlib.Tactic.DeriveTraversable
import Condense.Syntax.Form

/-!
What the exchange of one child does to a form: the first slot that held the old node holds the new one, and everything
else is as it was.
-/

namespace Condense

deriving instance Functor for Form

namespace Form

open Option

variable {α : Type} {old new : α}

/-- What a form is apart from the nodes in its slots. -/
def shape (form : Form α) : Form Unit :=
  form.map fun _ => ()

theorem isExpression_shape (form : Form α) : form.shape.isExpression = form.isExpression := by
  cases form <;> rfl

theorem isExpression_withStatements (form : Form α) (statements : List α) :
    (form.withStatements statements).isExpression = form.isExpression := by
  cases form <;> rfl

theorem notConcise_shape (form : Form α) : form.notConcise.shape = form.shape.notConcise := by
  cases form <;> rfl

/-- Two lists that differ in one place, which holds `old` in the first and `new` in the second. -/
def Swapped (old new : α) (xs ys : List α) : Prop :=
  ∃ before after, xs = before ++ old :: after ∧ ys = before ++ new :: after

theorem of_orElse {β : Type} {P : β → Prop} {first second : Option β} (left : ∀ x, first = some x → P x)
    (right : first = none → ∀ x, second = some x → P x) : ∀ x, (first <|> second) = some x → P x := by
  cases first with
  | none => exact right rfl
  | some _ => exact left

theorem replace_cons_of_ne [BEq α] [LawfulBEq α] {x : α} (other : old ≠ x) (xs : List α) :
    (x :: xs).replace old new = x :: xs.replace old new := by
  rw [List.replace_cons, beq_eq_false_iff_ne.2 other]

theorem map_replace [BEq α] [LawfulBEq α] {β : Type} {f : α → β} (same : f new = f old) (xs : List α) :
    (xs.replace old new).map f = xs.map f := by
  induction xs with
  | nil => rfl
  | cons x xs ih =>
    by_cases here : old = x
    · simp [← here, same]
    · simp [replace_cons_of_ne here, ih]

theorem filterMap_replace [BEq α] [LawfulBEq α] {_ : BEq (Option α)} [LawfulBEq (Option α)] (xs : List (Option α)) :
    (xs.replace (some old) (some new)).filterMap id = (xs.filterMap id).replace old new := by
  induction xs with
  | nil => rfl
  | cons x xs ih =>
    by_cases here : some old = x
    · simp [← here]
    · rw [replace_cons_of_ne here]
      cases x with
      | none => exact ih
      | some x => simpa [replace_cons_of_ne fun same => here (congrArg some same)] using ih

section

variable [DecidableEq α]

theorem swapped_replace {xs : List α} (member : old ∈ xs) : Swapped old new xs (xs.replace old new) := by
  obtain ⟨before, after, rfl, first⟩ := List.eq_append_cons_of_mem member
  exact ⟨before, after, rfl, by rw [List.replace_append_right first, List.replace_cons_self]⟩

theorem exchangeOne_eq_none {x : α} : exchangeOne old new x = none ↔ old ≠ x := by
  unfold exchangeOne
  split <;> simp_all [Ne.symm]

theorem exchangeOptional_eq_none {x : Option α} : exchangeOptional old new x = none ↔ old ∉ x.toList := by
  cases x <;> simp [exchangeOptional, exchangeOne_eq_none]

theorem exchangeFirst_eq (xs : List α) :
    exchangeFirst old new xs = if old ∈ xs then some (xs.replace old new) else none := by
  induction xs with
  | nil => rfl
  | cons x xs ih =>
    unfold exchangeFirst
    by_cases here : x = old
    · simp [here]
    · rw [if_neg here, ih, replace_cons_of_ne (Ne.symm here)]
      by_cases later : old ∈ xs <;> simp [later, Ne.symm here]

theorem exchangeFirst_swapped {xs ys : List α} (found : exchangeFirst old new xs = some ys) :
    Swapped old new xs ys := by
  rw [exchangeFirst_eq] at found
  split at found
  · cases found
    exact swapped_replace ‹_›
  · cases found

theorem exchangeFirstFilled_eq (xs : List (Option α)) :
    exchangeFirstFilled old new xs = exchangeFirst (some old) (some new) xs := by
  induction xs with
  | nil => rfl
  | cons x xs ih => rw [exchangeFirstFilled, exchangeFirst, ih]

/-- Nothing is exchanged exactly where no slot holds the old node. -/
theorem exchange_eq_none (form : Form α) : form.exchange old new = none ↔ old ∉ form.children := by
  cases form
  all_goals
    simp only [exchange, orElse_eq_orElse, orElse_eq_or, or_eq_none_iff,
      map_eq_none_iff, exchangeOne_eq_none, exchangeOptional_eq_none, exchangeFirst_eq,
      exchangeFirstFilled_eq, children, List.mem_append, List.mem_cons, List.not_mem_nil, or_false]
  all_goals grind

/-- An exchange that may be made in one of the slots of a form. -/
def Puts (old new : α) (form : Form α) (made : Option (Form α)) : Prop :=
  ∀ form', made = some form' → form'.children = form.children.replace old new ∧ form'.shape = form.shape

namespace Puts

variable {form : Form α}

theorem one {x : α} {build : α → Form α} (put : x = old → Puts old new form (some (build new))) :
    Puts old new form ((exchangeOne old new x).map build) := by
  unfold exchangeOne
  split
  · exact put ‹_›
  · rintro _ ⟨⟩

theorem optional {x : Option α} {build : Option α → Form α}
    (put : x = some old → Puts old new form (some (build (some new)))) :
    Puts old new form ((exchangeOptional old new x).map build) := by
  cases x with
  | none => rintro _ ⟨⟩
  | some x =>
    rw [exchangeOptional, bind_some, map_map]
    exact one fun here => put (congrArg some here)

theorem many {β : Type} [DecidableEq β] {a b : β} {xs : List β} {build : List β → Form α}
    (put : a ∈ xs → Puts old new form (some (build (xs.replace a b)))) :
    Puts old new form ((exchangeFirst a b xs).map build) := by
  rw [exchangeFirst_eq]
  split
  · exact put ‹_›
  · rintro _ ⟨⟩

end Puts

/-- The first slot that holds the old node gets the new one, and nothing else changes. -/
theorem exchange_puts (form : Form α) : Puts old new form (form.exchange old new) := by
  cases form
  all_goals try simp only [exchange, exchangeFirstFilled_eq]
  all_goals repeat' first
      | rintro _ ⟨⟩
      | refine of_orElse ?_ fun before => ?_
      | refine Puts.one fun here => ?_
      | refine Puts.optional fun here => ?_
      | refine Puts.many fun here => ?_
  -- the slots before the one that is filled anew do not hold the old node
  all_goals
    try simp only [map_eq_none_iff, exchangeOptional_eq_none, exchangeFirst_eq, exchangeOne_eq_none, ite_eq_right_iff,
      reduceCtorEq, imp_false] at *
    try subst here
  all_goals refine ⟨?_, ?_⟩
  all_goals first
    | rfl
    | simp [shape, Form.map, Functor.map, map_replace]
    | exact filterMap_replace _
    | simp_all [children, List.replace_append, replace_cons_of_ne]

theorem mem_children_of_exchange {form form' : Form α} (made : form.exchange old new = some form') :
    old ∈ form.children :=
  Decidable.of_not_not fun absent => by cases made.symm.trans ((exchange_eq_none form).2 absent)

theorem exchange_swapped {form form' : Form α} (made : form.exchange old new = some form') :
    Swapped old new form.children form'.children :=
  (exchange_puts form form' made).1 ▸ swapped_replace (mem_children_of_exchange made)

end

end Form

end Condense
