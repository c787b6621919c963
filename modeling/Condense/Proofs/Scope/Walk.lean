import Mathlib.Logic.Relation
import Condense.Scope.Basic

/-!
Walks along links from one index to the next.
-/

namespace Condense

open List

section Walks

variable {α : Type}

/-- The indices from `start` on along `next`, at most so many of them. -/
def walk (next : α → Option α) : Nat → α → List α
  | 0, _ => []
  | steps + 1, start =>
    start :: match next start with
      | some following => walk next steps following
      | none => []

/-- What is reached along `next`. -/
abbrev Leads (next : α → Option α) : α → α → Prop :=
  Relation.ReflTransGen fun a b => next a = some b

/-- Links that stay inside of a store and lead down in some rank. -/
structure Descends (next : α → Option α) (index : α → Nat) (size : Nat) : Prop where
  injective : ∀ a b, index a = index b → a = b
  inside : ∀ a b, index a < size → next a = some b → index b < size
  ranked : ∃ rank : α → Nat, ∀ a b, index a < size → next a = some b → rank b < rank a

theorem walk_take (next : α → Option α) (steps : Nat) (start : α) :
    walk next steps start = (walk next (steps + 1) start).take steps := by
  induction steps generalizing start with
  | zero => rfl
  | succ steps ih =>
    unfold walk
    cases found : next start with
    | none => simp
    | some following => simp only [take_succ_cons, ← ih following]

theorem leads_of_mem_walk {next : α → Option α} {steps : Nat} {start a : α} (member : a ∈ walk next steps start) :
    Leads next start a := by
  induction steps generalizing start with
  | zero => cases member
  | succ steps ih =>
    rcases mem_cons.mp member with rfl | later
    · exact .refl
    · cases found : next start with
      | none => simp [found] at later
      | some following =>
        rw [found] at later
        exact .head found (ih later)

namespace Descends

variable {next : α → Option α} {index : α → Nat} {size : Nat} (descends : Descends next index size)

include descends

theorem leads_inside {a b : α} (inside : index a < size) (leads : Leads next a b) : index b < size := by
  induction leads with
  | refl => exact inside
  | tail _ link ih => exact descends.inside _ _ ih link

/-- Links do not lead back. -/
theorem not_leads_back {a b : α} (inside : index a < size) (link : next a = some b) : ¬ Leads next b a := by
  obtain ⟨rank, ranked⟩ := descends.ranked
  have lower {c : α} (leads : Leads next b c) : rank c < rank a := by
    induction leads with
    | refl => exact ranked a b inside link
    | tail before link' ih =>
      have insideNext := descends.leads_inside (descends.inside a b inside link) before
      exact Nat.lt_trans (ranked _ _ insideNext link') ih
  exact fun back => Nat.lt_irrefl _ (lower back)

/-- Two indices that lead to each other are the same. -/
theorem leads_antisymm {a b : α} (inside : index a < size)
    (first : Leads next a b) (second : Leads next b a) : a = b := by
  rcases first.cases_head with same | ⟨following, link, rest⟩
  · exact same
  · exact absurd (rest.trans second) (descends.not_leads_back inside link)

theorem walk_nodup (steps : Nat) (start : α) (inside : index start < size) : (walk next steps start).Nodup := by
  induction steps generalizing start with
  | zero => simp [walk]
  | succ steps ih =>
    unfold walk
    cases found : next start with
    | none => simp
    | some following =>
      refine nodup_cons.mpr ⟨fun member => ?_, ih following (descends.inside start following inside found)⟩
      exact descends.not_leads_back inside found (leads_of_mem_walk member)

theorem walk_length (steps : Nat) (start : α)
    (inside : index start < size) : (walk next steps start).length ≤ size := by
  have nodup : ((walk next steps start).map index).Nodup :=
    pairwise_map.mpr ((descends.walk_nodup steps start inside).imp
      fun different same => different (descends.injective _ _ same))
  have bounded : (walk next steps start).map index ⊆ List.range size := by
    intro i member
    obtain ⟨a, visited, rfl⟩ := mem_map.mp member
    exact mem_range.mpr (descends.leads_inside inside (leads_of_mem_walk visited))
  have short := nodup.length_le_of_subset bounded
  simpa using short

section

variable {steps : Nat} (start : α) (inside : index start < size) (enough : size ≤ steps)

include inside enough

/-- A bound of at least the size of the store is never reached. -/
theorem walk_saturated : walk next (steps + 1) start = walk next steps start := by
  have short := descends.walk_length (steps + 1) start inside
  rw [walk_take next steps start, take_of_length_le (Nat.le_trans short enough)]

theorem walk_eq_cons : walk next steps start = start :: match next start with
      | some following => walk next steps following
      | none => [] := by
  rw [← descends.walk_saturated start inside enough]
  rfl

end

/-- A walk visits all that is reached. -/
theorem mem_walk_iff {steps : Nat} (enough : size ≤ steps) {a b : α}
    (inside : index a < size) : b ∈ walk next steps a ↔ Leads next a b := by
  refine ⟨leads_of_mem_walk, fun leads => ?_⟩
  induction leads using Relation.ReflTransGen.head_induction_on with
  | refl =>
    rw [descends.walk_eq_cons b inside enough]
    exact .head _
  | @head a following link _ ih =>
    rw [descends.walk_eq_cons a inside enough, link]
    exact .tail _ (ih (descends.inside a following inside link))

end Descends

end Walks

namespace ScopeTree

theorem ancestorsUpTo_eq_walk (t : ScopeTree) (steps : Nat) (id : ScopeId) :
    t.ancestorsUpTo steps id = walk (fun s => (t.scope s).parent) steps id := by
  induction steps generalizing id with
  | zero => rfl
  | succ steps ih =>
    unfold ancestorsUpTo walk
    cases (t.scope id).parent with
    | none => rfl
    | some parent => simp only [ih parent]

theorem outerChainUpTo_eq_walk (t : ScopeTree) (steps : Nat) (id : FieldId) :
    t.outerChainUpTo steps id = walk (fun f => (t.field f).outer) steps id := by
  induction steps generalizing id with
  | zero => rfl
  | succ steps ih =>
    unfold outerChainUpTo walk
    cases (t.field id).outer with
    | none => rfl
    | some outer => simp only [ih outer]

end ScopeTree

end Condense
