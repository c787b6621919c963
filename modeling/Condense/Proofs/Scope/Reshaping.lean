import Condense.Proofs.Scope.Ancestry
import Mathlib.Data.List.Nodup

/-!
Scopes form a tree at any time, in whatever order they are opened, dropped and moved into one another.
-/

namespace Condense.ScopeTree

open List

variable {t t' : ScopeTree}

inductive Reshapes (t : ScopeTree) : ScopeTree → Prop
  | push (kind : ScopeKind) (owner : Option NodeId) {parent : ScopeId} :
    t.Live parent → Reshapes t (t.pushScope kind parent owner).2
  | collapse {id : ScopeId} : t.Live id → Reshapes t (t.collapseIfEmpty id).2
  | adopt (since : Nat) {old new : ScopeId} :
    t.Live old → new ∈ (t.scope old).children → Reshapes t (t.adoptScopes since old new)
  | annotate {t' : ScopeTree} : t'.scopes.size = t.scopes.size →
    (∀ s, (t'.scope s).nesting = (t.scope s).nesting) → Reshapes t t'

theorem Nested.reshapes (nested : t.Nested) (step : t.Reshapes t') : t'.Nested := by
  cases step with
  | push kind owner live => exact nested.pushScope kind _ owner live
  | @collapse id live =>
    rcases t.collapseIfEmpty_cases id with same | ⟨p, link, -, block, same⟩
    · rwa [same]
    · rw [same]
      exact nested.collapsed live link block
  | adopt since _ member =>
    obtain ⟨link, live⟩ := nested.child _ _ member
    exact Nested.adoptScopes since nested live link
  | annotate size same => exact nested.congr size same

theorem nested_of_reshaped (reached : Relation.ReflTransGen Reshapes {} t) : t.Nested := by
  induction reached with
  | refl => exact nested_new
  | tail _ step ih => exact ih.reshapes step

namespace Nested

variable (nested : t.Nested)

include nested

theorem children_count {s p : ScopeId} (live : t.Live s) (link : (t.scope s).parent = some p) (q : ScopeId) :
    (t.scope q).children.count s = if q = p then 1 else 0 := by
  split
  · rename_i same
    rw [same]
    exact count_eq_one_of_mem (nested.nodup p) (nested.held s p live link).2
  · rename_i other
    refine count_eq_zero.mpr fun member => other ?_
    have second := (nested.child q s member).1
    rw [link] at second
    exact (Option.some.inj second).symm

theorem ancestors_getLast? {s : ScopeId} (inside : s.index < t.scopes.size) :
    (t.ancestors s).getLast? = some global := by
  refine nested.outward_induction (motive := fun s => (t.ancestors s).getLast? = some global) ?_ ?_ inside
  · rw [nested.ancestors_global]
    rfl
  · intro s p range link above
    rw [nested.ancestors_of_parent range link, getLast?_cons, above]
    rfl

theorem topDown_nodup : t.topDown.Nodup := by
  refine nested.topDown_pairwise.imp_of_mem ?_
  rintro x y listed - apart rfl
  exact apart (nested.self_mem_ancestors ((nested.mem_topDown_iff x).mp listed).1)

/-- A scope is listed after the one around it. -/
theorem topDown_idxOf_lt {s p : ScopeId} (live : t.Live s) (link : (t.scope s).parent = some p) :
    t.topDown.idxOf p < t.topDown.idxOf s := by
  have inner := (nested.mem_topDown_iff s).mpr live
  have outer := (nested.mem_topDown_iff p).mpr (nested.held s p live link).1
  have above := nested.parent_mem_ancestors live.1 (nested.self_mem_ancestors live.1) link
  rcases Nat.lt_trichotomy (t.topDown.idxOf p) (t.topDown.idxOf s) with before | same | after
  · exact before
  · exact absurd ((idxOf_inj outer).mp same) (nested.not_own_parent link)
  · have apart := pairwise_iff_getElem.mp nested.topDown_pairwise _ _ (idxOf_lt_length_of_mem inner)
      (idxOf_lt_length_of_mem outer) after
    rw [getElem_idxOf, getElem_idxOf] at apart
    exact absurd above apart

end Nested

/-- Scopes that are opened below scopes in use, dropped while in use and moved into a child of the scope they are in
form a tree: each but the outermost is listed once, below the scope that it names as its parent, all ways outward end
at the outermost, and the list of all scopes in use names each once and after its parent. -/
theorem reshaped_isTree (reached : Relation.ReflTransGen Reshapes {} t) :
    (∀ s, t.Live s → s ≠ global → ∃ p, (t.scope s).parent = some p ∧ t.Live p ∧
      ∀ q, (t.scope q).children.count s = if q = p then 1 else 0) ∧
    (t.scope global).parent = none ∧
    (∀ s, s.index < t.scopes.size → (t.ancestors s).getLast? = some global) ∧
    t.topDown.Nodup ∧ (∀ s, s ∈ t.topDown ↔ t.Live s) ∧
    ∀ s p, t.Live s → (t.scope s).parent = some p → t.topDown.idxOf p < t.topDown.idxOf s := by
  have nested := nested_of_reshaped reached
  refine ⟨?_, nested.rooted.2, fun s => nested.ancestors_getLast?, nested.topDown_nodup, nested.mem_topDown_iff,
    fun s p => nested.topDown_idxOf_lt⟩
  intro s live inner
  cases link : (t.scope s).parent with
  | none => exact absurd (nested.only_root s live.1 link) inner
  | some p => exact ⟨p, rfl, (nested.held s p live link).1, nested.children_count live link⟩

/-- A function scope takes in a block that was opened before it, and a block around both is dropped. -/
theorem reshaped_isTree_arrow :
    let block := (({} : ScopeTree).pushScope .block global).2
    let inner := (block.pushScope .block ⟨1⟩).2
    let arrow := (inner.pushScope .function ⟨1⟩).2
    let t := ((arrow.adoptScopes 2 ⟨1⟩ ⟨3⟩).collapseIfEmpty ⟨1⟩).2
    t.topDown = [global, ⟨3⟩, ⟨2⟩] ∧ t.topDown.Nodup := by
  intro block inner arrow t
  refine ⟨by decide, (reshaped_isTree (t := t) ?_).2.2.2.1⟩
  refine .tail (.tail (.tail (.tail (.tail .refl (.push .block none ?_)) (.push .block none ?_))
    (.push .function none ?_)) (.adopt 2 ?_ ?_)) (.collapse ?_)
  all_goals first | exact ⟨by decide, by decide⟩ | decide

end Condense.ScopeTree
