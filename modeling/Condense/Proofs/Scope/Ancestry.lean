import Condense.Proofs.Scope.Nesting
import Condense.Rename.Fields

/-!
The scopes around a scope and those inside of it.
-/

namespace Condense.ScopeTree

open List

variable {t : ScopeTree}
variable {s p a b c id : ScopeId} {rest more : List ScopeId} (depth : Nat)

theorem Nested.descends (nested : t.Nested) : Descends (fun s => (t.scope s).parent) ScopeId.index t.scopes.size where
  injective := by
    rintro ⟨i⟩ ⟨j⟩ same
    exact congrArg ScopeId.mk same
  inside s p _ link := nested.parent_inside s p link
  ranked := by
    obtain ⟨rank, ranked⟩ := nested.ranked
    exact ⟨rank, fun s p _ link => ranked s p link⟩

theorem ancestors_eq_walk (t : ScopeTree) (s : ScopeId) :
    t.ancestors s = walk (fun s => (t.scope s).parent) t.scopes.size s :=
  t.ancestorsUpTo_eq_walk t.scopes.size s

theorem ancestors_congr {t' : ScopeTree} (size : t'.scopes.size = t.scopes.size)
    (same : ∀ s, (t'.scope s).nesting = (t.scope s).nesting) (s : ScopeId) : t'.ancestors s = t.ancestors s := by
  simp only [ancestors_eq_walk, size, parent_congr same]

theorem topDownUpTo_succ (id : ScopeId) : t.topDownUpTo (depth + 1) id = id :: t.belowUpTo depth id := by
  induction depth generalizing id with
  | zero => simp [topDownUpTo, belowUpTo]
  | succ depth ih => rw [topDownUpTo, belowUpTo, funext ih]

namespace Nested

variable (nested : t.Nested)

include nested

theorem ancestors_eq_cons (inside : s.index < t.scopes.size) :
    t.ancestors s = s :: match (t.scope s).parent with
      | some parent => t.ancestors parent
      | none => [] := by
  rw [ancestors_eq_walk, nested.descends.walk_eq_cons s inside .refl]
  cases (t.scope s).parent with
  | none => rfl
  | some parent => simp only [ancestors_eq_walk]

theorem ancestors_of_parent (inside : s.index < t.scopes.size) (link : (t.scope s).parent = some p) :
    t.ancestors s = s :: t.ancestors p := by
  rw [nested.ancestors_eq_cons inside, link]

theorem ancestors_global : t.ancestors global = [global] := by
  rw [nested.ancestors_eq_cons nested.rooted.1.1, nested.rooted.2]

section

variable (inside : s.index < t.scopes.size)

include inside

theorem self_mem_ancestors : s ∈ t.ancestors s := by
  rw [nested.ancestors_eq_cons inside]
  exact .head _

/-- The scopes around a scope are those that its links lead to. -/
theorem leads_iff : a ∈ t.ancestors s ↔ Leads (fun s => (t.scope s).parent) s a := by
  rw [ancestors_eq_walk]
  exact nested.descends.mem_walk_iff .refl inside

theorem ancestors_inside (above : a ∈ t.ancestors s) : a.index < t.scopes.size :=
  nested.descends.leads_inside inside ((nested.leads_iff inside).mp above)

theorem ancestors_nodup : (t.ancestors s).Nodup := by
  rw [ancestors_eq_walk]
  exact nested.descends.walk_nodup _ s inside

theorem not_mem_path (chain : t.ancestors s = rest ++ a :: more) : a ∉ rest := by
  have distinct := nested.ancestors_nodup inside
  rw [chain] at distinct
  exact fun member => (nodup_append.mp distinct).2.2 _ member _ (.head _) rfl

theorem ancestors_length_size : (t.ancestors s).length ≤ t.scopes.size := by
  rw [ancestors_eq_walk]
  exact nested.descends.walk_length _ s inside

theorem ancestors_trans (first : a ∈ t.ancestors s) (second : b ∈ t.ancestors a) : b ∈ t.ancestors s := by
  rw [nested.leads_iff (nested.ancestors_inside inside first)] at second
  rw [nested.leads_iff inside] at first ⊢
  exact first.trans second

theorem ancestors_total (first : a ∈ t.ancestors s) (second : b ∈ t.ancestors s) :
    b ∈ t.ancestors a ∨ a ∈ t.ancestors b := by
  rw [nested.leads_iff (nested.ancestors_inside inside first), nested.leads_iff (nested.ancestors_inside inside second)]
  rw [nested.leads_iff inside] at first second
  exact first.total_of_right_unique (fun _ _ _ one other => Option.some.inj (one.symm.trans other)) second

theorem ancestors_antisymm (first : a ∈ t.ancestors s) (second : s ∈ t.ancestors a) : s = a := by
  rw [nested.leads_iff (nested.ancestors_inside inside first)] at second
  exact nested.descends.leads_antisymm inside ((nested.leads_iff inside).mp first) second

/-- The scope outside of a visited one is visited too. -/
theorem parent_mem_ancestors (above : a ∈ t.ancestors s) (link : (t.scope a).parent = some p) : p ∈ t.ancestors s := by
  have insideA := nested.ancestors_inside inside above
  refine nested.ancestors_trans inside above ?_
  rw [nested.ancestors_of_parent insideA link]
  exact .tail _ (nested.self_mem_ancestors (nested.parent_inside a p link))

/-- Unless it ends there, the way outward goes on with the scope around. -/
theorem ancestors_tail (chain : t.ancestors s = p :: rest ++ a :: more) :
    s = p ∧ ∃ b, (t.scope s).parent = some b ∧ t.ancestors b = rest ++ a :: more := by
  rw [nested.ancestors_eq_cons inside, cons_append] at chain
  obtain ⟨rfl, tail⟩ := List.cons.inj chain
  cases link : (t.scope s).parent with
  | none => simp [link] at tail
  | some b => exact ⟨rfl, b, rfl, by rwa [link] at tail⟩

/-- From any scope on it, the way outward is the rest of the way. -/
theorem ancestors_suffix (chain : t.ancestors s = rest ++ a :: more) : t.ancestors a = a :: more := by
  induction rest generalizing s with
  | nil =>
    obtain ⟨rfl, -⟩ := List.cons.inj ((nested.ancestors_eq_cons inside).symm.trans chain)
    exact chain
  | cons x rest ih =>
    obtain ⟨-, p, link, tail⟩ := nested.ancestors_tail inside chain
    exact ih (nested.parent_inside s p link) tail

end

/-- An induction outward: from the parent of a scope to the scope. -/
theorem outward_induction {motive : ScopeId → Prop} (top : motive global)
    (step : ∀ s p, s.index < t.scopes.size → (t.scope s).parent = some p → motive p → motive s)
    (inside : s.index < t.scopes.size) : motive s := by
  obtain ⟨rank, ranked⟩ := nested.ranked
  induction level : rank s using Nat.strongRecOn generalizing s with
  | ind level ih =>
    cases link : (t.scope s).parent with
    | none => rw [nested.only_root s inside link]; exact top
    | some p =>
      have lower := ranked s p link
      exact step s p inside link (ih (rank p) (by omega) (nested.parent_inside s p link) rfl)

theorem global_mem_ancestors (inside : s.index < t.scopes.size) : global ∈ t.ancestors s := by
  refine nested.outward_induction (motive := fun s => global ∈ t.ancestors s) ?_ ?_ inside
  · exact nested.self_mem_ancestors nested.rooted.1.1
  · intro s p range link above
    rw [nested.ancestors_of_parent range link]
    exact .tail _ above

theorem live_of_mem_ancestors (live : t.Live s) (above : a ∈ t.ancestors s) : t.Live a := by
  refine nested.outward_induction (motive := fun s => t.Live s → a ∈ t.ancestors s → t.Live a) ?_ ?_ live.1 live above
  · intro live above
    rw [nested.ancestors_global, mem_singleton] at above
    exact above ▸ live
  · intro s p range link ih live above
    rw [nested.ancestors_of_parent range link] at above
    rcases mem_cons.mp above with rfl | above
    · exact live
    · exact ih (nested.held s p live link).1 above

theorem live_variableScope (live : t.Live s) : t.Live (t.variableScope s) := by
  unfold variableScope
  cases found : (t.ancestors s).find? fun x => (t.scope x).isVariableScope with
  | none => exact nested.live_of_mem_ancestors live (nested.global_mem_ancestors live.1)
  | some x => exact nested.live_of_mem_ancestors live (mem_of_find?_eq_some found)

section

variable (inside : s.index < t.scopes.size) (link : (t.scope s).parent = some p)

include inside link

/-- What lies outward of a scope, the scope itself apart, lies outward of its parent. -/
theorem mem_ancestors_iff : a ∈ t.ancestors s ↔ a = s ∨ a ∈ t.ancestors p := by
  rw [nested.ancestors_of_parent inside link, mem_cons]

/-- No scope lies outward of its own parent. -/
theorem not_mem_ancestors_parent : s ∉ t.ancestors p := by
  intro above
  have distinct := nested.ancestors_nodup inside
  rw [nested.ancestors_of_parent inside link] at distinct
  exact (nodup_cons.mp distinct).1 above

theorem ancestors_length_parent : (t.ancestors s).length = (t.ancestors p).length + 1 := by
  rw [nested.ancestors_of_parent inside link, length_cons]

end

theorem ancestors_length_le (inside : s.index < t.scopes.size) (above : a ∈ t.ancestors s) :
    (t.ancestors a).length ≤ (t.ancestors s).length := by
  obtain ⟨path, more, chain⟩ := append_of_mem above
  rw [nested.ancestors_suffix inside chain, chain, length_append]
  exact Nat.le_add_left ..

/-- The way from a scope to one outside of it ends with a child of the latter. -/
theorem exists_child (live : t.Live s) (above : a ∈ t.ancestors s) (different : s ≠ a) :
    ∃ c ∈ (t.scope a).children, c ∈ t.ancestors s := by
  refine nested.outward_induction
    (motive := fun s => t.Live s → a ∈ t.ancestors s → s ≠ a →
      ∃ c ∈ (t.scope a).children, c ∈ t.ancestors s) ?_ ?_ live.1 live above different
  · intro _ above different
    rw [nested.ancestors_global, mem_singleton] at above
    exact absurd above.symm different
  · intro s p range link ih live above different
    have facts := nested.held s p live link
    rw [nested.mem_ancestors_iff range link] at above
    rcases above with same | above
    · exact absurd same.symm different
    · by_cases here : p = a
      · subst here
        exact ⟨s, facts.2, nested.self_mem_ancestors range⟩
      · obtain ⟨c, kid, between⟩ := ih facts.1 above here
        exact ⟨c, kid, (nested.mem_ancestors_iff range link).mpr (.inr between)⟩

theorem child_not_mem_ancestors (kid : c ∈ (t.scope p).children) : c ∉ t.ancestors p :=
  nested.not_mem_ancestors_parent (nested.child p c kid).2.1 (nested.child p c kid).1

/-- Nothing is inside of two children of one scope. -/
theorem child_unique {d : ScopeId} (inside : s.index < t.scopes.size) (kidC : c ∈ (t.scope p).children)
    (kidD : d ∈ (t.scope p).children) (aboveC : c ∈ t.ancestors s) (aboveD : d ∈ t.ancestors s) : c = d := by
  have factsC := nested.child p c kidC
  have factsD := nested.child p d kidD
  rcases nested.ancestors_total inside aboveC aboveD with outer | outer
  · rcases (nested.mem_ancestors_iff factsC.2.1 factsC.1).mp outer with same | outer
    · exact same.symm
    · exact absurd outer (nested.child_not_mem_ancestors kidD)
  · rcases (nested.mem_ancestors_iff factsD.2.1 factsD.1).mp outer with same | outer
    · exact same
    · exact absurd outer (nested.child_not_mem_ancestors kidC)

theorem topDownUpTo_sound (live : t.Live id) (listed : s ∈ t.topDownUpTo depth id) : t.Live s ∧ id ∈ t.ancestors s := by
  induction depth generalizing id with
  | zero => simp [topDownUpTo] at listed
  | succ depth ih =>
    rcases mem_cons.mp listed with rfl | inner
    · exact ⟨live, nested.self_mem_ancestors live.1⟩
    · obtain ⟨c, kid, inner⟩ := mem_flatMap.mp inner
      obtain ⟨parent, liveC⟩ := nested.child id c kid
      obtain ⟨liveS, between⟩ := ih liveC inner
      exact ⟨liveS, nested.parent_mem_ancestors liveS.1 between parent⟩

theorem topDownUpTo_complete (live : t.Live s) (above : id ∈ t.ancestors s)
    (deep : (t.ancestors s).length < depth + (t.ancestors id).length) : s ∈ t.topDownUpTo depth id := by
  induction depth generalizing id with
  | zero =>
    have := nested.ancestors_length_le live.1 above
    omega
  | succ depth ih =>
    by_cases here : s = id
    · rw [here]
      exact .head _
    · obtain ⟨c, kid, between⟩ := nested.exists_child live above here
      have facts := nested.child id c kid
      have longer := nested.ancestors_length_parent facts.2.1 facts.1
      exact .tail _ (mem_flatMap.mpr ⟨c, kid, ih between (by omega)⟩)

theorem topDownUpTo_pairwise (live : t.Live id) : (t.topDownUpTo depth id).Pairwise fun x y => y ∉ t.ancestors x := by
  induction depth generalizing id with
  | zero => exact List.Pairwise.nil
  | succ depth ih =>
    refine pairwise_cons.mpr ⟨?_, pairwise_flatMap.mpr ⟨?_, ?_⟩⟩
    · intro y inner above
      obtain ⟨c, kid, inner⟩ := mem_flatMap.mp inner
      have between := (nested.topDownUpTo_sound depth (nested.child id c kid).2 inner).2
      exact nested.child_not_mem_ancestors kid (nested.ancestors_trans live.1 above between)
    · intro c kid
      exact ih (nested.child id c kid).2
    · refine (nested.nodup id).imp_of_mem ?_
      intro c d kidC kidD different x innerX y innerY above
      obtain ⟨liveX, betweenC⟩ := nested.topDownUpTo_sound depth (nested.child id c kidC).2 innerX
      have betweenD := (nested.topDownUpTo_sound depth (nested.child id d kidD).2 innerY).2
      exact different (nested.child_unique liveX.1 kidC kidD betweenC
        (nested.ancestors_trans liveX.1 above betweenD))

/-- The scopes listed from the outside in are those in use. -/
theorem mem_topDown_iff (s : ScopeId) : s ∈ t.topDown ↔ t.Live s := by
  constructor
  · intro listed
    exact (nested.topDownUpTo_sound _ nested.rooted.1 listed).1
  · intro live
    refine nested.topDownUpTo_complete _ live (nested.global_mem_ancestors live.1) ?_
    have := nested.ancestors_length_size live.1
    omega

/-- No scope is listed after one inside of it, or twice. -/
theorem topDown_pairwise : t.topDown.Pairwise fun x y => y ∉ t.ancestors x :=
  nested.topDownUpTo_pairwise _ nested.rooted.1

/-- Every scope in use inside of another one is found below it. -/
theorem mem_below (live : t.Live s) (above : id ∈ t.ancestors s) (different : s ≠ id) : s ∈ t.below id := by
  have short := nested.ancestors_length_size live.1
  have listed := nested.topDownUpTo_complete (t.scopes.size + 2) live above (by omega)
  rw [topDownUpTo_succ] at listed
  exact (mem_cons.mp listed).resolve_left different

end Nested

end Condense.ScopeTree
