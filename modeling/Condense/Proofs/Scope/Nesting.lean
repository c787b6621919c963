import Condense.Proofs.Scope.Store
import Condense.Proofs.Scope.Walk
import Mathlib.Data.List.TakeDrop

/-!
The scopes of a tree are nested: every scope that is still in use hangs below exactly one other, and the links outward
end at the global scope.
-/

namespace Condense

open List

/-- What nesting depends on. -/
def Scope.nesting (s : Scope) : Option ScopeId × List ScopeId × Bool × ScopeKind :=
  (s.parent, s.children, s.isDetached, s.kind)

namespace ScopeTree

variable {t : ScopeTree}

def Live (t : ScopeTree) (s : ScopeId) : Prop :=
  s.index < t.scopes.size ∧ (t.scope s).isDetached = false

structure Nested (t : ScopeTree) : Prop where
  rooted : t.Live global ∧ (t.scope global).parent = none
  parent_inside : ∀ s p, (t.scope s).parent = some p → p.index < t.scopes.size
  only_root : ∀ s, s.index < t.scopes.size → (t.scope s).parent = none → s = global
  ranked : ∃ rank : ScopeId → Nat, ∀ s p, (t.scope s).parent = some p → rank p < rank s
  lists : ∀ p c, c ∈ (t.scope p).children ↔ t.Live c ∧ (t.scope c).parent = some p
  live_parent : ∀ s p, t.Live s → (t.scope s).parent = some p → t.Live p
  nodup : ∀ p, (t.scope p).children.Nodup
  detached_kind : ∀ s, (t.scope s).isDetached = true → (t.scope s).kind = .block

theorem nested_new : ({} : ScopeTree).Nested := by
  have single (s : ScopeId) : ({} : ScopeTree).scope s = { kind := .global } := by
    obtain ⟨_ | i⟩ := s <;> rfl
  refine ⟨⟨⟨by decide, rfl⟩, rfl⟩, ?_, ?_, ⟨fun _ => 0, ?_⟩, ?_, ?_, ?_, ?_⟩
  · intro s p link
    simp [single] at link
  · intro s inside _
    obtain ⟨i⟩ := s
    have zero : i = 0 := by
      have : i < 1 := inside
      omega
    rw [zero]
    rfl
  · intro s p link
    simp [single] at link
  · simp [single]
  · intro s p _ link
    simp [single] at link
  · simp [single]
  · intro s dropped
    simp [single] at dropped

theorem Nested.child (nested : t.Nested) (p c : ScopeId) (member : c ∈ (t.scope p).children) :
    (t.scope c).parent = some p ∧ t.Live c :=
  ((nested.lists p c).mp member).symm

theorem Nested.held (nested : t.Nested) (s p : ScopeId) (live : t.Live s) (link : (t.scope s).parent = some p) :
    t.Live p ∧ s ∈ (t.scope p).children :=
  ⟨nested.live_parent s p live link, (nested.lists p s).mpr ⟨live, link⟩⟩

section Congruence

variable {t' : ScopeTree} (size : t'.scopes.size = t.scopes.size)
  (same : ∀ s, (t'.scope s).nesting = (t.scope s).nesting) (s : ScopeId)

include same

theorem parent_congr : (t'.scope s).parent = (t.scope s).parent :=
  congrArg (·.1) (same s)

theorem children_congr : (t'.scope s).children = (t.scope s).children :=
  congrArg (·.2.1) (same s)

theorem isDetached_congr : (t'.scope s).isDetached = (t.scope s).isDetached :=
  congrArg (·.2.2.1) (same s)

theorem kind_congr : (t'.scope s).kind = (t.scope s).kind :=
  congrArg (·.2.2.2) (same s)

include size

theorem live_congr : t'.Live s ↔ t.Live s := by
  simp only [Live, size, isDetached_congr same]

theorem Nested.congr (nested : t.Nested) : t'.Nested := by
  have live := live_congr size same
  have parent := parent_congr same
  have children := children_congr same
  refine ⟨?_, ?_, ?_, ?_, ?_, ?_, ?_, ?_⟩
  · simpa only [live, parent] using nested.rooted
  · simpa only [parent, size] using nested.parent_inside
  · simpa only [parent, size] using nested.only_root
  · simpa only [parent] using nested.ranked
  · simpa only [children, parent, live] using nested.lists
  · simpa only [live, parent] using nested.live_parent
  · simpa only [children] using nested.nodup
  · simpa only [isDetached_congr same, kind_congr same] using nested.detached_kind

end Congruence

/-- Scopes stay nested if some move below another one, and no other hangs below a scope that is dropped. -/
theorem Nested.relinked {t' : ScopeTree} {target : ScopeId} (nested : t.Nested) (moved : ScopeId → Prop)
    [DecidablePred moved] (size : t.scopes.size ≤ t'.scopes.size) (top : t'.Live global) (fixed : ¬ moved global)
    (below : t'.Live target) (alive : ∀ s, moved s → t'.Live s) (old : ∀ s, t'.Live s → ¬ moved s → t.Live s)
    (range : ∀ s, s.index < t'.scopes.size → ¬ moved s → s.index < t.scopes.size)
    (parents : ∀ s, (t'.scope s).parent = if moved s then some target else (t.scope s).parent)
    (outer : ∀ s p, t'.Live s → ¬ moved s → (t.scope s).parent = some p → t'.Live p)
    (ranked : ∃ rank : ScopeId → Nat, ∀ s p, (t'.scope s).parent = some p → rank p < rank s)
    (members : ∀ p c, c ∈ (t'.scope p).children ↔ if moved c then p = target else t'.Live c ∧ c ∈ (t.scope p).children)
    (nodup : ∀ p, (t'.scope p).children.Nodup)
    (detached : ∀ s, (t'.scope s).isDetached → (t'.scope s).kind = .block) : t'.Nested := by
  refine ⟨⟨top, ?_⟩, fun s p link => ?_, fun s inside none => ?_, ranked, fun p c => ?_, fun s p live link => ?_, nodup,
    detached⟩
  · rw [parents, if_neg fixed]
    exact nested.rooted.2
  · rw [parents] at link
    split at link
    · cases link
      exact below.1
    · exact Nat.lt_of_lt_of_le (nested.parent_inside s p link) size
  · rw [parents] at none
    split at none
    · cases none
    · exact nested.only_root s (range s inside ‹_›) none
  · rw [members, parents]
    split
    · simp [alive c ‹_›, eq_comm]
    · rw [nested.lists, and_congr_right_iff]
      exact fun live => and_iff_right (old c live ‹_›)
  · rw [parents] at link
    split at link
    · cases link
      exact below
    · exact outer s p live ‹_› link

theorem Nested.global_not_child (nested : t.Nested) (p : ScopeId) : global ∉ (t.scope p).children := by
  intro member
  have link := (nested.child p global member).1
  rw [nested.rooted.2] at link
  cases link

section Push

variable (kind : ScopeKind) (parent : ScopeId) (owner : Option NodeId)
  (inside : parent.index < t.scopes.size) (s : ScopeId)

include inside

theorem pushScope_scope :
    (t.pushScope kind parent owner).2.scope s =
      if s.index = t.scopes.size then { kind, parent := some parent, owner, useStrict := (t.scope parent).useStrict }
      else if s = parent then { t.scope s with children := (t.scope s).children ++ [⟨t.scopes.size⟩] }
      else t.scope s := by
  split
  · rename_i new
    obtain ⟨i⟩ := s
    obtain rfl : i = t.scopes.size := new
    exact pushScope_scope_new t kind parent owner (by omega)
  · rename_i old
    rw [pushScope_scope_old t kind parent owner s old]
    by_cases here : s = parent
    · simp [here, inside]
    · simp [here]

theorem pushScope_parent :
    ((t.pushScope kind parent owner).2.scope s).parent =
      if s.index = t.scopes.size then some parent else (t.scope s).parent := by
  rw [pushScope_scope kind parent owner inside]
  split_ifs <;> rfl

theorem pushScope_isDetached :
    ((t.pushScope kind parent owner).2.scope s).isDetached =
      if s.index = t.scopes.size then false else (t.scope s).isDetached := by
  rw [pushScope_scope kind parent owner inside]
  split_ifs <;> rfl

theorem pushScope_kind :
    ((t.pushScope kind parent owner).2.scope s).kind =
      if s.index = t.scopes.size then kind else (t.scope s).kind := by
  rw [pushScope_scope kind parent owner inside]
  split_ifs <;> rfl

theorem pushScope_live_iff : (t.pushScope kind parent owner).2.Live s ↔ s.index = t.scopes.size ∨ t.Live s := by
  simp only [Live, pushScope_size, pushScope_isDetached kind parent owner inside]
  by_cases new : s.index = t.scopes.size
  · simp [new]
  · simp only [new, ↓reduceIte, false_or]
    constructor
    all_goals
      intro live
      exact ⟨by omega, live.2⟩

end Push

theorem Nested.pushScope (nested : t.Nested) (kind : ScopeKind) (parent : ScopeId)
    (owner : Option NodeId) (live : t.Live parent) : (t.pushScope kind parent owner).2.Nested := by
  have inside := live.1
  have parents := pushScope_parent kind parent owner inside
  have lives := pushScope_live_iff kind parent owner inside
  have size := t.pushScope_size kind parent owner
  refine nested.relinked (·.index = t.scopes.size) (by omega) ((lives global).mpr (.inr nested.rooted.1))
    (Nat.ne_of_lt nested.rooted.1.1) ((lives parent).mpr (.inr live)) (fun s new => (lives s).mpr (.inl new))
    (fun s alive old => ((lives s).mp alive).resolve_left old) (fun s range old => by omega) parents
    (fun s p alive old link => ?_) ?_ (fun p c => ?_) (fun p => ?_) fun s dropped => ?_
  · exact (lives p).mpr (.inr (nested.live_parent s p (((lives s).mp alive).resolve_left old) link))
  · obtain ⟨rank, ranked⟩ := nested.ranked
    refine ⟨fun s => if s.index = t.scopes.size then rank parent + 1 else rank s, ?_⟩
    intro s p link
    rw [parents] at link
    split at link
    · rename_i new
      cases link
      simp [new, Nat.ne_of_lt inside]
    · rename_i old
      simpa [old, Nat.ne_of_lt (nested.parent_inside s p link)] using ranked s p link
  · have known : c ∈ (t.scope p).children → t.Live c := fun member => (nested.child p c member).2
    rw [pushScope_scope kind parent owner inside, lives]
    have same : c = ⟨t.scopes.size⟩ ↔ c.index = t.scopes.size := ⟨congrArg ScopeId.index, congrArg ScopeId.mk⟩
    have unborn : c.index = t.scopes.size → c ∉ (t.scope p).children := fun new old => Nat.ne_of_lt (known old).1 new
    have outside : p.index = t.scopes.size → (t.scope p).children = [] := fun new => by
      rw [t.scope_outside p (Nat.le_of_eq new.symm)]
    grind
  · rw [pushScope_scope kind parent owner inside]
    split_ifs
    · exact nodup_nil
    · refine nodup_append.mpr ⟨nested.nodup p, by simp, ?_⟩
      intro a old b new same
      obtain rfl := mem_singleton.mp new
      exact Nat.ne_of_lt (nested.child p a old).2.1 (congrArg ScopeId.index same)
    · exact nested.nodup p
  · rw [pushScope_isDetached kind parent owner inside] at dropped
    rw [pushScope_kind kind parent owner inside]
    split at dropped
    · cases dropped
    · rename_i old
      rw [if_neg old]
      exact nested.detached_kind s dropped

/-- The list with `kids` in the place of `id`. -/
theorem spliced_eq (siblings kids : List ScopeId) (id : ScopeId) (member : id ∈ siblings) :
    ∃ before rest, siblings = before ++ id :: rest ∧ (siblings.span (· != id) |> fun (before, after) =>
        match after with
        | [] => before
        | _ :: rest => before ++ kids ++ rest) = before ++ kids ++ rest := by
  obtain ⟨before, rest, split, absent⟩ := eq_append_cons_of_mem member
  refine ⟨before, rest, split, ?_⟩
  have passed : ∀ s ∈ before, (s != id) := by
    intro s earlier
    simp only [bne_iff_ne]
    rintro rfl
    exact absent earlier
  rw [span_eq_takeWhile_dropWhile, split, takeWhile_append_of_pos passed, dropWhile_append_of_pos passed]
  simp

section Collapse

variable {id p : ScopeId}

/-- The tree after the block scope `id` below `p` was dropped. -/
def collapsed (t : ScopeTree) (id p : ScopeId) : ScopeTree :=
  let kids := (t.scope id).children
  let t := t.modifyScope id fun s => { s with children := [] }
  let t := kids.foldl (fun t child => t.modifyScope child fun s => { s with parent := some p }) t
  let t := t.modifyScope p fun s =>
    { s with children := s.children.span (· != id) |> fun (before, after) =>
        match after with
        | [] => before
        | _ :: rest => before ++ kids ++ rest }
  t.modifyScope id fun s => { s with isDetached := true }

/-- A scope is dropped only if it is a block without names. -/
theorem collapseIfEmpty_cases (t : ScopeTree) (id : ScopeId) :
    t.collapseIfEmpty id = (false, t) ∨
      ∃ p, (t.scope id).parent = some p ∧ (t.scope id).fields = #[] ∧ (t.scope id).kind = .block ∧
        t.collapseIfEmpty id = (true, t.collapsed id p) := by
  dsimp only [collapseIfEmpty]
  split
  · exact .inl rfl
  · rename_i empty
    split
    · exact .inl rfl
    · rename_i p link
      simp only [Bool.or_eq_true, Bool.not_eq_eq_eq_not, Bool.not_true, bne_iff_ne, ne_eq, not_or,
        Bool.not_eq_false, Decidable.not_not, Array.isEmpty_iff, Bool.not_eq_true] at empty
      exact .inr ⟨p, link, empty.1.1, empty.1.2, rfl⟩

@[simp] theorem collapsed_size : (t.collapsed id p).scopes.size = t.scopes.size := by
  simp only [collapsed, modifyScope_size, reparent_size]

@[simp] theorem collapsed_fields : (t.collapsed id p).fields = t.fields := by
  simp only [collapsed, modifyScope_fields, reparent_fields]

@[simp] theorem collapsed_field (f : FieldId) : (t.collapsed id p).field f = t.field f := by
  simp only [field, collapsed_fields]

variable (nested : t.Nested) (live : t.Live id) (link : (t.scope id).parent = some p) (s : ScopeId)

include nested link

theorem Nested.not_own_parent : p ≠ id := by
  rintro rfl
  obtain ⟨rank, ranked⟩ := nested.ranked
  exact Nat.lt_irrefl _ (ranked p p link)

theorem Nested.parent_not_child : p ∉ (t.scope id).children := by
  intro member
  obtain ⟨rank, ranked⟩ := nested.ranked
  have up := ranked id p link
  have down := ranked p id (nested.child id p member).1
  omega

omit link in
theorem Nested.not_own_child : id ∉ (t.scope id).children := by
  intro member
  exact nested.not_own_parent (nested.child id id member).1 rfl

include live

theorem collapsed_nesting :
    ∃ before rest, (t.scope p).children = before ++ id :: rest ∧
      ((t.collapsed id p).scope s).nesting = (if s ∈ (t.scope id).children then some p else (t.scope s).parent,
          if s = id then [] else if s = p then before ++ (t.scope id).children ++ rest
            else (t.scope s).children,
          if s = id then true else (t.scope s).isDetached, (t.scope s).kind) := by
  obtain ⟨liveParent, member⟩ := nested.held id p live link
  obtain ⟨before, rest, split, splice⟩ :=
    spliced_eq (t.scope p).children (t.scope id).children id member
  refine ⟨before, rest, split, ?_⟩
  have apart := nested.not_own_parent link
  have parentOut := nested.parent_not_child link
  have selfOut : id ∉ (t.scope id).children := nested.not_own_child
  have range (c : ScopeId) (kid : c ∈ (t.scope id).children) : c.index < t.scopes.size :=
    (nested.child id c kid).2.1
  simp only [collapsed, modifyScope_scope, modifyScope_size, reparent_scope, reparent_size]
  by_cases here : s = id
  · subst here
    simp [live.1, apart.symm, selfOut, Scope.nesting]
  · by_cases above : s = p
    · subst above
      simp only [here, false_and, ↓reduceIte, parentOut, liveParent.1, and_self, Scope.nesting]
      exact congrArg (fun list => ((t.scope s).parent, list, (t.scope s).isDetached, (t.scope s).kind)) splice
    · by_cases kid : s ∈ (t.scope id).children
      · simp [here, above, kid, range s kid, Scope.nesting]
      · simp [here, above, kid, Scope.nesting]

theorem collapsed_parent :
    ((t.collapsed id p).scope s).parent =
      if s ∈ (t.scope id).children then some p else (t.scope s).parent := by
  obtain ⟨_, _, _, view⟩ := collapsed_nesting nested live link s
  exact congrArg (·.1) view

theorem collapsed_isDetached :
    ((t.collapsed id p).scope s).isDetached = if s = id then true else (t.scope s).isDetached := by
  obtain ⟨_, _, _, view⟩ := collapsed_nesting nested live link s
  exact congrArg (·.2.2.1) view

theorem collapsed_kind : ((t.collapsed id p).scope s).kind = (t.scope s).kind := by
  obtain ⟨_, _, _, view⟩ := collapsed_nesting nested live link s
  exact congrArg (·.2.2.2) view

theorem collapsed_live_iff : (t.collapsed id p).Live s ↔ s ≠ id ∧ t.Live s := by
  simp only [Live, collapsed_size, collapsed_isDetached nested live link]
  by_cases here : s = id <;> simp [here]

/-- The children of a dropped scope stand where it stood. -/
theorem mem_collapsed_children (c : ScopeId) :
    c ∈ ((t.collapsed id p).scope s).children ↔
      if c ∈ (t.scope id).children then s = p else (t.collapsed id p).Live c ∧ c ∈ (t.scope s).children := by
  obtain ⟨before, rest, split, view⟩ := collapsed_nesting nested live link s
  rw [show ((t.collapsed id p).scope s).children = _ from congrArg (·.2.1) view, collapsed_live_iff nested live link]
  dsimp only
  have known (q : ScopeId) : c ∈ (t.scope q).children → t.Live c := fun member => (nested.child q c member).2
  have apart := nested.not_own_parent link
  have once (q r : ScopeId) (kid : c ∈ (t.scope q).children) (other : c ∈ (t.scope r).children) : q = r :=
    Option.some.inj ((nested.child q c kid).1.symm.trans (nested.child r c other).1)
  have distinct := nested.nodup p
  rw [split, nodup_append] at distinct
  grind

theorem collapsed_children_nodup : ((t.collapsed id p).scope s).children.Nodup := by
  obtain ⟨before, rest, split, view⟩ := collapsed_nesting nested live link s
  rw [show ((t.collapsed id p).scope s).children = _ from congrArg (·.2.1) view]
  dsimp only
  split
  · exact nodup_nil
  · split
    · have distinct := nested.nodup p
      rw [split, nodup_append, nodup_cons] at distinct
      -- A child of `id` has `id` for its parent, so it is none of the siblings.
      have stranger (c : ScopeId) (kid : c ∈ (t.scope id).children) : c ∉ (t.scope p).children := by
        intro sibling
        have first := (nested.child id c kid).1
        have second := (nested.child p c sibling).1
        rw [first] at second
        exact nested.not_own_parent link (Option.some.inj second).symm
      rw [split] at stranger
      simp only [mem_append, mem_cons, not_or] at stranger
      rw [append_assoc, nodup_append, nodup_append]
      refine ⟨distinct.1, ⟨nested.nodup id, distinct.2.1.2, ?_⟩, ?_⟩
      · rintro a kid b later rfl
        exact (stranger a kid).2.2 later
      · rintro a earlier b other rfl
        rcases mem_append.mp other with kid | later
        · exact (stranger a kid).1 earlier
        · exact distinct.2.2 a earlier a (.tail _ later) rfl
    · exact nested.nodup s

end Collapse

theorem Nested.collapsed (nested : t.Nested) {id p : ScopeId} (live : t.Live id) (link : (t.scope id).parent = some p)
    (block : (t.scope id).kind = .block) : (t.collapsed id p).Nested := by
  have parents := collapsed_parent nested live link
  have lives := collapsed_live_iff nested live link
  have liveParent := (nested.held id p live link).1
  have apart := nested.not_own_parent link
  have notTop : global ≠ id := by
    rintro rfl
    rw [nested.rooted.2] at link
    cases link
  refine nested.relinked (· ∈ (t.scope id).children) (Nat.le_of_eq collapsed_size.symm)
    ((lives global).mpr ⟨notTop, nested.rooted.1⟩) (nested.global_not_child id) ((lives p).mpr ⟨apart, liveParent⟩)
    (fun s kid => ?_) (fun s alive _ => ((lives s).mp alive).2) (fun s range _ => by simpa using range) parents
    (fun s q alive notKid above => ?_) ?_ (mem_collapsed_children nested live link)
    (collapsed_children_nodup nested live link) fun s dropped => ?_
  · obtain ⟨up, alive⟩ := nested.child id s kid
    exact (lives s).mpr ⟨(nested.not_own_parent up).symm, alive⟩
  · have facts := nested.held s q ((lives s).mp alive).2 above
    refine (lives q).mpr ⟨?_, facts.1⟩
    rintro rfl
    exact notKid facts.2
  · obtain ⟨rank, ranked⟩ := nested.ranked
    refine ⟨rank, ?_⟩
    intro s q above
    rw [parents] at above
    split at above
    · rename_i kid
      cases above
      have up := ranked id p link
      have down := ranked s id (nested.child id s kid).1
      omega
    · exact ranked s q above
  · rw [collapsed_isDetached nested live link] at dropped
    rw [collapsed_kind nested live link]
    split at dropped
    · rename_i here
      rwa [here]
    · exact nested.detached_kind s dropped

/-- The children of `old` that were opened since, the scope they move into apart. -/
def movedScopes (t : ScopeTree) (since : Nat) (old new : ScopeId) : List ScopeId :=
  (t.scope old).children.filter fun s => since ≤ s.index && s != new

theorem mem_movedScopes (t : ScopeTree) (since : Nat) (old new s : ScopeId) :
    s ∈ t.movedScopes since old new ↔
      s ∈ (t.scope old).children ∧ since ≤ s.index ∧ s ≠ new := by
  simp [movedScopes]

@[simp] theorem adoptScopes_size (t : ScopeTree) (since : Nat) (old new : ScopeId) :
    (t.adoptScopes since old new).scopes.size = t.scopes.size := by
  dsimp only [adoptScopes]
  split
  · rfl
  · simp only [modifyScope_size, reparent_size]

@[simp] theorem adoptScopes_fields (t : ScopeTree) (since : Nat) (old new : ScopeId) :
    (t.adoptScopes since old new).fields = t.fields := by
  dsimp only [adoptScopes]
  split
  · rfl
  · simp only [modifyScope_fields, reparent_fields]

@[simp] theorem adoptScopes_field (t : ScopeTree) (since : Nat) (old new : ScopeId) (f : FieldId) :
    (t.adoptScopes since old new).field f = t.field f := by
  simp only [field, adoptScopes_fields]

section Adopt

variable (since : Nat) {old new : ScopeId} (nested : t.Nested) (live : t.Live new)
  (link : (t.scope new).parent = some old) (s : ScopeId)

include nested live link

theorem adoptScopes_nesting :
    ((t.adoptScopes since old new).scope s).nesting =
      (if s ∈ t.movedScopes since old new then some new else (t.scope s).parent, if s = old then
          (t.scope old).children.filter fun c => !(t.movedScopes since old new).contains c
        else if s = new then (t.scope new).children ++ t.movedScopes since old new
        else (t.scope s).children,
        (t.scope s).isDetached, (t.scope s).kind) := by
  have apart := nested.not_own_parent link
  have liveOld := (nested.held new old live link).1
  have oldOut : old ∉ t.movedScopes since old new := by
    intro moved
    exact nested.not_own_child ((t.mem_movedScopes since old new old).mp moved).1
  have newOut : new ∉ t.movedScopes since old new := by
    intro moved
    exact ((t.mem_movedScopes since old new new).mp moved).2.2 rfl
  have range (s : ScopeId) (moved : s ∈ t.movedScopes since old new) : s.index < t.scopes.size :=
    (nested.child old s ((t.mem_movedScopes since old new s).mp moved).1).2.1
  change Scope.nesting (scope (if (t.movedScopes since old new).isEmpty then t else _) s) = _
  split
  · rename_i none
    rw [List.isEmpty_iff] at none
    simp only [none, not_mem_nil, ↓reduceIte, append_nil, contains_nil,
      Bool.not_false, Scope.nesting]
    by_cases here : s = old
    · rw [if_pos here, here, filter_eq_self.mpr fun _ _ => rfl]
    · rw [if_neg here]
      by_cases inner : s = new
      · rw [if_pos inner, inner]
      · rw [if_neg inner]
  · change Scope.nesting (scope (modifyScope (List.foldl _ (t.modifyScope old _)
      (t.movedScopes since old new)) new _) s) = _
    simp only [modifyScope_scope, modifyScope_size, reparent_scope, reparent_size]
    by_cases here : s = old
    · subst here
      simp only [apart, false_and, ↓reduceIte, oldOut, liveOld.1, and_self, Scope.nesting]
      rfl
    · by_cases inner : s = new
      · subst inner
        simp only [true_and, live.1, newOut, false_and, ↓reduceIte, here, Scope.nesting]
        rfl
      · by_cases moved : s ∈ t.movedScopes since old new
        · simp only [inner, false_and, ↓reduceIte, moved, range s moved, and_self, here, Scope.nesting]
        · simp only [inner, false_and, ↓reduceIte, moved, here, Scope.nesting]

theorem adoptScopes_parent :
    ((t.adoptScopes since old new).scope s).parent =
      if s ∈ t.movedScopes since old new then some new else (t.scope s).parent :=
  congrArg (·.1) (adoptScopes_nesting since nested live link s)

theorem adoptScopes_isDetached : ((t.adoptScopes since old new).scope s).isDetached = (t.scope s).isDetached :=
  congrArg (·.2.2.1) (adoptScopes_nesting since nested live link s)

theorem adoptScopes_kind : ((t.adoptScopes since old new).scope s).kind = (t.scope s).kind :=
  congrArg (·.2.2.2) (adoptScopes_nesting since nested live link s)

theorem adoptScopes_live_iff : (t.adoptScopes since old new).Live s ↔ t.Live s := by
  simp only [Live, adoptScopes_size, adoptScopes_isDetached since nested live link]

theorem mem_adoptScopes_children (c : ScopeId) :
    c ∈ ((t.adoptScopes since old new).scope s).children ↔
      if c ∈ t.movedScopes since old new then s = new
      else (t.adoptScopes since old new).Live c ∧ c ∈ (t.scope s).children := by
  have moves := t.mem_movedScopes since old new c
  have apart := nested.not_own_parent link
  rw [show (scope _ s).children = _ from congrArg (·.2.1) (adoptScopes_nesting since nested live link s),
    adoptScopes_live_iff since nested live link, and_iff_right_of_imp fun member => (nested.child s c member).2]
  dsimp only
  by_cases moved : c ∈ t.movedScopes since old new
  · rw [if_pos moved]
    have kid := nested.child old c (moves.mp moved).1
    by_cases here : s = old
    · simp [here, moved, apart]
    · by_cases inner : s = new
      · simp [inner, apart.symm, moved]
      · simp only [here, inner, ↓reduceIte, iff_false]
        intro other
        have second := (nested.child s c other).1
        rw [kid.1] at second
        exact here (Option.some.inj second).symm
  · rw [if_neg moved]
    by_cases here : s = old
    · simp [here, moved]
    · by_cases inner : s = new
      · simp [inner, apart.symm, moved]
      · simp [here, inner]

theorem Nested.adoptScopes : (t.adoptScopes since old new).Nested := by
  have parents := adoptScopes_parent since nested live link
  have lives := adoptScopes_live_iff since nested live link
  have apart := nested.not_own_parent link
  have moves := t.mem_movedScopes since old new
  have kid (s : ScopeId) (moved : s ∈ t.movedScopes since old new) := nested.child old s ((moves s).mp moved).1
  refine nested.relinked (· ∈ t.movedScopes since old new) (Nat.le_of_eq (adoptScopes_size ..).symm)
    ((lives global).mpr nested.rooted.1) (fun moved => nested.global_not_child old ((moves global).mp moved).1)
    ((lives new).mpr live) (fun s moved => (lives s).mpr (kid s moved).2) (fun s alive _ => (lives s).mp alive)
    (fun s range _ => by simpa using range) parents
    (fun s p alive _ above => (lives p).mpr (nested.live_parent s p ((lives s).mp alive) above)) ?_
    (mem_adoptScopes_children since nested live link) (fun p => ?_) fun s dropped => ?_
  · obtain ⟨rank, ranked⟩ := nested.ranked
    -- Room is made right below `old` for `new`, above everything else that stood there.
    refine ⟨fun s => if s = new then 2 * rank old + 1 else 2 * rank s, ?_⟩
    intro s p above
    rw [parents] at above
    split at above
    · rename_i moved
      cases above
      have down := ranked s old (kid s moved).1
      simp only [↓reduceIte, ((moves s).mp moved).2.2]
      omega
    · have down := ranked s p above
      have base := ranked new old link
      by_cases inner : s = new
      · subst inner
        rw [link] at above
        cases above
        simp [apart]
      · by_cases under : p = new
        · subst under
          simp only [↓reduceIte, inner]
          omega
        · simp only [inner, under, ↓reduceIte]
          omega
  · rw [show (scope _ p).children = _ from congrArg (·.2.1) (adoptScopes_nesting since nested live link p)]
    dsimp only
    split
    · exact (nested.nodup old).filter _
    · split
      · refine nodup_append.mpr ⟨nested.nodup new, (nested.nodup old).filter _, ?_⟩
        rintro a inner b moved rfl
        have first := (nested.child new a inner).1
        rw [(kid a moved).1] at first
        exact apart (Option.some.inj first)
      · exact nested.nodup p
  · rw [adoptScopes_isDetached since nested live link] at dropped
    rw [adoptScopes_kind since nested live link]
    exact nested.detached_kind s dropped

end Adopt

end ScopeTree

end Condense
