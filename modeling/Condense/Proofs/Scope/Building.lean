import Condense.Proofs.Scope.Linking

/-!
Scopes and fields that are added to a scope tree which is linked already, as the next chunk of a compilation adds
them.
-/

namespace Condense.ScopeTree

variable {base t t' : ScopeTree}

/-- Old scopes hang where they did and old fields stand for what they did; new fields stand for themselves. No
reference is counted. -/
structure BuiltOn (base t : ScopeTree) : Prop extends base.Keeps t where
  scopes : base.scopes.size ≤ t.scopes.size
  parent : ∀ s, s.index < base.scopes.size → (t.scope s).parent = (base.scope s).parent
  kind : ∀ s, s.index < base.scopes.size → (t.scope s).kind = (base.scope s).kind
  unlinked : ∀ f, base.fields.size ≤ f.index → (t.field f).outer = none
  refCount : ∀ f, (t.field f).refCount = (base.field f).refCount

theorem BuiltOn.refl (t : ScopeTree) : t.BuiltOn t where
  toKeeps := .refl t
  scopes := .refl
  parent _ _ := rfl
  kind _ _ := rfl
  unlinked f outside := by rw [t.field_outside f outside]
  refCount _ := rfl

namespace BuiltOn

variable (built : base.BuiltOn t)

include built

theorem ancestors (nested : base.Nested) (nested' : t.Nested) {s : ScopeId} (old : s.index < base.scopes.size) :
    t.ancestors s = base.ancestors s := by
  apply nested.outward_induction (motive := fun s => t.ancestors s = base.ancestors s) _ _ old
  · rw [nested.ancestors_global, nested'.ancestors_global]
  · intro s p old link ih
    have link' : (t.scope s).parent = some p := (built.parent s old).trans link
    rw [nested.ancestors_of_parent old link, nested'.ancestors_of_parent (Nat.lt_of_lt_of_le old built.scopes) link',
      ih]

theorem linked (linked : base.Linked) (held : t.Held) : t.Linked := by
  refine linked.extended held built.toKeeps (fun s old => ?_) fun f o new _ link => ?_
  · exact ⟨built.ancestors linked.nested held.nested old, built.parent s old, built.kind s old⟩
  · rw [built.unlinked f new] at link
    cases link

/-- Only the new scopes are rearranged. -/
theorem rearranged (grown : t.scopes.size ≤ t'.scopes.size)
    (parent : ∀ s, s.index < base.scopes.size → (t'.scope s).parent = (t.scope s).parent)
    (kind : ∀ s, s.index < base.scopes.size → (t'.scope s).kind = (t.scope s).kind)
    (fields : t'.fields = t.fields) : base.BuiltOn t' := by
  have field := field_congr fields
  refine ⟨⟨fields ▸ built.grown, ?_, ?_⟩, Nat.le_trans built.scopes grown, ?_, ?_, ?_, ?_⟩
  · exact fun f old => field f ▸ built.position f old
  · exact fun f old => field f ▸ built.fixed f old
  · exact fun s old => (parent s old).trans (built.parent s old)
  · exact fun s old => (kind s old).trans (built.kind s old)
  · exact fun f new => field f ▸ built.unlinked f new
  · exact fun f => field f ▸ built.refCount f

theorem pushScope (kind : ScopeKind) {parent : ScopeId} (inside : parent.index < t.scopes.size) :
    base.BuiltOn (t.pushScope kind parent).2 := by
  have earlier (s : ScopeId) (old : s.index < base.scopes.size) : s.index ≠ t.scopes.size := by
    have := built.scopes
    omega
  refine built.rearranged ?_ ?_ ?_ rfl
  · rw [pushScope_size]
    exact Nat.le_succ _
  · intro s old
    rw [pushScope_parent kind parent none inside, if_neg (earlier s old)]
  · intro s old
    rw [pushScope_kind kind parent none inside, if_neg (earlier s old)]

theorem collapsed (ground : base.Nested) (nested : t.Nested) {id p : ScopeId} (new : base.scopes.size ≤ id.index)
    (live : t.Live id) (link : (t.scope id).parent = some p) : base.BuiltOn (t.collapsed id p) := by
  refine built.rearranged (Nat.le_of_eq collapsed_size.symm) ?_ ?_ collapsed_fields
  · intro s old
    rw [collapsed_parent nested live link, if_neg]
    -- an old scope hangs below another old one
    intro child
    have link := (nested.child id s child).1
    rw [built.parent s old] at link
    have := ground.parent_inside s id link
    omega
  · intro s _
    rw [collapsed_kind nested live link]

theorem adoptScopes (nested : t.Nested) {since : Nat} (recent : base.scopes.size ≤ since) {old new : ScopeId}
    (live : t.Live new) (link : (t.scope new).parent = some old) : base.BuiltOn (t.adoptScopes since old new) := by
  refine built.rearranged (Nat.le_of_eq (adoptScopes_size t since old new).symm) ?_ ?_
    (adoptScopes_fields t since old new)
  · intro s earlier
    rw [adoptScopes_parent since nested live link, if_neg]
    rw [mem_movedScopes]
    omega
  · intro s _
    rw [adoptScopes_kind since nested live link]

/-- Fields are marked or added, none of them linked or counted. -/
theorem extended (extension : t.Extends t') (count : ∀ f, (t'.field f).refCount = (t.field f).refCount)
    (outer : ∀ f, (t.field f).outer = none → (t'.field f).outer = none) : base.BuiltOn t' where
  toKeeps := built.toKeeps.trans extension.toKeeps
  scopes := extension.size ▸ built.scopes
  parent s old := (parent_congr extension.nesting s).trans (built.parent s old)
  kind s old := (kind_congr extension.nesting s).trans (built.kind s old)
  unlinked f new := outer f (built.unlinked f new)
  refCount f := (count f).trans (built.refCount f)

theorem modifyScope (id : ScopeId) {f : Scope → Scope} (nesting : ∀ s, (f s).nesting = s.nesting) :
    base.BuiltOn (t.modifyScope id f) :=
  built.extended (modifyScope_extends id f nesting) (fun _ => rfl) fun _ alone => alone

theorem modifyField (id : FieldId) {f : Field → Field} (identity : ∀ g, (f g).identity = g.identity)
    (count : ∀ g, (f g).refCount = g.refCount) (fixed : ∀ g : Field, g.Fixed → (f g).Fixed) :
    base.BuiltOn (t.modifyField id f) := by
  refine built.extended (modifyField_extends id f identity fixed) (t.modifyField_keeps Field.refCount id f count) ?_
  intro g alone
  exact (congrArg (·.2.2.1) (t.modifyField_keeps Field.identity id f identity g)).trans alone

theorem insertField {new : Field} (alone : new.outer = none) (unnamed : new.crunchedName = none)
    (uncounted : new.refCount = 0) : base.BuiltOn (t.insertField new).2 := by
  refine built.extended (insertField_extends new unnamed) (t.insertField_refCount _ uncounted) fun f old => ?_
  rw [insertField_field]
  split
  · exact alone
  · exact old

end BuiltOn

end Condense.ScopeTree
