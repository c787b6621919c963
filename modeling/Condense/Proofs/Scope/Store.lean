import Condense.Scope.Basic

/-!
What each change of a scope tree leaves of its scopes and fields, read back one index at a time.
-/

namespace Condense.ScopeTree

variable (t : ScopeTree) {β : Type}

theorem field_congr {t t' : ScopeTree} (fields : t'.fields = t.fields) (f : FieldId) : t'.field f = t.field f := by
  simp only [field, fields]

section

variable (id : ScopeId) (f : Scope → Scope)

@[simp] theorem modifyScope_size : (t.modifyScope id f).scopes.size = t.scopes.size := by
  simp [modifyScope]

@[simp] theorem modifyScope_fields : (t.modifyScope id f).fields = t.fields := rfl

theorem modifyScope_scope (s : ScopeId) : (t.modifyScope id f).scope s =
      if s = id ∧ s.index < t.scopes.size then f (t.scope s) else t.scope s := by
  obtain ⟨i⟩ := id
  obtain ⟨j⟩ := s
  simp only [modifyScope, scope, Array.getElem?_modify, ScopeId.mk.injEq]
  by_cases same : j = i
  · subst same
    by_cases inside : j < t.scopes.size <;> simp [inside]
  · simp [same, Ne.symm same]

end

section

variable (id : FieldId) (f : Field → Field)

@[simp] theorem modifyField_size : (t.modifyField id f).fields.size = t.fields.size := by
  simp [modifyField]

theorem modifyField_field (g : FieldId) : (t.modifyField id f).field g =
      if g = id ∧ g.index < t.fields.size then f (t.field g) else t.field g := by
  obtain ⟨i⟩ := id
  obtain ⟨j⟩ := g
  simp only [modifyField, field, Array.getElem?_modify, FieldId.mk.injEq]
  by_cases same : j = i
  · subst same
    by_cases inside : j < t.fields.size <;> simp [inside]
  · simp [same, Ne.symm same]

end

/-- A change that keeps a projection of the changed field keeps it for every field. -/
theorem modifyField_keeps (view : Field → β) (id : FieldId) (f : Field → Field) (same : ∀ g, view (f g) = view g)
    (g : FieldId) : view ((t.modifyField id f).field g) = view (t.field g) := by
  rw [modifyField_field]
  split
  · exact same _
  · rfl

/-- A change that keeps a projection of the changed scope keeps it for every scope. -/
theorem modifyScope_keeps (view : Scope → β) (id : ScopeId) (f : Scope → Scope) (same : ∀ s, view (f s) = view s)
    (s : ScopeId) : view ((t.modifyScope id f).scope s) = view (t.scope s) := by
  rw [modifyScope_scope]
  split
  · exact same _
  · rfl

/-- What is not in the store reads as a scope without links and names. -/
theorem scope_outside (s : ScopeId) (outside : t.scopes.size ≤ s.index) : t.scope s = { kind := .global } := by
  simp [scope, outside]

theorem field_outside (f : FieldId) (outside : t.fields.size ≤ f.index) :
    t.field f = { name := "", kind := .global, scope := ⟨0⟩ } := by
  simp [field, outside]

section

variable (kind : ScopeKind) (parent : ScopeId) (owner : Option NodeId)

@[simp] theorem pushScope_size : (t.pushScope kind parent owner).2.scopes.size = t.scopes.size + 1 := by
  simp [pushScope]

@[simp] theorem pushScope_field (f : FieldId) : (t.pushScope kind parent owner).2.field f = t.field f := rfl

theorem pushScope_scope_old (s : ScopeId) (old : s.index ≠ t.scopes.size) :
    (t.pushScope kind parent owner).2.scope s = if s = parent ∧ s.index < t.scopes.size
      then { t.scope s with children := (t.scope s).children ++ [⟨t.scopes.size⟩] }
      else t.scope s := by
  have kept (new : Scope) : ({ t with scopes := t.scopes.push new } : ScopeTree).scope s = t.scope s := by
    simp only [scope, Array.getElem?_push, if_neg old]
  simp only [pushScope, modifyScope_scope, kept, Array.size_push]
  have range : s.index < t.scopes.size + 1 ↔ s.index < t.scopes.size := by omega
  simp only [range]

theorem pushScope_scope_new (older : parent.index ≠ t.scopes.size) :
    (t.pushScope kind parent owner).2.scope ⟨t.scopes.size⟩ =
      { kind, parent := some parent, owner, useStrict := (t.scope parent).useStrict } := by
  have other : (⟨t.scopes.size⟩ : ScopeId) ≠ parent := by
    intro same
    rw [← same] at older
    exact older rfl
  simp only [pushScope, modifyScope_scope, other, false_and, ↓reduceIte]
  simp [scope]

end

@[simp] theorem insertField_size (field : Field) : (t.insertField field).2.fields.size = t.fields.size + 1 := by
  simp [insertField]

@[simp] theorem insertField_scopes_size (field : Field) : (t.insertField field).2.scopes.size = t.scopes.size := by
  simp [insertField]

theorem insertField_field (new : Field) (f : FieldId) :
    (t.insertField new).2.field f = if f.index = t.fields.size then new else t.field f := by
  change ({ t with fields := t.fields.push new } : ScopeTree).field f = _
  simp only [field, Array.getElem?_push]
  split <;> rfl

theorem insertField_last (new : Field) : (t.insertField new).2.field ⟨t.fields.size⟩ = new := by
  rw [insertField_field, if_pos rfl]

theorem insertField_only (new : Field) {f : FieldId} (old : t.fields.size ≤ f.index)
    (range : f.index < (t.insertField new).2.fields.size) : f = ⟨t.fields.size⟩ := by
  rw [insertField_size] at range
  exact congrArg FieldId.mk (Nat.eq_of_lt_succ_of_not_lt range (Nat.not_lt.mpr old))

theorem insertField_refCount (new : Field) (uncounted : new.refCount = 0) (f : FieldId) :
    ((t.insertField new).2.field f).refCount = (t.field f).refCount := by
  rw [insertField_field]
  split
  · rename_i last
    rw [uncounted, t.field_outside f (Nat.le_of_eq last.symm)]
  · rfl

theorem insertField_scope (new : Field) (s : ScopeId) :
    (t.insertField new).2.scope s =
      if s = new.scope ∧ s.index < t.scopes.size
      then { t.scope s with
        fields := (t.scope s).fields.push ⟨t.fields.size⟩
        names := (new.name, ⟨t.fields.size⟩) :: (t.scope s).names }
      else t.scope s := by
  simp only [insertField, modifyScope_scope]
  rfl

theorem mem_insertField (new : Field) (s : ScopeId) (f : FieldId) : f ∈ ((t.insertField new).2.scope s).fields ↔
    f ∈ (t.scope s).fields ∨ s = new.scope ∧ s.index < t.scopes.size ∧ f = ⟨t.fields.size⟩ := by
  rw [insertField_scope, ← and_assoc]
  split
  · rename_i here
    exact Array.mem_push.trans (or_congr_right (and_iff_right here).symm)
  · rename_i other
    exact (or_iff_left fun added => other added.1).symm

theorem insertField_keeps (view : Scope → β) (new : Field)
    (same : ∀ s fields names, view { s with fields, names } = view s) (s : ScopeId) :
    view ((t.insertField new).2.scope s) = view (t.scope s) := by
  rw [insertField_scope]
  split
  · exact same _ _ _
  · rfl

variable (children : List ScopeId) (parent : ScopeId)

/-- Hanging several scopes below another one. -/
abbrev reparent : ScopeTree :=
  children.foldl (fun t child => t.modifyScope child fun s => { s with parent := some parent }) t

theorem reparent_scope (s : ScopeId) : (t.reparent children parent).scope s =
      if s ∈ children ∧ s.index < t.scopes.size then { t.scope s with parent := some parent }
      else t.scope s := by
  induction children generalizing t with
  | nil => simp
  | cons child rest ih =>
    rw [reparent, List.foldl_cons, ih, modifyScope_size, modifyScope_scope]
    by_cases inside : s.index < t.scopes.size
    · by_cases here : s = child
      · subst here
        by_cases later : s ∈ rest <;> simp [inside, later]
      · by_cases later : s ∈ rest <;> simp [here, inside, later]
    · simp [inside]

theorem reparent_size : (t.reparent children parent).scopes.size = t.scopes.size := by
  induction children generalizing t with
  | nil => rfl
  | cons child rest ih => rw [reparent, List.foldl_cons, ih, modifyScope_size]

theorem reparent_fields : (t.reparent children parent).fields = t.fields := by
  induction children generalizing t with
  | nil => rfl
  | cons child rest ih => rw [reparent, List.foldl_cons, ih, modifyScope_fields]

end Condense.ScopeTree
