import Mathlib.Data.List.Basic
import Condense.Proofs.Scope.Linking

/-!
Scope trees that differ in generated names only.
-/

namespace Condense

def Field.plain (f : Field) : Field :=
  { f with crunchedName := none }

namespace ScopeTree

variable {t t' : ScopeTree} (f : FieldId) (s : ScopeId)

structure Renaming (t t' : ScopeTree) : Prop where
  scopes : t'.scopes = t.scopes
  size : t'.fields.size = t.fields.size
  field : ∀ f, (t'.field f).plain = (t.field f).plain

namespace Renaming

theorem refl (t : ScopeTree) : t.Renaming t :=
  ⟨rfl, rfl, fun _ => rfl⟩

theorem trans {t'' : ScopeTree} (first : t.Renaming t') (second : t'.Renaming t'') : t.Renaming t'' :=
  ⟨second.scopes.trans first.scopes, second.size.trans first.size, fun f => (second.field f).trans (first.field f)⟩

theorem modifyField (t : ScopeTree) (id : FieldId) (name : Option String) :
    t.Renaming (t.modifyField id fun f => { f with crunchedName := name }) :=
  ⟨rfl, t.modifyField_size id _, t.modifyField_keeps Field.plain id _ fun _ => rfl⟩

variable (renamed : t.Renaming t')

include renamed

theorem scope : t'.scope s = t.scope s := by
  simp only [ScopeTree.scope, renamed.scopes]

/-- What does not look at generated names is the same of both fields. -/
theorem view {β : Type} (view : Field → β) (f : FieldId) (blind : ∀ f : Field, view f.plain = view f) :
    view (t'.field f) = view (t.field f) := by
  rw [← blind (t'.field f), renamed.field, blind]

theorem alike : t.Alike t' :=
  ⟨renamed.scopes, renamed.size, fun f => renamed.view Field.position f fun _ => rfl⟩

theorem name : (t'.field f).name = (t.field f).name :=
  renamed.view Field.name f fun _ => rfl

theorem owner : (t'.field f).scope = (t.field f).scope :=
  renamed.view Field.scope f fun _ => rfl

theorem outer : (t'.field f).outer = (t.field f).outer :=
  renamed.view Field.outer f fun _ => rfl

theorem kind : (t'.field f).kind = (t.field f).kind :=
  renamed.view Field.kind f fun _ => rfl

theorem ancestors : t'.ancestors s = t.ancestors s :=
  ancestors_congr (congrArg _ renamed.scopes) (fun s => congrArg _ (renamed.scope s)) s

theorem topDownUpTo (depth : Nat) (s : ScopeId) : t'.topDownUpTo depth s = t.topDownUpTo depth s := by
  induction depth generalizing s with
  | zero => rfl
  | succ depth ih => rw [ScopeTree.topDownUpTo, ScopeTree.topDownUpTo, renamed.scope, funext ih]

theorem topDown : t'.topDown = t.topDown := by
  rw [ScopeTree.topDown, ScopeTree.topDown, renamed.scopes, renamed.topDownUpTo]

theorem below : t'.below s = t.below s := by
  have same := renamed.topDownUpTo (t.scopes.size + 2) s
  rw [topDownUpTo_succ, topDownUpTo_succ] at same
  rw [ScopeTree.below, ScopeTree.below, renamed.scopes, (List.cons.inj same).2]

theorem outermost : t'.outermost f = t.outermost f := by
  have same : (fun f => (t'.field f).outer) = fun f => (t.field f).outer := funext renamed.outer
  simp only [ScopeTree.outermost, outerChain_eq_walk, same, renamed.size]

theorem reaches (target : FieldId) : t'.reaches s target = t.reaches s target := by
  simp only [ScopeTree.reaches, renamed.scope, renamed.outer, renamed.outermost]

theorem canBeShortened (settings : Settings) (f : FieldId) :
    t'.canBeShortened settings f = t.canBeShortened settings f := by
  have known : (t'.scope (t'.field f).scope).isKnown = (t.scope (t.field f).scope).isKnown := by
    rw [renamed.scope, renamed.owner]
  have shim := renamed.view Field.isShim f fun _ => rfl
  have placeholder := renamed.view Field.isPlaceholder f fun _ => rfl
  have crunch := renamed.view Field.canCrunch f fun _ => rfl
  have exported := renamed.view Field.isExported f fun _ => rfl
  have ambiguous := renamed.view Field.isAmbiguous f fun _ => rfl
  have function := renamed.view Field.isFunction f fun _ => rfl
  simp only [ScopeTree.canBeShortened, known, shim, placeholder, crunch, exported, ambiguous, function,
    renamed.kind, renamed.name]

theorem fixed {f : FieldId} (fixed : (t.field f).Fixed) : (t'.field f).Fixed := by
  rwa [renamed.view Field.Fixed f fun _ => rfl]

theorem linked (linked : t.Linked) : t'.Linked := by
  have keeps : t.Keeps t' :=
    ⟨Nat.le_of_eq renamed.size.symm, fun f _ => renamed.alike.position f, fun _ _ => renamed.fixed⟩
  refine linked.extended (linked.toHeld.alike renamed.alike) keeps (fun s _ => ?_) fun f _ new range => ?_
  · exact ⟨renamed.ancestors s, congrArg _ (renamed.scope s), congrArg _ (renamed.scope s)⟩
  · exact absurd (renamed.size ▸ range) (Nat.not_lt.mpr new)

/-- A field is written as before if the field it stands for keeps its generated name. -/
theorem outputName {f : FieldId}
    (same : (t'.field (t.outermost f)).crunchedName = (t.field (t.outermost f)).crunchedName) :
    t'.outputName f = t.outputName f := by
  simp only [ScopeTree.outputName, renamed.outermost, renamed.kind, renamed.outer, renamed.name, same]

theorem hidingNames {settings : Settings}
    (same : ∀ f, t.canBeShortened settings f = false → (t'.field f).crunchedName = (t.field f).crunchedName)
    (s : ScopeId) (target : FieldId) : t'.hidingNames settings s target = t.hidingNames settings s target := by
  have kept : t'.keptNames settings = t.keptNames settings := by
    funext s
    simp only [keptNames, renamed.scope, renamed.outer, renamed.canBeShortened]
    refine List.filterMap_congr fun f _ => ?_
    split
    · rename_i own
      simp only [Bool.and_eq_true, Option.isNone_iff_eq_none, Bool.not_eq_true'] at own
      rw [renamed.outputName]
      rw [t.outermost_of_none own.1]
      exact same f own.2
    · rfl
  simp only [ScopeTree.hidingNames, renamed.below, renamed.reaches, kept]

end Renaming

end ScopeTree

end Condense
