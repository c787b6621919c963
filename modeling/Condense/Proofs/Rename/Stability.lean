import Condense.Proofs.Rename.Fields

/-!
Naming fields a second time changes nothing.
-/

namespace Condense

open List

theorem Field.eq_of_plain {f g : Field} (plain : f.plain = g.plain) (name : f.crunchedName = g.crunchedName) :
    f = g := by
  have parts (f : Field) : f = { f.plain with crunchedName := f.crunchedName } := rfl
  rw [parts f, parts g, plain, name]

namespace ScopeTree

variable {t t' : ScopeTree} {settings : Settings} {reserved : List String}

namespace Renaming

variable (renamed : t.Renaming t')

include renamed

theorem symm : t'.Renaming t :=
  ⟨renamed.scopes.symm, renamed.size.symm, fun f => (renamed.field f).symm⟩

/-- Trees whose fields have the same names are the same. -/
theorem eq (names : ∀ f, (t'.field f).crunchedName = (t.field f).crunchedName)
    (rest : t' = { t with fields := t'.fields }) : t' = t := by
  have field (f : FieldId) : t'.field f = t.field f := Field.eq_of_plain (renamed.field f) (names f)
  have fields : t'.fields = t.fields := by
    apply Array.ext renamed.size
    intro i inside inside'
    have here := field ⟨i⟩
    simpa [ScopeTree.field, inside, inside'] using here
  rw [rest, fields]

theorem namingOrder (ids : List FieldId) : t'.namingOrder ids = t.namingOrder ids := by
  have count (f : FieldId) : (t'.field f).refCount = (t.field f).refCount :=
    renamed.view Field.refCount f fun _ => rfl
  simp only [ScopeTree.namingOrder, count]

theorem reservedNames (settings : Settings) : t'.reservedNames settings = t.reservedNames settings := by
  have plain : t'.fields.toList.map Field.plain = t.fields.toList.map Field.plain := by
    apply ext_getElem
    · simp [renamed.size]
    · intro i inside inside'
      have here := renamed.field ⟨i⟩
      rw [length_map, Array.length_toList] at inside inside'
      simpa [ScopeTree.field, inside, inside'] using here
  have read (fields : List Field) (name : Field → Option String) (blind : ∀ f, name f.plain = name f) :
      fields.filterMap name = (fields.map Field.plain).filterMap name := by
    rw [filterMap_map]
    exact filterMap_congr fun f _ => (blind f).symm
  unfold ScopeTree.reservedNames
  rw [read t'.fields.toList _ fun _ => rfl, plain, ← read t.fields.toList _ fun _ => rfl]

end Renaming

theorem clearNames_rest (t : ScopeTree) (ids : List FieldId) :
    t.clearNames ids = { t with fields := (t.clearNames ids).fields } := by
  induction ids generalizing t with
  | nil => rfl
  | cons id rest ih => exact ih (t.modifyField id _)

theorem assignNames_rest (avoid : FieldId → List String) (ids : List FieldId) (taken : List String) (t : ScopeTree) :
    assignNames avoid ids taken t = { t with fields := (assignNames avoid ids taken t).fields } := by
  induction ids generalizing taken t with
  | nil => rfl
  | cons id rest ih => exact ih _ (t.modifyField id _)

theorem clearNames_none (t : ScopeTree) {ids : List FieldId} {f : FieldId} (member : f ∈ ids) :
    ((t.clearNames ids).field f).crunchedName = none := by
  induction ids generalizing t with
  | nil => cases member
  | cons id rest ih =>
    by_cases later : f ∈ rest
    · exact ih (t.modifyField id _) later
    · obtain rfl : f = id := (mem_cons.1 member).resolve_right later
      show (((t.modifyField f fun f => { f with crunchedName := none }).clearNames rest).field f).crunchedName = none
      rw [clearNames_other _ later, modifyField_field]
      split
      · rfl
      · rename_i outside
        rw [t.field_outside f (by simpa using outside)]

section Scope

variable (settings reserved)

theorem Renaming.candidates (renamed : t.Renaming t') (s : ScopeId) :
    t'.candidates settings s = t.candidates settings s := by
  have short : t'.canBeShortened settings = t.canBeShortened settings := funext (renamed.canBeShortened settings)
  rw [ScopeTree.candidates, ScopeTree.candidates, renamed.scope, short]

theorem shortenScope_rest (t : ScopeTree) (s : ScopeId) :
    (t.shortenScope settings reserved s).1 =
      { t with fields := (t.shortenScope settings reserved s).1.fields } := by
  rw [shortenScope_eq, assignNames_rest, clearNames_rest]

theorem shortenScope_of_eq {s : ScopeId} (same : (t.shortenScope settings reserved s).1 = t) :
    t.shortenScope settings reserved s = (t, 0) := by
  have none : (t.shortenScope settings reserved s).2 = 0 := by
    show ((t.candidates settings s).filter fun id =>
      ((t.shortenScope settings reserved s).1.field id).crunchedName != (t.field id).crunchedName).length = 0
    rw [same]
    simp
  exact Prod.ext same none

theorem shortenScope_again (t : ScopeTree) (s : ScopeId) :
    (t.shortenScope settings reserved s).1.shortenScope settings reserved s =
      ((t.shortenScope settings reserved s).1, 0) := by
  apply shortenScope_of_eq
  have renamed := t.shortenScope_renaming settings reserved s
  have rest := t.shortenScope_rest settings reserved s
  have others (f : FieldId) := t.shortenScope_other settings reserved s (f := f)
  -- without the names of the scope's own fields the two trees are the same
  have cleared : (t.shortenScope settings reserved s).1.clearNames (t.candidates settings s) =
      t.clearNames (t.candidates settings s) := by
    generalize (t.shortenScope settings reserved s).1 = named at renamed rest others
    have whole := ((t.clearNames_renaming (t.candidates settings s)).symm.trans renamed).trans
      (named.clearNames_renaming (t.candidates settings s))
    apply whole.eq
    · intro f
      by_cases member : f ∈ t.candidates settings s
      · rw [clearNames_none _ member, clearNames_none _ member]
      · rw [clearNames_other _ member, clearNames_other _ member, others f member]
    · rw [clearNames_rest, rest, clearNames_rest t]
  rw [shortenScope_eq _ _ (t.shortenScope settings reserved s).1, takenNames, renamed.candidates, renamed.namingOrder,
    renamed.scope, cleared]
  rfl

/-- A scope that keeps its names does so after another one was named, unless that one stands around it. -/
theorem shortenScope_keeps (chained : t.Chained) {s d : ScopeId} (inside : d.index < t.scopes.size)
    (inner : s ∉ t.ancestors d) (kept : t.shortenScope settings reserved d = (t, 0)) :
    (t.shortenScope settings reserved s).1.shortenScope settings reserved d =
      ((t.shortenScope settings reserved s).1, 0) := by
  apply shortenScope_of_eq
  have renamed := t.shortenScope_renaming settings reserved s
  have away (f : FieldId) (other : (t.field f).scope ≠ s) : (t.shortenScope settings reserved s).1.field f = t.field f :=
    t.shortenScope_other settings reserved s (chained.not_mem_candidates settings other)
  have fixed (f : FieldId) (plain : t.canBeShortened settings f = false) :
      (t.shortenScope settings reserved s).1.field f = t.field f :=
    t.shortenScope_other settings reserved s (not_mem_candidates settings s plain)
  generalize (t.shortenScope settings reserved s).1 = t' at renamed away fixed
  have apart : d ≠ s := by
    rintro rfl
    exact inner (chained.nested.self_mem_ancestors inside)
  have own (f : FieldId) (member : f ∈ t.candidates settings d) : f.index < t.fields.size ∧ (t.field f).scope = d :=
    (chained.owned d f).1 ((mem_candidates settings).1 member).1
  have clear := t.clearNames_renaming (t.candidates settings d)
  have clearing := (clear.symm.trans renamed).trans
    (t'.clearNames_renaming (t.candidates settings d))
  have avoid : (t'.clearNames (t.candidates settings d)).hidingNames settings d =
      (t.clearNames (t.candidates settings d)).hidingNames settings d := by
    funext target
    apply clearing.hidingNames
    intro f plain
    rw [clear.canBeShortened] at plain
    have other := not_mem_candidates settings d plain
    rw [clearNames_other _ other, clearNames_other _ other, fixed f plain]
  have taken : t'.takenNames settings reserved d = t.takenNames settings reserved d := by
    unfold takenNames
    rw [renamed.candidates, renamed.scope]
    congr 1
    apply map_congr_left
    intro f listed
    obtain ⟨listed, -⟩ := mem_filter.1 listed
    obtain ⟨range, here⟩ := (chained.owned d f).1 (Array.mem_toList_iff.1 listed)
    apply clearing.outputName
    rw [clear.outermost]
    -- what the field stands for is in a scope around `d`
    by_cases member : t.outermost f ∈ t.candidates settings d
    · rw [clearNames_none _ member, clearNames_none _ member]
    · rw [clearNames_other _ member, clearNames_other _ member, away]
      rintro rfl
      exact inner (here ▸ (chained.outermost_ends range).outward)
  have named (f : FieldId) (member : f ∈ t.candidates settings d) :
      ((t'.shortenScope settings reserved d).1.field f).crunchedName = (t.field f).crunchedName := by
    have before : ((t.shortenScope settings reserved d).1.field f).crunchedName = (t.field f).crunchedName := by
      rw [kept]
    rw [← before, shortenScope_eq, shortenScope_eq, renamed.candidates, renamed.namingOrder, avoid, taken]
    obtain ⟨given, -, -, sets⟩ := assignNames_given ((t.clearNames (t.candidates settings d)).hidingNames settings d)
      (t.namingOrder (t.candidates settings d)) (t.takenNames settings reserved d)
    have known := t.mem_namingOrder.2 member
    have range := clear.size ▸ (own f member).1
    rw [sets _ f known range, sets _ f known (clearing.size ▸ range)]
  apply (t'.shortenScope_renaming settings reserved d).eq
  · intro f
    by_cases member : f ∈ t.candidates settings d
    · rw [named f member, away f ((own f member).2.trans_ne apart)]
    · rw [t'.shortenScope_other settings reserved d (by rwa [renamed.candidates])]
  · exact t'.shortenScope_rest settings reserved d

/-- Scopes that are named from the outside in keep their names. -/
theorem shortenScopes_kept (rest : List ScopeId) {done : List ScopeId} {t : ScopeTree} (linked : t.Linked)
    (inside : ∀ d ∈ done ++ rest, d.index < t.scopes.size)
    (order : (done ++ rest).Pairwise fun x y => y ∉ t.ancestors x)
    (kept : ∀ d ∈ done, t.shortenScope settings reserved d = (t, 0)) :
    let named := t.shortenScopes settings reserved rest
    ∀ d ∈ done ++ rest, named.shortenScope settings reserved d = (named, 0) := by
  induction rest generalizing t done with
  | nil => simpa [shortenScopes] using kept
  | cons s rest ih =>
    have renamed := t.shortenScope_renaming settings reserved s
    rw [shortenScopes, foldl_cons, ← singleton_append, ← append_assoc]
    apply ih (renamed.linked linked)
    · rwa [append_assoc, singleton_append, renamed.scopes]
    · rw [append_assoc, singleton_append]
      exact order.imp fun outside => by rwa [renamed.ancestors]
    · intro d member
      rcases mem_append.1 member with earlier | here
      · have inner := (pairwise_append.1 order).2.2 d earlier s (.head _)
        exact shortenScope_keeps settings reserved linked.toChained (inside d (by simp [earlier])) inner (kept d earlier)
      · rw [mem_singleton.1 here]
        exact shortenScope_again settings reserved t s

end Scope

theorem Linked.shortenNames_again (linked : t.Linked) (settings : Settings) :
    (t.shortenNames settings).1.shortenNames settings = ((t.shortenNames settings).1, 0) := by
  have renamed := t.shortenNames_renaming settings
  have inside (d : ScopeId) (member : d ∈ t.topDown) : d.index < t.scopes.size :=
    ((linked.nested.mem_topDown_iff d).1 member).1
  have kept : ∀ d ∈ [] ++ t.topDown, _ := shortenScopes_kept settings (t.reservedNames settings) t.topDown linked inside
    linked.nested.topDown_pairwise (by simp)
  simp only [← shortenNames_eq] at kept
  generalize (t.shortenNames settings).1 = named at renamed kept
  unfold ScopeTree.shortenNames
  dsimp only
  rw [renamed.topDown, renamed.reservedNames]
  generalize t.topDown = scopes at kept
  induction scopes with
  | nil => rfl
  | cons s rest ih =>
    rw [foldl_cons, kept s (.head _)]
    exact ih fun d member => kept d (.tail _ member)

/-- Every field has the name that the settings ask for. -/
def Paired (settings : Settings) (t : ScopeTree) : Prop :=
  ∀ f, settings.pairedName? (t.field f) = none

theorem Paired.applyRenamePairs (paired : t.Paired settings) : t.applyRenamePairs settings = (t, 0) := by
  unfold ScopeTree.applyRenamePairs
  generalize List.range t.fields.size = indices
  induction indices with
  | nil => rfl
  | cons i rest ih =>
    rw [foldl_cons]
    simp only [paired ⟨i⟩]
    exact ih

theorem pairedName?_of_paired {settings : Settings} {f : Field} {name : String}
    (target : settings.pairedName? f = some name) :
    settings.pairedName? { f with crunchedName := some name } = none := by
  unfold Settings.pairedName? at target
  split at target
  · rename_i allowed
    obtain ⟨target, -⟩ := Option.filter_eq_some_iff.1 target
    show (if Settings.canTakePair f then
      (settings.renameTarget? f.name).filter fun target => some name != some target else none) = none
    rw [if_pos allowed, target]
    simp
  · cases target

theorem applyRenamePairs_renaming (settings : Settings) (t : ScopeTree) :
    t.Renaming (t.applyRenamePairs settings).1 := by
  unfold applyRenamePairs
  generalize List.range t.fields.size = indices
  generalize (0 : Nat) = count
  induction indices generalizing t count with
  | nil => exact .refl t
  | cons i rest ih =>
    rw [foldl_cons]
    dsimp only
    split
    · exact (Renaming.modifyField t ⟨i⟩ _).trans (ih _ _)
    · exact ih _ _

def pairOne (settings : Settings) : ScopeTree × Nat → Nat → ScopeTree × Nat :=
  fun (t, n) i =>
    match settings.pairedName? (t.field ⟨i⟩) with
    | some name => (t.modifyField ⟨i⟩ fun f => { f with crunchedName := some name }, n + 1)
    | none => (t, n)

theorem paired_applyRenamePairs (settings : Settings) (t : ScopeTree) :
    (t.applyRenamePairs settings).1.Paired settings := by
  have run (indices : List Nat) (t : ScopeTree) (count : Nat)
      (rest : ∀ f, f.index ∉ indices → settings.pairedName? (t.field f) = none) :
      (indices.foldl (pairOne settings) (t, count)).1.Paired settings := by
    induction indices generalizing t count with
    | nil => exact fun f => rest f not_mem_nil
    | cons i others ih =>
      rw [foldl_cons]
      dsimp only [pairOne]
      split
      · rename_i name target
        apply ih
        intro f outside
        rw [modifyField_field]
        split
        · rename_i here
          rw [here.1]
          exact pairedName?_of_paired target
        · rename_i other
          by_cases here : f.index = i
          · have last : f = ⟨i⟩ := by
              rw [← here]
            rw [last] at other ⊢
            rw [t.field_outside ⟨i⟩ (by simpa using other)] at target ⊢
            exact absurd target (by simp [Settings.pairedName?, Settings.canTakePair, Field.isDeclared])
          · exact rest f (by simp [here, outside])
      · apply ih
        intro f outside
        by_cases here : f.index = i
        · rwa [show f = ⟨i⟩ by rw [← here]]
        · exact rest f (by simp [here, outside])
  apply run
  intro f outside
  rw [mem_range, Nat.not_lt] at outside
  rw [t.field_outside f outside]
  rfl

/-- A field that gets a short name is not one that the settings ask a name for. -/
theorem Paired.shortenNames (paired : t.Paired settings) : (t.shortenNames settings).1.Paired settings := by
  have step (reserved : List String) (t : ScopeTree) (s : ScopeId) (paired : t.Paired settings) :
      (t.shortenScope settings reserved s).1.Paired settings := by
    intro f
    cases short : t.canBeShortened settings f with
    | false =>
      rw [t.shortenScope_other settings reserved s (not_mem_candidates settings s short)]
      exact paired f
    | true =>
      have renamed := t.shortenScope_renaming settings reserved s
      have free : settings.renameTarget? (t.field f).name = none := by
        simp only [canBeShortened, Bool.and_eq_true, Option.isNone_iff_eq_none] at short
        exact short.1.1.2
      unfold Settings.pairedName?
      rw [renamed.name, free]
      split <;> rfl
  rw [shortenNames_eq]
  exact List.foldlRecOn _ _ paired fun t' paired s _ => step _ t' s paired

end ScopeTree

end Condense
