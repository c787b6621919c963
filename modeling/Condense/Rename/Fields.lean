import Condense.Rename.Name
import Condense.Scope.Basic
import Condense.Settings.Basic

/-!
New names for fields, first those the settings ask for and then short ones for locals.
-/

namespace Condense

namespace Settings

def canTakePair (f : Field) : Bool :=
  f.isDeclared && !f.isShim && !f.isExported
    && (f.kind == .localName || f.kind == .argument || f.kind == .catchError || f.kind == .global)

/-- The name that the settings ask for, if the field does not have it already. -/
def pairedName? (settings : Settings) (f : Field) : Option String :=
  if canTakePair f then
    (settings.renameTarget? f.name).filter fun target => f.crunchedName != some target
  else none

end Settings

namespace ScopeTree

def applyRenamePairs (settings : Settings) (t : ScopeTree) : ScopeTree × Nat :=
  (List.range t.fields.size).foldl (fun (t, n) i =>
    match settings.pairedName? (t.field ⟨i⟩) with
    | some name => (t.modifyField ⟨i⟩ fun f => { f with crunchedName := some name }, n + 1)
    | none => (t, n)) (t, 0)

def canBeShortened (settings : Settings) (t : ScopeTree) (id : FieldId) : Bool :=
  let f := t.field id
  (f.kind == .localName || f.kind == .argument || f.kind == .catchError)
    && !f.isShim && !f.isPlaceholder && f.canCrunch && !f.isExported && !f.isAmbiguous
    && !(settings.preserveFunctionNames && f.isFunction)
    && !settings.keepsName f.name
    && (settings.renameTarget? f.name).isNone
    && !(settings.localRenaming == .keepLocalizationVars && "L_".toList.isPrefixOf f.name.toList)
    && (t.scope f.scope).isKnown

/-- The names that no field may get anywhere: the targets of rename pairs, names that are never changed, and
those that only an object of a `with` statement may have. -/
def reservedNames (settings : Settings) (t : ScopeTree) : List String :=
  settings.renamePairs.map (·.2) ++ t.fields.toList.filterMap fun f =>
    if (f.kind == .withField && f.outer.isNone) || settings.keepsName f.name then some f.name else none

def belowUpTo (t : ScopeTree) : Nat → ScopeId → List ScopeId
  | 0, _ => []
  | depth + 1, id => (t.scope id).children.flatMap fun child => child :: t.belowUpTo depth child

def below (t : ScopeTree) (id : ScopeId) : List ScopeId :=
  t.belowUpTo (t.scopes.size + 1) id

/-- Whether a scope sees a field of a scope further out. -/
def reaches (t : ScopeTree) (scope : ScopeId) (target : FieldId) : Bool :=
  (t.scope scope).fields.any fun f => (t.field f).outer.isSome && t.outermost f == target

def keptNames (settings : Settings) (t : ScopeTree) (scope : ScopeId) : List String :=
  (t.scope scope).fields.toList.filterMap fun f =>
    if (t.field f).outer.isNone && !t.canBeShortened settings f then some (t.outputName f) else none

/-- The names that would hide `target` from a scope that sees it. -/
def hidingNames (settings : Settings) (t : ScopeTree) (scope : ScopeId) (target : FieldId) : List String :=
  ((t.below scope).filter fun inner => t.reaches inner target).flatMap (t.keptNames settings)

/-- Fields in the order they get their names: more references first, then older first. -/
def namingOrder (t : ScopeTree) (ids : List FieldId) : List FieldId :=
  ids.mergeSort fun a b =>
    let m := (t.field a).refCount
    let n := (t.field b).refCount
    n < m || (m == n && a.index ≤ b.index)

def clearNames (t : ScopeTree) (ids : List FieldId) : ScopeTree :=
  ids.foldl (fun t id => t.modifyField id fun f => { f with crunchedName := none }) t

/-- Gives names to fields in turn; `avoid` says which names a field must not get besides those taken. -/
def assignNames (avoid : FieldId → List String) :
    List FieldId → List String → ScopeTree → ScopeTree
  | [], _, t => t
  | id :: rest, taken, t =>
    let name := freeName (taken ++ avoid id)
    assignNames avoid rest (name :: taken) (t.modifyField id fun f => { f with crunchedName := some name })

def shortenScope (settings : Settings) (reserved : List String) (t : ScopeTree) (scope : ScopeId) :
    ScopeTree × Nat :=
  let fields := (t.scope scope).fields.toList
  let candidates := fields.filter (t.canBeShortened settings)
  let cleared := t.clearNames candidates
  let others := fields.filter fun id => !candidates.contains id
  let taken := reserved ++ others.map cleared.outputName
  let avoid := cleared.hidingNames settings scope
  let named := assignNames avoid (t.namingOrder candidates) taken cleared
  let changed := candidates.filter fun id => (named.field id).crunchedName != (t.field id).crunchedName
  (named, changed.length)

/-- Gives short names to the fields of all scopes, and counts those that changed. -/
def shortenNames (settings : Settings) (t : ScopeTree) : ScopeTree × Nat :=
  let reserved := t.reservedNames settings
  t.topDown.foldl (fun (t, n) scope =>
    let (t, m) := t.shortenScope settings reserved scope
    (t, n + m)) (t, 0)

end ScopeTree

end Condense
