import Condense.Syntax.Form

/-!
Scopes and the names they hold.
-/

namespace Condense

inductive ScopeKind where
  | global | function | block | catchClause | withBody | module | classBody
  deriving DecidableEq, Inhabited

def ScopeKind.name : ScopeKind → String
  | .global => "Global"
  | .function => "Function"
  | .block => "Block"
  | .catchClause => "Catch"
  | .withBody => "With"
  | .module => "Module"
  | .classBody => "Class"

/-- What a field stands for. A ghost keeps the name of a function expression free in the scope around
it. -/
inductive FieldKind where
  | argument | arguments | localName | global | catchError | super | predefined | withField | ghost
  deriving DecidableEq, Inhabited

def FieldKind.name : FieldKind → String
  | .argument => "Argument"
  | .arguments => "Arguments"
  | .localName => "Local"
  | .global => "Global"
  | .catchError => "CatchError"
  | .super => "Super"
  | .predefined => "Predefined"
  | .withField => "WithField"
  | .ghost => "Ghost"

structure Field where
  name : String
  kind : FieldKind
  scope : ScopeId
  refCount : Nat := 0
  declarations : List Span := []
  crunchedName : Option String := none
  outer : Option FieldId := none
  isExported : Bool := false
  isLiteral : Bool := false
  isPlaceholder : Bool := false
  isAmbiguous : Bool := false
  canCrunch : Bool := kind == .argument || kind == .localName || kind == .catchError
  isFunction : Bool := false
  value : Option NodeId := none
  deriving Inhabited

namespace Field

def isShim (f : Field) : Bool :=
  f.outer.isSome && f.kind != .withField

def isDeclared (f : Field) : Bool :=
  !f.declarations.isEmpty

/-- The field after another declaration of its name. A ghost becomes the declared field, and then its
meaning is ambiguous. -/
def redeclared (f : Field) (kind : FieldKind) : Field :=
  if f.kind == .ghost then { f with kind, isAmbiguous := true, canCrunch := false }
  else if f.kind == .localName && kind == .argument then { f with kind := .argument }
  else f

end Field

structure Scope where
  kind : ScopeKind
  parent : Option ScopeId := none
  children : List ScopeId := []
  owner : Option NodeId := none
  span : Span := {}
  useStrict : Bool := false
  /-- False where `eval` or `with` defeats static analysis. -/
  isKnown : Bool := true
  isArrow : Bool := false
  isNameScope : Bool := false
  isDetached : Bool := false
  fields : Array FieldId := #[]
  /-- The field of each name, a later one before the earlier ones that it hides. -/
  names : List (String × FieldId) := []
  deriving Inhabited

def Scope.isVariableScope (s : Scope) : Bool :=
  s.kind == .global || s.kind == .function || s.kind == .module

structure ScopeTree where
  scopes : Array Scope := #[{ kind := .global }]
  fields : Array Field := #[]
  undefined : Array UndefinedReference := #[]
  reported : List String := []
  deriving Inhabited

namespace ScopeTree

def global : ScopeId := ⟨0⟩

def scope (t : ScopeTree) (id : ScopeId) : Scope :=
  t.scopes[id.index]?.getD { kind := .global }

def field (t : ScopeTree) (id : FieldId) : Field :=
  t.fields[id.index]?.getD { name := "", kind := .global, scope := ⟨0⟩ }

def modifyScope (t : ScopeTree) (id : ScopeId) (f : Scope → Scope) : ScopeTree :=
  { t with scopes := t.scopes.modify id.index f }

def modifyField (t : ScopeTree) (id : FieldId) (f : Field → Field) : ScopeTree :=
  { t with fields := t.fields.modify id.index f }

def pushScope (t : ScopeTree) (kind : ScopeKind) (parent : ScopeId) (owner : Option NodeId := none) :
    ScopeId × ScopeTree :=
  let id : ScopeId := ⟨t.scopes.size⟩
  let scope : Scope := { kind, parent := some parent, owner, useStrict := (t.scope parent).useStrict }
  let t := { t with scopes := t.scopes.push scope }
  (id, t.modifyScope parent fun s => { s with children := s.children ++ [id] })

/-- Takes a block scope without names out of the tree and hands its children to its parent. -/
def collapseIfEmpty (t : ScopeTree) (id : ScopeId) : Bool × ScopeTree :=
  let scope := t.scope id
  if !scope.fields.isEmpty || scope.kind != .block || scope.isNameScope then (false, t)
  else match scope.parent with
    | none => (false, t)
    | some parent =>
      let children := scope.children
      let t := t.modifyScope id fun s => { s with children := [] }
      let t := children.foldl
        (fun t child => t.modifyScope child fun s => { s with parent := some parent }) t
      let t := t.modifyScope parent fun s =>
        { s with children := s.children.span (· != id) |> fun (before, after) =>
            match after with
            | [] => before
            | _ :: rest => before ++ children ++ rest }
      (true, t.modifyScope id fun s => { s with isDetached := true })

/-- Moves the children of `old` that were created at index `since` or later under `new`. -/
def adoptScopes (t : ScopeTree) (since : Nat) (old new : ScopeId) : ScopeTree :=
  let moved := (t.scope old).children.filter fun s => since ≤ s.index && s != new
  if moved.isEmpty then t
  else
    let t := t.modifyScope old fun s =>
      { s with children := s.children.filter fun c => !moved.contains c }
    let t := moved.foldl (fun t s => t.modifyScope s fun s => { s with parent := some new }) t
    t.modifyScope new fun s => { s with children := s.children ++ moved }

def ancestorsUpTo (t : ScopeTree) : Nat → ScopeId → List ScopeId
  | 0, _ => []
  | steps + 1, id =>
    id :: match (t.scope id).parent with
      | some parent => t.ancestorsUpTo steps parent
      | none => []

def ancestors (t : ScopeTree) (id : ScopeId) : List ScopeId :=
  t.ancestorsUpTo t.scopes.size id

/-- The nearest scope that `var` declarations belong to. -/
def variableScope (t : ScopeTree) (id : ScopeId) : ScopeId :=
  ((t.ancestors id).find? fun s => (t.scope s).isVariableScope).getD global

/-- The nearest function scope with an `arguments` object of its own. -/
def argumentsScope? (t : ScopeTree) (id : ScopeId) : Option ScopeId :=
  (t.ancestors id).find? fun s => (t.scope s).kind == .function && !(t.scope s).isArrow

def topDownUpTo (t : ScopeTree) : Nat → ScopeId → List ScopeId
  | 0, _ => []
  | depth + 1, id => id :: (t.scope id).children.flatMap (t.topDownUpTo depth)

/-- The scopes reachable from the global one, parents before children. -/
def topDown (t : ScopeTree) : List ScopeId :=
  t.topDownUpTo (t.scopes.size + 1) global

def makeUnknown (t : ScopeTree) (id : ScopeId) : ScopeTree :=
  t.modifyScope id fun s => { s with isKnown := false }

/-- The field that a scope itself holds under a name. -/
def findLocal? (t : ScopeTree) (scope : ScopeId) (name : String) : Option FieldId :=
  (t.scope scope).names.lookup name

def insertField (t : ScopeTree) (field : Field) : FieldId × ScopeTree :=
  let id : FieldId := ⟨t.fields.size⟩
  let t := { t with fields := t.fields.push field }
  (id, t.modifyScope field.scope fun s =>
    { s with fields := s.fields.push id, names := (field.name, id) :: s.names })

def createField (t : ScopeTree) (scope : ScopeId) (name : String) (kind : FieldKind) :
    FieldId × ScopeTree :=
  t.insertField { name, kind, scope }

/-- Registers a declaration. Locals of the global scope are globals. -/
def declare (t : ScopeTree) (scope : ScopeId) (name : String) (kind : FieldKind) (span : Span) :
    FieldId × ScopeTree :=
  let kind : FieldKind := if scope == global && kind == .localName then .global else kind
  let (id, t) := match t.findLocal? scope name with
    | some existing => (existing, t.modifyField existing (·.redeclared kind))
    | none => t.createField scope name kind
  (id, t.modifyField id fun f => { f with declarations := f.declarations ++ [span] })

/-- The nearest field of a name, looking outward from `scope`, and the scope that holds it. -/
def resolve? (t : ScopeTree) (scope : ScopeId) (name : String) : Option (ScopeId × FieldId) :=
  (t.ancestors scope).findSome? fun s => (t.findLocal? s name).map fun f => (s, f)

def outerChainUpTo (t : ScopeTree) : Nat → FieldId → List FieldId
  | 0, _ => []
  | steps + 1, id =>
    id :: match (t.field id).outer with
      | some outer => t.outerChainUpTo steps outer
      | none => []

/-- A field and the fields it stands for, outward. -/
def outerChain (t : ScopeTree) (id : FieldId) : List FieldId :=
  t.outerChainUpTo (t.fields.size + 1) id

def outermost (t : ScopeTree) (id : FieldId) : FieldId :=
  (t.outerChain id).getLast?.getD id

/-- The field under which `scope` sees `outer`, a field of the scope around it. -/
def shim (t : ScopeTree) (scope : ScopeId) (name : String) (outer : FieldId) : FieldId × ScopeTree :=
  match t.findLocal? scope name with
  | some existing => (existing, t)
  | none =>
    t.insertField { name, kind := (t.field outer).kind, scope, outer := some outer, canCrunch := false }

/-- Records a reference from `scope` to `target`, which lives there or further out. Every scope in
between gets a shim, and every field of the chain counts the reference. -/
def reference (t : ScopeTree) (scope : ScopeId) (target : FieldId) : FieldId × ScopeTree :=
  let name := (t.field target).name
  let declaring := (t.field target).scope
  let path := (t.ancestors scope).takeWhile (· != declaring)
  let (inner, t) := path.reverse.foldl (fun (outer, t) s => t.shim s name outer) (target, t)
  (inner, (t.outerChain inner).foldl
    (fun t id => t.modifyField id fun f => { f with refCount := f.refCount + 1 }) t)

def outputName (t : ScopeTree) (id : FieldId) : String :=
  let own := t.field id
  if own.kind == .withField && own.outer.isNone then own.name
  else
    let root := t.field (t.outermost id)
    root.crunchedName.getD root.name

/-- The fields visible from a scope, nearest first, one for each name. -/
def visibleFields (t : ScopeTree) (scope : ScopeId) : List FieldId :=
  let all := (t.ancestors scope).flatMap fun s => (t.scope s).fields.toList
  (all.foldl (fun (seen, out) id =>
    let name := (t.field id).name
    if seen.contains name then (seen, out) else (name :: seen, id :: out))
    (([] : List String), ([] : List FieldId))).2.reverse

/-- Records a reference to a name that nothing declares. Answers whether it is the first of its name
that is to be reported. -/
def recordUndefined (t : ScopeTree) (ref : UndefinedReference) (report : Bool) : Bool × ScopeTree :=
  let t := { t with undefined := t.undefined.push ref }
  if report && !t.reported.contains ref.name then
    (true, { t with reported := ref.name :: t.reported })
  else (false, t)

end ScopeTree

end Condense
