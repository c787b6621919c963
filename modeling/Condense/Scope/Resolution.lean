import Condense.Diagnostic.Problem
import Condense.Scope.Basic
import Condense.Scope.Predefined
import Condense.Settings.Basic
import Condense.Syntax.Tree

/-!
Resolving the names of a chunk.
-/

namespace Condense

/-- A place that matters to the scopes: a name, or a call of `eval`. -/
inductive Use where
  | name (node : NodeId) (scope : ScopeId)
  | evaluation (scope : ScopeId)

namespace Tree

def isEval (t : Tree) (callee : NodeId) : Bool :=
  match t.form callee with
  | .lookup name _ _ => name == "eval"
  | _ => false

/-- The scope that the children of a node stand in, when the node itself stands in `scope`. -/
def innerScope (scope : ScopeId) : Form NodeId → ScopeId
  | .program _ own | .function _ _ _ _ _ _ own _ | .classDefinition _ _ _ _ own => own
  | .block _ own _ | .forLoop _ _ _ _ own | .forInLoop _ _ _ _ _ own
  | .switchStatement _ _ own => own.getD scope
  | _ => scope

/-- The children of a node, each with the scope it stands in. -/
def scopedChildren (scope : ScopeId) : Form NodeId → List (NodeId × ScopeId)
  | .withStatement object body own => [(object, scope), (body, own)]
  | .tryStatement body binding handler own finalizer =>
    (body, scope) :: ((binding.toList ++ handler.toList).map fun id => (id, own.getD scope))
      ++ finalizer.toList.map fun id => (id, scope)
  | form => form.children.map fun id => (id, innerScope scope form)

def usesUpTo (t : Tree) : Nat → NodeId → ScopeId → List Use
  | 0, _, _ => []
  | depth + 1, id, scope =>
    match t.form id with
    | .lookup .. => [.name id scope]
    | form =>
      let own := match form with
        | .call callee _ _ _ => if t.isEval callee then [Use.evaluation scope] else []
        | _ => []
      own ++ (scopedChildren scope form).flatMap fun (child, inner) => t.usesUpTo depth child inner

def uses (t : Tree) (root : NodeId) : List Use :=
  let scope := match t.form root with
    | .program _ scope => scope
    | _ => ScopeTree.global
  t.usesUpTo (t.size + 1) root scope

/-- How the name at `id` is used by the node that holds it. -/
def referenceType (t : Tree) (id : NodeId) : ReferenceType :=
  match (t.parent? id).map t.form with
  | some (.call callee _ isNew _) =>
    if callee != id then .variable else if isNew then .constructor else .function
  | _ => .variable

def isTypeofOperand (t : Tree) (id : NodeId) : Bool :=
  match (t.parent? id).map t.form with
  | some (.unary .typeof _) => true
  | _ => false

end Tree

/-- Makes the scopes that a call of `eval` can see unfit for analysis, as far as the settings say. -/
def ScopeTree.exposeToEval (t : ScopeTree) (treatment : EvalTreatment) (scope : ScopeId) : ScopeTree :=
  let affected := match treatment with
    | .ignore => []
    | .makeImmediateSafe =>
      let last := t.variableScope scope
      (t.ancestors scope).takeWhile (· != last) ++ [last]
    | .makeAllSafe => t.ancestors scope
  affected.foldl ScopeTree.makeUnknown t

structure Resolution where
  settings : Settings
  tree : Tree
  scopes : ScopeTree
  diagnostics : Array Diagnostic := #[]

namespace Resolution

def report (r : Resolution) (problem : Problem) (span : Span) : Resolution :=
  { r with diagnostics := r.diagnostics.push (problem.diagnostic span) }

/-- Records an undefined name. The first of each name is reported, unless it is only asked for its
type. -/
def recordUndefined (r : Resolution) (ref : UndefinedReference) (node : NodeId) : Resolution :=
  let (first, scopes) := r.scopes.recordUndefined ref (!r.tree.isTypeofOperand node)
  let r := { r with scopes }
  if first then r.report (.undeclared ref.type ref.name) ref.span else r

/-- The field of a name inside a `with` body. The object may have the property or not, so the field it
would otherwise be keeps its name. -/
def withField (r : Resolution) (scope : ScopeId) (name : String) (outer : Option FieldId) (span : Span) :
    FieldId × Resolution :=
  let (id, scopes) := r.scopes.createField scope name .withField
  let scopes := scopes.modifyField id fun f => { f with outer }
  match outer with
  | none => (id, { r with scopes })
  | some outer =>
    let root := scopes.outermost outer
    let kind := (scopes.field root).kind
    if kind == .localName || kind == .argument || kind == .catchError then
      let scopes := scopes.modifyField root fun f => { f with canCrunch := false }
      (id, { r with scopes }.report (.ambiguousInWith name) span)
    else (id, { r with scopes })

/-- Marks the name of a function expression that is also used outside of the function. -/
def markFunctionName (r : Resolution) (function : NodeId) (name : String) : Resolution :=
  match r.tree.form function with
  | .function _ _ _ _ _ _ _ (some nameScope) =>
    match r.scopes.findLocal? nameScope name with
    | some inner =>
      let preserve := r.settings.preserveFunctionNames
      { r with scopes := r.scopes.modifyField inner fun f =>
          { f with isAmbiguous := true, canCrunch := f.canCrunch && !preserve } }
    | none => r
  | _ => r

def checkFound (r : Resolution) (id : FieldId) (ref : UndefinedReference) (node : NodeId) : Resolution :=
  let field := r.scopes.field id
  match field.kind with
  | .ghost =>
    if field.isAmbiguous then r
    else
      let r := { r with scopes := r.scopes.modifyField id fun f => { f with isAmbiguous := true } }
      let r := match field.value with
        | some function => r.markFunctionName function ref.name
        | none => r
      r.report (.escapingFunctionName ref.name) ref.span
  | .global =>
    if field.scope == ScopeTree.global && !field.isDeclared then r.recordUndefined ref node else r
  | _ => r

def missing (r : Resolution) (ref : UndefinedReference) (node : NodeId) : FieldId × Resolution :=
  if r.settings.isKnownGlobal ref.name || isPredefinedGlobal ref.name then
    let (id, scopes) := r.scopes.createField ScopeTree.global ref.name .predefined
    (id, { r with scopes })
  else
    let (id, scopes) := r.scopes.createField ScopeTree.global ref.name .global
    (id, { r with scopes }.recordUndefined ref node)

/-- How far out in `chain` the name is found, if at all. -/
def foundAt? (scopes : ScopeTree) (chain : List ScopeId) (name : String) : Option Nat :=
  chain.findIdx? fun s => (scopes.findLocal? s name).isSome

/-- Gives the function around `scope` its `arguments` object if a name refers to it. -/
def provideArguments (scopes : ScopeTree) (scope : ScopeId) (chain : List ScopeId) (name : String)
    (found : Option Nat) : Option Nat × ScopeTree :=
  match if name == "arguments" then scopes.argumentsScope? scope else none with
  | none => (found, scopes)
  | some owner =>
    let at? := chain.idxOf? owner
    let farther : Bool := match found, at? with
      | some f, some o => o < f
      | _, _ => true
    if farther then (at?, (scopes.createField owner name .arguments).2) else (found, scopes)

/-- Resolves the name at `node`, which stands in `scope`. -/
def resolveName (r : Resolution) (node : NodeId) (scope : ScopeId) : Resolution :=
  match r.tree.form node with
  | .lookup name _ _ =>
    let span := r.tree.span node
    let type := r.tree.referenceType node
    let ref : UndefinedReference := { name, span, type }
    let chain := r.scopes.ancestors scope
    let (found, scopes) := provideArguments r.scopes scope chain name (foundAt? r.scopes chain name)
    let r := { r with scopes }
    let crossed := chain.take (found.getD chain.length)
    let withScope := crossed.find? fun s => (scopes.scope s).kind == .withBody
    let field := found.bind fun i => chain[i]?.bind fun s => scopes.findLocal? s name
    let (target, r) := match withScope, field with
      | some withScope, outer => r.withField withScope name outer span
      | none, some field => (field, r.checkFound field ref node)
      | none, none => r.missing ref node
    let (local', scopes) := r.scopes.reference scope target
    { r with scopes, tree := r.tree.modifyForm node fun _ => .lookup name (some local') type }
  | _ => r

def step (r : Resolution) : Use → Resolution
  | .name node scope => r.resolveName node scope
  | .evaluation scope =>
    { r with scopes := r.scopes.exposeToEval r.settings.evalTreatment scope }

end Resolution

def resolveNames (settings : Settings) (tree : Tree) (scopes : ScopeTree) (root : NodeId) : Resolution :=
  (tree.uses root).foldl Resolution.step { settings, tree, scopes }

end Condense
