import Condense.Minify.Basic
import Condense.Scope.Basic
import Condense.Settings.Basic

/-!
Removal of what can never run or is never referred to.
-/

namespace Condense.DeadCode

/-- Replaces an `if` with a known condition by the branch that runs, if the other one hoists nothing. -/
def takeBranch (root : NodeId) (t : Tree) (id : NodeId) : Changed :=
  if t.isLive root id then
    match t.form id with
    | .ifStatement condition consequent alternate =>
      match t.truth? condition with
      | none => { tree := t }
      | some taken =>
        let kept := if taken then some consequent else alternate
        let dropped := if taken then alternate else some consequent
        if dropped.any t.hoists then { tree := t }
        else
          let (new, t) := match kept with
            | some statement => (statement, t)
            | none => t.alloc .empty (t.span id)
          { tree := t.replaceIfHeld id new, changes := 1 }
    | _ => { tree := t }
  else { tree := t }

/-- Takes the initial value from a declarator that never runs. -/
def stripInit (t : Tree) (declarator : NodeId) : Tree :=
  match t.form declarator with
  | .declarator target (some _) =>
    match t.form target with
    | .bindingIdentifier .. => t.setForm declarator (.declarator target none)
    | _ => t
  | _ => t

def stripInits (t : Tree) (statement : NodeId) : Tree :=
  match t.form statement with
  | .var .var declarators => declarators.foldl stripInit t
  | _ => t

def isEmptyForm : Form NodeId → Bool
  | .empty => true
  | _ => false

/-- Whether a statement stays where control never gets to. -/
def outlivesJump : Form NodeId → Bool
  | .importantComment _ => true
  | form => form.isDeclaration

/-- The statements of a list that are kept; `unreachable` says that control does not get to the first. -/
def keep : Bool → List NodeId → Tree → List NodeId × Tree
  | _, [], t => ([], t)
  | unreachable, id :: rest, t =>
    let form := t.form id
    if isEmptyForm form || (unreachable && !outlivesJump form) then keep unreachable rest t
    else
      let t := if unreachable then stripInits t id else t
      let (kept, t) := keep (unreachable || form.isJump) rest t
      (id :: kept, t)

def prune (t : Tree) (list : NodeId) : Changed :=
  let statements := t.statements list
  let (kept, t) := keep false statements t
  let removed := statements.length - kept.length
  { tree := if removed > 0 then t.setStatements list kept else t, changes := removed }

def dropLastBreak (t : Tree) (cases : List NodeId) : Changed :=
  match cases.getLast?.bind fun last => (t.statements last).getLast? with
  | some statement => match t.form statement with
    | .breakStatement none => Changed.ofOption t (t.removeStatement? statement)
    | _ => { tree := t }
  | none => { tree := t }

def isEmptyDefault (t : Tree) (id : NodeId) : Bool :=
  match t.form id with
  | .switchCase none [] => true
  | _ => false

def trimOnce (settings : Settings) (id : NodeId) (t : Tree) : Changed :=
  match t.form id with
  | .switchStatement discriminant cases scope =>
    let c := if settings.allows .removeBreakFromLastCase then dropLastBreak t cases else { tree := t }
    c.andThen fun t =>
      if cases.getLast?.any (isEmptyDefault t) && settings.allows .removeEmptyDefaultCase then
        { tree := t.setForm id (.switchStatement discriminant cases.dropLast scope), changes := 1 }
      else { tree := t }
  | _ => { tree := t }

def trimUpTo (settings : Settings) (id : NodeId) : Nat → Tree → Changed
  | 0, t => { tree := t }
  | rounds + 1, t =>
    let c := trimOnce settings id t
    if c.changes == 0 then c else c.andThen (trimUpTo settings id rounds)

/-- Trims a switch until it ends neither in `break` nor in an empty default clause. -/
def trimSwitch (settings : Settings) (t : Tree) (id : NodeId) : Changed :=
  let statements := (t.children id).map fun clause => (t.statements clause).length
  trimUpTo settings id ((t.children id).length + statements.foldl (· + ·) 0 + 1) t

def fieldOf? (t : Tree) (binding : NodeId) : Option FieldId :=
  match t.form binding with
  | .bindingIdentifier _ field => field
  | _ => none

def isUnusedFunction (t : Tree) (scopes : ScopeTree) (binding : NodeId) : Bool :=
  match (fieldOf? t binding).map scopes.field with
  | some field =>
    field.kind == .localName && field.refCount == 0 && !field.isExported
      && field.declarations.length == 1 && (scopes.scope field.scope).isKnown
  | none => false

def isUnusedName (t : Tree) (scopes : ScopeTree) (binding : NodeId) : Bool :=
  match (fieldOf? t binding).map scopes.field with
  | some field => field.refCount == 0 && !field.isAmbiguous && (scopes.scope field.scope).isKnown
  | none => false

def dropsFunctionNames (settings : Settings) : Bool :=
  settings.removeFunctionExpressionNames && !settings.preserveFunctionNames
    && settings.allows .removeFunctionExpressionNames

def dropUnused (settings : Settings) (scopes : ScopeTree) (root : NodeId) (t : Tree) (id : NodeId) :
    Changed :=
  if t.isLive root id then
    match t.form id with
    | .tryStatement body binding (some handler) scope (some finalizer) =>
      if settings.allows .removeEmptyFinally && (t.statements finalizer).isEmpty then
        { tree := t.setForm id (.tryStatement body binding (some handler) scope none), changes := 1 }
      else { tree := t }
    | .switchStatement .. => trimSwitch settings t id
    | .function .declaration (some binding) .. =>
      if isUnusedFunction t scopes binding then Changed.ofOption t (t.removeStatement? id)
      else { tree := t }
    | .function .expression (some binding) params body isAsync isGenerator scope nameScope =>
      if dropsFunctionNames settings && isUnusedName t scopes binding then
        { tree := t.setForm id (.function .expression none params body isAsync isGenerator scope nameScope)
          changes := 1 }
      else { tree := t }
    | _ => { tree := t }
  else { tree := t }

def run (settings : Settings) (scopes : ScopeTree) (root : NodeId) (t : Tree) : Changed :=
  let branches := Changed.each (t.descendants root) (takeBranch root) t
  let lists := branches.andThen fun t => Changed.each (t.editableLists root) (fun t list =>
    if t.isLive root list then prune t list else { tree := t }) t
  lists.andThen fun t => Changed.each (t.descendants root) (dropUnused settings scopes root) t

end Condense.DeadCode
