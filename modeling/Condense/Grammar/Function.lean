import Condense.Grammar.State

/-!
Rules for what both expressions and statements contain: property keys, binding patterns, statement lists, functions
and classes.
-/

namespace Condense

abbrev Rules := Goal → Parse NodeId

namespace Parse

def propertyKey (rules : Rules) : Parse (NodeId × Bool) := do
  let start ← place
  match ← token with
  | .string value =>
    let _ ← bump
    return (← alloc (.constant (.string value)) start, false)
  | .number value =>
    let _ ← bump
    return (← alloc (.constant (.number value)) start, false)
  | .bigInt digits =>
    let _ ← bump
    return (← alloc (.bigInt digits) start, false)
  | .punctuator .lBracket =>
    let _ ← bump
    let key ← allowingIn (rules .assignment)
    let _ ← expect .rBracket
    return (key, true)
  | _ =>
    let (name, span) ← expectPropertyName
    return (← alloc (.propertyName name) span, false)

def withDefault (rules : Rules) (target : NodeId) (start : Span) : Parse NodeId := do
  if ← eat .assign then
    let default ← rules .assignment
    allocFrom (.assignmentPattern target default) start
  else return target

def bindingElement (rules : Rules) : Parse NodeId := do
  let start ← place
  withDefault rules (← rules .bindingTarget) start

def bindingItem (rules : Rules) : Parse NodeId := do
  let start ← place
  if ← eat .spread then
    let argument ← rules .bindingTarget
    allocFrom (.restElement argument) start
  else bindingElement rules

/-- Items with commas between them and maybe one behind the last, the latest first. -/
def commaItems {α : Type} (stop : Punctuator) (item : Parse α) : Parse (List α) :=
  cycle [] fun done => do
    if ← isAt stop then return .done done
    else
      let item ← item
      if ← eat .comma then return .again (item :: done) else return .done (item :: done)

/-- The same for the elements of an array, which may be missing. -/
def commaElements (element : Parse NodeId) : Parse (List (Option NodeId)) :=
  cycle [] fun done => do
    if ← isAt .rBracket then return .done done
    else if ← eat .comma then return .again (none :: done)
    else
      let element ← element
      if ← eat .comma then return .again (some element :: done) else return .done (some element :: done)

def arrayPattern (rules : Rules) (start : Span) : Parse NodeId := do
  let elements ← commaElements (bindingItem rules)
  let _ ← expect .rBracket
  allocFrom (.arrayPattern elements.reverse) start

/-- The value of a property pattern that has only a name, maybe with a default. -/
def shorthandPattern (rules : Rules) (name : String) (key : NodeId) (start : Span) : Parse NodeId := do
  withDefault rules (← alloc (.bindingIdentifier name none) (← spanOf key)) start

def propertyPattern (rules : Rules) : Parse NodeId := do
  let start ← place
  if ← eat .spread then
    let argument ← rules .bindingTarget
    allocFrom (.restElement argument) start
  else
    let shorthand ← nameHere?
    let (key, computed) ← propertyKey rules
    if ← eat .colon then
      let value ← bindingElement rules
      allocFrom (.property key value .init computed) start
    else
      match if computed then none else shorthand with
      | some name =>
        let value ← shorthandPattern rules name key start
        allocFrom (.property key value .shorthand computed) start
      | none => fail .colon

def objectPattern (rules : Rules) (start : Span) : Parse NodeId := do
  let properties ← commaItems .rBrace (propertyPattern rules)
  let _ ← expect .rBrace
  allocFrom (.objectPattern properties.reverse) start

def bindingTarget (rules : Rules) : Parse NodeId := do
  let start ← place
  if ← eat .lBracket then arrayPattern rules start
  else if ← eat .lBrace then objectPattern rules start
  else
    let (name, span) ← expectIdentifier
    alloc (.bindingIdentifier name none) span

/-- Applies a statement of the directive prologue. Answers whether the prologue goes on. -/
def checkDirective (statement : NodeId) : Parse Bool := do
  match ← formOf statement with
  | .constant (.string value) =>
    if value == "use strict" then
      let s ← get
      let scope := s.scopes.variableScope s.context.scope
      modifyScopes (·.modifyScope scope fun s => { s with useStrict := true })
    return true
  | _ => return false

/-- One statement of a list, or none where it failed and reading goes on behind it. -/
def recovering (rules : Rules) : Parse (Except Failure (Option NodeId)) := do
  let saved := (← get).context
  let labels := (← get).labels
  let startOffset := (← place).start.offset
  match ← attempt (rules .item) with
  | .ok statement => return .ok (some statement)
  | .error .recover =>
    modify fun s => { s with context := saved, labels }
    synchronize startOffset
    return .ok none
  | .error stop => return .error stop

def listItem (rules : Rules) (done : List NodeId) (inPrologue : Bool) :
    Parse (Turn (List NodeId × Bool) (List NodeId × Option Failure)) := do
  match ← recovering rules with
  | .ok (some statement) =>
    let inPrologue ← if inPrologue then checkDirective statement else pure false
    return .again (statement :: done, inPrologue)
  | .ok none => return .again (done, false)
  | .error failure => return .done (done.reverse, some failure)

def listStep (rules : Rules) (stop : Option Punctuator) :
    List NodeId × Bool → Parse (Turn (List NodeId × Bool) (List NodeId × Option Failure))
  | (done, inPrologue) => do
    let done := (← flushComments).reverse ++ done
    if ← isAtEnd then return .done (done.reverse, none)
    else
      match stop with
      | some p => if ← isAt p then return .done (done.reverse, none) else listItem rules done inPrologue
      | none =>
        if ← isAt .rBrace then
          report .strayBrace (← place)
          let _ ← bump
          return .again (done, inPrologue)
        else listItem rules done inPrologue

/-- Statements up to a closing token or the end of input, which are kept also where the input ended in
the middle of one. -/
def statementList (rules : Rules) (stop : Option Punctuator) (directives : Bool)
    (before : List NodeId := []) : Parse (List NodeId × Option Failure) :=
  cycle (before.reverse, directives) (listStep rules stop)

def closeBrace (opened : Span) : Parse Unit := do
  if !(← eat .rBrace) then
    report (.unclosedBlock opened.start.line opened.start.column) (← place)

def bracedStatements (rules : Rules) (directives : Bool) : Parse (List NodeId) := do
  match ← statementList rules (some .rBrace) directives with
  | (statements, none) => return statements
  | (_, some failure) => throw failure

/-- Hands a node the scope that was kept for it, if there is one. -/
def keepScope (scope : Option ScopeId) (id : NodeId) : Parse NodeId := do
  match scope with
  | some scope => ownScope scope id
  | none => pure ()
  return id

def block (rules : Rules) : Parse NodeId := do
  let start := (← expect .lBrace).span
  let (statements, scope) ← inBlockScope (bracedStatements rules false)
  closeBrace start
  keepScope scope (← allocFrom (.block statements scope false) start)

def formalParameters (rules : Rules) (scope : ScopeId) : Parse (List NodeId) := do
  let _ ← expect .lParen
  let params ← commaItems .rParen do
    let param ← bindingItem rules
    declarePattern param scope .argument false
    return param
  let _ ← expect .rParen
  return params.reverse

/-- The body of a function. Labels and jumps do not reach into it. -/
def functionBody (rules : Rules) (scope : ScopeId) (isAsync isGenerator : Bool) : Parse NodeId := do
  let opened := (← expect .lBrace).span
  let labels := (← get).labels
  modify fun s => { s with labels := [] }
  let inner : Context := { scope, inFunction := true, inGenerator := isGenerator, inAsync := isAsync }
  let statements ← (withContext (fun _ => inner) (bracedStatements rules true)).afterwards
    fun s => { s with labels }
  closeBrace opened
  allocFrom (.block statements none false) opened

def signatureAndBody (rules : Rules) (scope : ScopeId) (isAsync isGenerator : Bool) :
    Parse (List NodeId × NodeId) :=
  withContext
    (fun c => { c with scope, inAsync := isAsync, inGenerator := isGenerator })
    (do
      let params ← formalParameters rules scope
      let body ← functionBody rules scope isAsync isGenerator
      return (params, body))

/-- Keeps the name of a function expression free in the variable scope around it. -/
def placeGhost (enclosing : ScopeId) (name : String) (span : Span) (function : NodeId) : Parse Unit := do
  let scopes := (← get).scopes
  let scope := scopes.variableScope enclosing
  match scopes.findLocal? scope name with
  | none =>
    let ghost ← onScopes (·.createField scope name .ghost)
    modifyScopes (·.modifyField ghost fun f => { f with value := some function, isPlaceholder := true })
  | some existing =>
    let field := scopes.field existing
    if field.kind != .ghost && field.isDeclared then flagAmbiguousName function name span

def functionName (kind : FunctionKind) : Parse (Option (String × Span)) := do
  match ← nameHere? with
  | some name => return some (name, (← bump).span)
  | none =>
    if kind == .declaration && !(← get).afterDefault then fail .functionName else return none

/-- Declares the name of a function: a declaration in the variable scope, an expression in a scope of its
own. Answers the binding, its field and that scope. -/
def bindFunctionName (kind : FunctionKind) (enclosing : ScopeId) (name : String) (span : Span) :
    Parse (NodeId × FieldId × Option ScopeId) := do
  let binding ← alloc (.bindingIdentifier name none) span
  let (field, nameScope) ←
    if kind == .declaration then do
      let scope := (← get).scopes.variableScope enclosing
      let field ← declare scope name .localName span
      modifyScopes (·.modifyField field fun f => { f with isFunction := true })
      pure (field, none)
    else do
      let scope ← onScopes (·.pushScope .block enclosing)
      modifyScopes (·.modifyScope scope fun s => { s with isNameScope := true })
      let field ← onScopes (·.declare scope name .localName span)
      pure (field, some scope)
  modifyTree (·.modifyForm binding (setBinding field))
  return (binding, field, nameScope)

def functionRest (rules : Rules) (kind : FunctionKind) (isAsync : Bool) (start : Span) :
    Parse NodeId := do
  let isGenerator ← eat .star
  let name ← functionName kind
  modify fun s => { s with afterDefault := false }
  let enclosing ← scopeHere
  let bound ← match name with
    | some (name, span) => do pure (some (← bindFunctionName kind enclosing name span))
    | none => pure none
  let nameScope := bound.bind fun (_, _, scope) => scope
  let scope ← onScopes (·.pushScope .function (nameScope.getD enclosing))
  let (params, body) ← signatureAndBody rules scope isAsync isGenerator
  let id ← allocFrom
    (.function kind (bound.map (·.1)) params body isAsync isGenerator scope nameScope) start
  ownScope scope id
  match nameScope with
  | some nameScope => ownScope nameScope id
  | none => pure ()
  match bound with
  | some (_, field, _) => modifyScopes (·.modifyField field fun f => { f with value := some id })
  | none => pure ()
  match nameScope, name with
  | some _, some (name, span) => placeGhost enclosing name span id
  | _, _ => pure ()
  return id

def functionDeclaration (rules : Rules) (isAsync : Bool) : Parse NodeId := do
  let start ← place
  if isAsync then
    let _ ← bump
  let _ ← bump
  functionRest rules .declaration isAsync start

def method (rules : Rules) (kind : FunctionKind) (isAsync isGenerator : Bool) (start : Span) :
    Parse NodeId := do
  let scope ← onScopes (·.pushScope .function (← scopeHere))
  let (params, body) ← signatureAndBody rules scope isAsync isGenerator
  let id ← allocFrom (.function kind none params body isAsync isGenerator scope none) start
  ownScope scope id
  return id

def endsMemberName : Token → Bool
  | .punctuator .lParen | .punctuator .colon | .punctuator .comma | .punctuator .rBrace
  | .punctuator .assign | .punctuator .semicolon | .endOfInput => true
  | _ => false

/-- Reads `get`, `set`, `async` and `*` in front of a method key; `field` means no accessor word. -/
def methodPrefixes : Parse (ClassMemberKind × Bool × Bool) := do
  let getter ← isAtName "get"
  let setter ← isAtName "set"
  let kind ←
    if getter || setter then do
      if endsMemberName (← peek) then pure ClassMemberKind.field
      else
        let _ ← bump
        pure (if getter then ClassMemberKind.getter else .setter)
    else pure .field
  let isAsync ←
    if !(getter || setter) && (← isAtWord .async) then do
      let next ← peekLexeme
      if next.newlineBefore || endsMemberName next.token then pure false
      else
        let _ ← bump
        pure true
    else pure false
  return (kind, isAsync, ← eat .star)

def functionKindOf : ClassMemberKind → FunctionKind
  | .getter => .getter
  | .setter => .setter
  | _ => .method

def isStaticMember : Parse Bool := do
  if ← isAtWord .static then
    match ← peek with
    | .punctuator .lParen | .punctuator .assign => return false
    | _ => return true
  else return false

def classMember (rules : Rules) : Parse NodeId := do
  let start ← place
  let isStatic ← isStaticMember
  if isStatic then
    let _ ← bump
  let (kind, isAsync, isGenerator) ← methodPrefixes
  let (key, computed) ← propertyKey rules
  if ← isAt .lParen then
    let value ← method rules (functionKindOf kind) isAsync isGenerator start
    let kind := if kind == .field then .method else kind
    allocFrom (.classMember key (some value) kind isStatic computed) start
  else
    let value ← optionally (isAt .assign) (withContext (fun c => { c with inFunction := true }) (rules .assignment))
    consumeSemicolon
    allocFrom (.classMember key value .field isStatic computed) start

def classMembers (rules : Rules) : Parse (List NodeId) := do
  let members ← cycle ([] : List NodeId) fun done => do
    if (← isAt .rBrace) || (← isAtEnd) then return .done done
    else if ← eat .semicolon then return .again done
    else return .again ((← classMember rules) :: done)
  return members.reverse

/-- The name of a class and its binding: a declaration is bound around it, an expression within. -/
def className (isExpression : Bool) (enclosing scope : ScopeId) (name : Option (String × Span)) :
    Parse (Option NodeId) := do
  match name with
  | some (name, span) =>
    let binding ← alloc (.bindingIdentifier name none) span
    declarePattern binding (if isExpression then scope else enclosing) .localName false
    return some binding
  | none =>
    if !isExpression && !(← get).afterDefault then fail .className else return none

def classDefinition (rules : Rules) (isExpression : Bool) : Parse NodeId := do
  let start := (← bump).span
  let enclosing ← scopeHere
  let name ← match ← nameHere? with
    | some name => do pure (some (name, (← bump).span))
    | none => pure none
  let scope ← onScopes (·.pushScope .classBody enclosing)
  modifyScopes (·.modifyScope scope fun s => { s with useStrict := true })
  let binding ← className isExpression enclosing scope name
  modify fun s => { s with afterDefault := false }
  let heritage ← optionally (isAtWord .extends) (rules .leftHandSide)
  let opened := (← expect .lBrace).span
  let members ← withScope scope (classMembers rules)
  closeBrace opened
  let id ← allocFrom (.classDefinition binding heritage members isExpression scope) start
  ownScope scope id
  match binding with
  | some binding =>
    match ← formOf binding with
    | .bindingIdentifier _ (some field) =>
      modifyScopes (·.modifyField field fun f => { f with value := some id })
    | _ => pure ()
  | none => pure ()
  return id

end Parse

end Condense
