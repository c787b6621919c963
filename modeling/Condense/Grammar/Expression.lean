import Condense.Grammar.Function

/-!
Rules for expressions. Binary operators are read by climbing their levels; an arrow function is read as a
parenthesized expression first and then turned into parameters.
-/

namespace Condense.Parse

def lookup (name : String) (span : Span) : Parse NodeId :=
  alloc (.lookup name none .variable) span

def commaStep (rules : Rules) (start : Span) (left : NodeId) : Parse (Turn NodeId NodeId) := do
  if ← eat .comma then
    let right ← rules .assignment
    return .again (← allocFrom (.binary .comma left right) start)
  else return .done left

def expression (rules : Rules) : Parse NodeId := do
  let start ← place
  let first ← rules .assignment
  cycle first (commaStep rules start)

def invalidPattern {α : Type} (span : Span) : Parse α := do
  report .invalidPattern span
  throw .recover

/-- Turns an expression into the binding pattern with the same text, in place. -/
def toBindingUpTo : Nat → NodeId → Parse Unit
  | 0, _ => pure ()
  | depth + 1, id => do
    match ← formOf id with
    | .lookup name _ _ => modifyTree (·.setForm id (.bindingIdentifier name none))
    | .arrayLiteral elements =>
      elements.forM fun element => match element with
        | some element => toBindingUpTo depth element
        | none => pure ()
      modifyTree (·.setForm id (.arrayPattern elements))
    | .objectLiteral properties _ =>
      properties.forM fun property => do
        match ← formOf property with
        | .property _ value .init _ | .property _ value .shorthand _ => toBindingUpTo depth value
        | .spread _ => toBindingUpTo depth property
        | _ => invalidPattern (← spanOf id)
      modifyTree (·.setForm id (.objectPattern properties))
    | .binary .assign left right =>
      toBindingUpTo depth left
      modifyTree (·.setForm id (.assignmentPattern left right))
    | .spread argument =>
      toBindingUpTo depth argument
      modifyTree (·.setForm id (.restElement argument))
    | .bindingIdentifier .. | .arrayPattern .. | .objectPattern .. | .assignmentPattern ..
    | .restElement .. => pure ()
    | _ => invalidPattern (← spanOf id)

def toBinding (id : NodeId) : Parse Unit := do
  toBindingUpTo ((← get).tree.size + 1) id

def arrowBody (rules : Rules) (scope : ScopeId) (isAsync : Bool) : Parse NodeId := do
  if ← isAt .lBrace then functionBody rules scope isAsync false
  else
    let start ← place
    let expression ← withContext
      (fun c => { c with scope, inFunction := true, inAsync := isAsync, inGenerator := false })
      (rules .assignment)
    allocFrom (.block [expression] none true) start

/-- An arrow function from its arrow on. Scopes that were opened while its parameters were read as
expressions, those from index `since` on, move into its own. -/
def finishArrow (rules : Rules) (params : List NodeId) (isAsync : Bool) (start : Span) (since : Nat) :
    Parse NodeId := do
  if !(← isAt .arrow) then fail .arrow
  else
    let _ ← bump
    let enclosing ← scopeHere
    let scope ← onScopes (·.pushScope .function enclosing)
    modifyScopes fun t =>
      (t.modifyScope scope fun s => { s with isArrow := true }).adoptScopes since enclosing scope
    params.forM fun param => declarePattern param scope .argument false
    let body ← arrowBody rules scope isAsync
    let id ← allocFrom (.function .arrow none params body isAsync false scope none) start
    ownScope scope id
    return id

def spreadable (rules : Rules) : Parse NodeId := do
  let start ← place
  if ← eat .spread then
    let argument ← rules .assignment
    allocFrom (.spread argument) start
  else rules .assignment

def arguments (rules : Rules) : Parse (List NodeId) := do
  let _ ← expect .lParen
  let items ← allowingIn (commaItems .rParen (spreadable rules))
  let _ ← expect .rParen
  return items.reverse

def arrayLiteral (rules : Rules) : Parse NodeId := do
  let start := (← bump).span
  let elements ← allowingIn (commaElements (spreadable rules))
  let _ ← expect .rBracket
  allocFrom (.arrayLiteral elements.reverse) start

def propertyKindOf : ClassMemberKind → PropertyKind
  | .getter => .getter
  | .setter => .setter
  | _ => .method

/-- A property that has only a name. A default value is meaningful only if the literal turns out to be
a pattern. -/
def shorthandProperty (rules : Rules) (name : String) (key : NodeId) (start : Span) : Parse NodeId := do
  let value ← lookup name (← spanOf key)
  let value ←
    if ← eat .assign then do
      let default ← rules .assignment
      allocFrom (.binary .assign value default) start
    else pure value
  allocFrom (.property key value .shorthand false) start

def objectProperty (rules : Rules) : Parse NodeId := do
  let start ← place
  if ← eat .spread then
    let argument ← rules .assignment
    allocFrom (.spread argument) start
  else
    let (kind, isAsync, isGenerator) ← methodPrefixes
    let shorthand ← nameHere?
    let (key, computed) ← propertyKey rules
    if ← isAt .lParen then
      let value ← method rules (functionKindOf kind) isAsync isGenerator start
      allocFrom (.property key value (propertyKindOf kind) computed) start
    else if ← eat .colon then
      let value ← rules .assignment
      allocFrom (.property key value .init computed) start
    else
      match if computed then none else shorthand with
      | some name => shorthandProperty rules name key start
      | none => fail .colon

def objectLiteral (rules : Rules) : Parse NodeId := do
  let start := (← bump).span
  let properties ← allowingIn (commaItems .rBrace (objectProperty rules))
  let _ ← expect .rBrace
  allocFrom (.objectLiteral properties.reverse false) start

def isSpread : Form NodeId → Bool
  | .spread _ => true
  | _ => false

def parenthesizedItems (rules : Rules) : Parse (List NodeId × Bool) :=
  allowingIn <| cycle (([] : List NodeId), false) fun (done, trailing) => do
    if ← isAt .rParen then return .done (done.reverse, trailing)
    else
      let item ← spreadable rules
      if ← eat .comma then return .again (item :: done, true)
      else return .done ((item :: done).reverse, false)

def joinItems (first : NodeId) (rest : List NodeId) : Parse NodeId :=
  rest.foldlM (fun left right => do
    let span := (← spanOf left).merge (← spanOf right)
    alloc (.binary .comma left right) span) first

def grouping (items : List NodeId) (trailing : Bool) (start : Span) : Parse NodeId := do
  let tree := (← get).tree
  match items with
  | [] => fail .expression
  | first :: rest =>
    if trailing then fail .expression
    else
      match items.find? fun id => isSpread (tree.form id) with
      | some spread =>
        report .straySpread (tree.span spread)
        throw .recover
      | none =>
        allocFrom (.grouping (← joinItems first rest)) start

/-- Parentheses: a grouping, or the parameters of an arrow function. Behind the word `async`, which was
taken already, they are else the arguments of a function of that name. -/
def parenthesized (rules : Rules) (start : Span) (isAsync : Bool) : Parse NodeId := do
  let since := (← get).scopes.scopes.size
  let _ ← expect .lParen
  let (items, trailing) ← parenthesizedItems rules
  let _ ← expect .rParen
  if (← isAt .arrow) && !(← newlineBefore) then
    items.forM toBinding
    finishArrow rules items isAsync start since
  else if isAsync then
    let callee ← lookup "async" start
    allocFrom (.call callee items false false) start
  else grouping items trailing start

/-- The substitutions of a template literal behind its head, and the texts after them. -/
def templateParts (rules : Rules) : Parse (List String × List NodeId) :=
  cycle (([] : List String), ([] : List NodeId)) fun (texts, parts) => do
    let part ← allowingIn (expression rules)
    let parts := part :: parts
    match ← token with
    | .templateMiddle raw =>
      let _ ← bump
      return .again (raw :: texts, parts)
    | .templateTail raw =>
      let _ ← bump
      return .done ((raw :: texts).reverse, parts.reverse)
    | _ => fail .substitutionEnd

def template (rules : Rules) (tag : Option NodeId) (start : Span) : Parse NodeId := do
  match (← bump).token with
  | .templateLiteral raw => allocFrom (.template tag [raw] []) start
  | .templateHead raw =>
    let (texts, parts) ← templateParts rules
    allocFrom (.template tag (raw :: texts) parts) start
  | _ => fail .template

mutual

def jsonLiteral (span : Span) : Json → Parse NodeId
  | .null => alloc (.constant .null) span
  | .boolean b => alloc (.constant (.boolean b)) span
  | .number n => alloc (.constant (.number (n.toFloat?.getD 0.0))) span
  | .string s => alloc (.constant (.string s)) span
  | .array items => do
    let elements ← jsonItems span items
    alloc (.arrayLiteral (elements.map some)) span
  | .object members => do
    let properties ← jsonMembers span members
    alloc (.objectLiteral properties true) span

def jsonItems (span : Span) : List Json → Parse (List NodeId)
  | [] => pure []
  | item :: rest => do
    let id ← jsonLiteral span item
    return id :: (← jsonItems span rest)

def jsonMembers (span : Span) : List (String × Json) → Parse (List NodeId)
  | [] => pure []
  | (key, value) :: rest => do
    let key ← alloc (.constant (.string key)) span
    let value ← jsonLiteral span value
    let property ← alloc (.property key value .init false) span
    return property :: (← jsonMembers span rest)

end

def replacementLiteral (value : ReplacementValue) (span : Span) : Parse NodeId :=
  match value with
  | .empty => alloc (.constant .empty) span
  | .number n => alloc (.constant (.number n)) span
  | .string s => alloc (.constant (.string s)) span
  | .boolean b => alloc (.constant (.boolean b)) span
  | .null => alloc (.constant .null) span
  | .json value => jsonLiteral span value

/-- Reads a slash again where an expression has to start. -/
def rescanSlash : Parse Unit := do
  let l ← lexeme
  if l.token.is .slash || l.token.is .slashEq then
    modify fun s =>
      let (current, scanner) := s.scanner.rescanAsRegExp l
      { s with current, scanner }
    collectDiagnostics

/-- A name, or the arrow function whose only parameter it is. -/
def nameOrArrow (rules : Rules) (start : Span) : Parse NodeId := do
  match ← nameHere? with
  | some name =>
    let since := (← get).scopes.scopes.size
    let _ ← bump
    if (← isAt .arrow) && !(← newlineBefore) then
      let param ← alloc (.bindingIdentifier name none) start
      finishArrow rules [param] false start since
    else lookup name start
  | none => fail .expression

/-- What the word `async` starts: a function, an arrow function, a call, or the name itself. -/
def asyncPrimary (rules : Rules) (start : Span) : Parse NodeId := do
  let next ← peekLexeme
  if next.newlineBefore then nameOrArrow rules start
  else
    match next.token with
    | .keyword .function =>
      let _ ← bump
      let _ ← bump
      functionRest rules .expression true start
    | .identifier .. =>
      let since := (← get).scopes.scopes.size
      let _ ← bump
      let (name, span) ← expectIdentifier
      let param ← alloc (.bindingIdentifier name none) span
      finishArrow rules [param] true start since
    | .punctuator .lParen =>
      let _ ← bump
      parenthesized rules start true
    | _ => nameOrArrow rules start

def leaf (form : Form NodeId) (start : Span) : Parse NodeId := do
  let _ ← bump
  alloc form start

/-- What a marker is replaced by, or the marker itself. -/
def replacement (name : String) (fallback : Option String) (start : Span) : Parse NodeId := do
  let _ ← bump
  ((← get).scanner.settings.resolveMarker? name fallback).elim (alloc (.replacementToken name fallback) start)
    fun text => replacementLiteral (ReplacementValue.classify text) start

def primary (rules : Rules) : Parse NodeId := do
  let start ← place
  rescanSlash
  match ← token with
  | .number value => leaf (.constant (.number value)) start
  | .string value => leaf (.constant (.string value)) start
  | .bigInt digits => leaf (.bigInt digits) start
  | .regExp pattern flags => leaf (.regExp pattern flags) start
  | .templateLiteral _ | .templateHead _ => template rules none start
  | .keyword .true => leaf (.constant (.boolean true)) start
  | .keyword .false => leaf (.constant (.boolean false)) start
  | .keyword .null => leaf (.constant .null) start
  | .keyword .this => leaf .this start
  | .keyword .super => leaf .super start
  | .keyword .function =>
    let _ ← bump
    functionRest rules .expression false start
  | .keyword .classWord => classDefinition rules true
  | .keyword .async => asyncPrimary rules start
  | .punctuator .lParen => parenthesized rules start false
  | .punctuator .lBracket => arrayLiteral rules
  | .punctuator .lBrace => objectLiteral rules
  | .replacement name fallback => replacement name fallback start
  | .marker (.variable name) => leaf (.ccVariable name) start
  | _ => nameOrArrow rules start

/-- What may follow an expression to form a member or an element of it, or a tagged template. -/
def memberSuffix? (rules : Rules) (object : NodeId) (start : Span) : Parse (Option NodeId) := do
  match ← token with
  | .punctuator .dot =>
    let _ ← bump
    let (name, _) ← expectPropertyName
    return some (← allocFrom (.member object name false) start)
  | .punctuator .lBracket =>
    let _ ← bump
    let key ← allowingIn (expression rules)
    let _ ← expect .rBracket
    return some (← allocFrom (.index object key false) start)
  | .templateLiteral _ | .templateHead _ => return some (← template rules (some object) start)
  | _ => return none

def optionalSuffix (rules : Rules) (object : NodeId) (start : Span) : Parse NodeId := do
  let _ ← bump
  if ← isAt .lParen then
    let arguments ← arguments rules
    allocFrom (.call object arguments false true) start
  else if ← eat .lBracket then
    let key ← allowingIn (expression rules)
    let _ ← expect .rBracket
    allocFrom (.index object key true) start
  else
    let (name, _) ← expectPropertyName
    allocFrom (.member object name true) start

def selectStep (rules : Rules) (start : Span) (object : NodeId) : Parse (Turn NodeId NodeId) := do
  match ← memberSuffix? rules object start with
  | some object => return .again object
  | none => return .done object

/-- A `new` expression; its arguments are optional. -/
def newExpression (rules : Rules) : Parse NodeId := do
  let start := (← bump).span
  if ← eat .dot then
    if ← isAtName "target" then
      let _ ← bump
      allocFrom .newTarget start
    else fail .wordTarget
  else
    let callee ← if ← isAtWord .new then rules .newExpression else primary rules
    let callee ← cycle callee (selectStep rules start)
    let arguments ← if ← isAt .lParen then arguments rules else pure []
    allocFrom (.call callee arguments true false) start

def suffixStep (rules : Rules) (start : Span) (object : NodeId) : Parse (Turn NodeId NodeId) := do
  match ← token with
  | .punctuator .optionalChain => return .again (← optionalSuffix rules object start)
  | .punctuator .lParen =>
    let arguments ← arguments rules
    return .again (← allocFrom (.call object arguments false false) start)
  | _ => selectStep rules start object

def leftHandSide (rules : Rules) : Parse NodeId := do
  let start ← place
  let first ← if ← isAtWord .new then newExpression rules else primary rules
  cycle first (suffixStep rules start)

def checkTarget (target : NodeId) (allowPattern : Bool) : Parse Unit := do
  let tree := (← get).tree
  let inner := tree.unwrapGrouping target
  let valid := match tree.form inner with
    | .lookup .. | .member .. | .index .. => true
    | .arrayLiteral .. | .objectLiteral .. => allowPattern && inner == target
    | _ => false
  if !valid then report .invalidTarget (tree.span target)

def unaryOp? : Token → Option UnaryOp
  | .punctuator .not => some .not
  | .punctuator .tilde => some .bitwiseNot
  | .punctuator .plus => some .plus
  | .punctuator .minus => some .minus
  | .keyword .typeof => some .typeof
  | .keyword .void => some .void
  | .keyword .delete => some .delete
  | _ => none

def updateOp? : Token → Option UpdateOp
  | .punctuator .plusPlus => some .increment
  | .punctuator .minusMinus => some .decrement
  | _ => none

/-- An operand with the increment or decrement behind it, which has to stand on the same line. -/
def postfixUpdate (rules : Rules) (start : Span) : Parse NodeId := do
  let operand ← leftHandSide rules
  let l ← lexeme
  match if l.newlineBefore then none else updateOp? l.token with
  | some op =>
    checkTarget operand false
    let _ ← bump
    allocFrom (.update op false operand) start
  | none => return operand

def unary (rules : Rules) : Parse NodeId := do
  let start ← place
  let t ← token
  match unaryOp? t, updateOp? t with
  | some op, _ =>
    let _ ← bump
    let operand ← rules .unary
    allocFrom (.unary op operand) start
  | none, some op =>
    let _ ← bump
    let operand ← rules .unary
    checkTarget operand false
    allocFrom (.update op true operand) start
  | none, none =>
    if t.isWord .await && (← get).context.inAsync then
      let _ ← bump
      let argument ← rules .unary
      allocFrom (.await argument) start
    else postfixUpdate rules start

/-- What the right operand of an operator reaches at least. -/
def operandRank (op : BinaryOp) : Nat :=
  match op.associativity with
  | .left => op.level.rank + 1
  | .right => op.level.rank

def climb (rules : Rules) (rank : Nat) (start : Span) (left : NodeId) : Parse (Turn NodeId NodeId) := do
  match (← token).binaryOp? with
  | none => return .done left
  | some op =>
    if (op == .isIn && (← get).context.noIn) || op.level.rank < rank then return .done left
    else
      let _ ← bump
      let right ← rules (.binary (operandRank op))
      return .again (← allocFrom (.binary op left right) start)

/-- Operators of at least the given rank, by climbing. -/
def binary (rules : Rules) (rank : Nat) : Parse NodeId := do
  let start ← place
  let first ← unary rules
  cycle first (climb rules rank start)

def conditional (rules : Rules) : Parse NodeId := do
  let start ← place
  let condition ← binary rules Level.coalesce.rank
  if ← eat .question then
    let consequent ← allowingIn (rules .assignment)
    let _ ← expect .colon
    let alternate ← rules .assignment
    allocFrom (.conditional condition consequent alternate) start
  else return condition

def endsYield (l : Lexeme) : Bool :=
  l.newlineBefore || match l.token with
    | .punctuator .rParen | .punctuator .rBracket | .punctuator .rBrace | .punctuator .comma
    | .punctuator .semicolon | .punctuator .colon | .templateMiddle _ | .templateTail _
    | .endOfInput => true
    | _ => false

def yieldExpression (rules : Rules) : Parse NodeId := do
  let start := (← bump).span
  let delegate ← if ← newlineBefore then pure false else eat .star
  let argument ←
    if delegate || !endsYield (← lexeme) then do pure (some (← rules .assignment)) else pure none
  allocFrom (.yield argument delegate) start

def assignment (rules : Rules) : Parse NodeId := do
  let start ← place
  if (← isAtWord .yield) && (← get).context.inGenerator then yieldExpression rules
  else
    let left ← conditional rules
    match (← token).assignmentOp? with
    | some op =>
      checkTarget left (op == .assign)
      let _ ← bump
      let right ← rules .assignment
      allocFrom (.binary op left right) start
    | none => return left

end Condense.Parse
