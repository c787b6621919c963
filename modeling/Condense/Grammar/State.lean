import Condense.Scope.Basic
import Condense.Syntax.Tree
import Condense.Token.Scanner

/-!
The state of a parse and the small steps on it: taking tokens, reporting problems, adding nodes, registering
declarations.
-/

namespace Condense

structure Context where
  scope : ScopeId := ScopeTree.global
  inFunction : Bool := false
  inGenerator : Bool := false
  inAsync : Bool := false
  loopDepth : Nat := 0
  switchDepth : Nat := 0
  /-- Set where `in` would end the head of a `for` loop. -/
  noIn : Bool := false
  deriving Inhabited

/-- Why a rule gave up. After `recover` a problem was reported and reading goes on at the next statement;
the others end the chunk. -/
inductive Failure where
  | recover
  | endOfInput (line column : UInt32)
  | exhausted
  deriving DecidableEq

structure ParseState where
  scanner : Scanner
  tree : Tree
  scopes : ScopeTree
  current : Lexeme := {}
  previous : Span := {}
  comments : List (String × Span) := []
  diagnostics : List Diagnostic := []
  context : Context := {}
  labels : List (String × Bool) := []
  /-- Set right behind `export default`, where a declaration needs no name. -/
  afterDefault : Bool := false
  /-- How many rounds a repetition may take. Rounds take up tokens, so there are no more than characters. -/
  rounds : Nat := scanner.source.length + 2
  deriving Inhabited

abbrev Parse := EStateM Failure ParseState

/-- The nonterminals that rules refer to. -/
inductive Goal where
  | item
  | statement
  | assignment
  | binary (rank : Nat)
  | unary
  | leftHandSide
  | newExpression
  | bindingTarget
  deriving DecidableEq

namespace Parse

variable {α σ β : Type}

def attempt (x : Parse α) : Parse (Except Failure α) := fun s =>
  match x s with
  | .ok a s => .ok (.ok a) s
  | .error e s => .ok (.error e) s

/-- Runs a rule and then changes the state, whether it failed or not. -/
def afterwards (x : Parse α) (f : ParseState → ParseState) : Parse α := fun s =>
  match x s with
  | .ok a s => .ok a (f s)
  | .error e s => .error e (f s)

inductive Turn (σ β : Type) where
  | again (s : σ)
  | done (b : β)

def turns (body : σ → Parse (Turn σ β)) : Nat → σ → Parse β
  | 0, _ => throw .exhausted
  | rounds + 1, s => do
    match ← body s with
    | .again s => turns body rounds s
    | .done b => pure b

def cycle (start : σ) (body : σ → Parse (Turn σ β)) : Parse β := do
  turns body (← get).rounds start

def lexeme : Parse Lexeme :=
  return (← get).current

def token : Parse Token :=
  return (← get).current.token

def place : Parse Span :=
  return (← get).current.span

def isAt (p : Punctuator) : Parse Bool :=
  return (← token).is p

def isAtWord (k : Keyword) : Parse Bool :=
  return (← token).isWord k

def isAtName (name : String) : Parse Bool :=
  return (← token).isName name

def isAtEnd : Parse Bool :=
  return (← token).isEnd

def newlineBefore : Parse Bool :=
  return (← get).current.newlineBefore

/-- The token after the current one, comments included. -/
def peekLexeme : Parse Lexeme :=
  modifyGet fun s =>
    let (next, scanner) := s.scanner.peek
    (next, { s with scanner })

def peek : Parse Token :=
  return (← peekLexeme).token

def collectDiagnostics : Parse Unit :=
  modify fun s =>
    let (found, scanner) := s.scanner.takeDiagnostics
    { s with scanner, diagnostics := s.diagnostics ++ found }

/-- The next token that is no kept comment; such comments wait for the next statement list. -/
def nextSignificant : Parse Lexeme :=
  cycle false fun newline => do
    let lexeme ← modifyGet fun s =>
      let (next, scanner) := s.scanner.next
      (next, { s with scanner })
    collectDiagnostics
    match lexeme.token with
    | .importantComment text =>
      modify fun s => { s with comments := s.comments ++ [(text, lexeme.span)] }
      return .again (newline || lexeme.newlineBefore || text.toList.contains '\n')
    | _ => return .done { lexeme with newlineBefore := lexeme.newlineBefore || newline }

/-- Moves on to the next token and answers the one left behind. -/
def bump : Parse Lexeme := do
  let next ← nextSignificant
  modifyGet fun s => (s.current, { s with current := next, previous := s.current.span })

def eat (p : Punctuator) : Parse Bool := do
  if ← isAt p then
    let _ ← bump
    return true
  else return false

/-- The part behind a mark that may be missing. -/
def optionally (mark : Parse Bool) (part : Parse α) : Parse (Option α) := do
  if ← mark then
    let _ ← bump
    return some (← part)
  else return none

def report (problem : Problem) (span : Span) : Parse Unit :=
  modify fun s => { s with diagnostics := s.diagnostics ++ [problem.diagnostic span] }

/-- Reports that something else was expected here. At the end of input that ends the chunk. -/
def fail (what : Expectation) : Parse α := do
  let span ← place
  if ← isAtEnd then
    report .endOfInput span
    throw (.endOfInput span.start.line span.start.column)
  else
    report (.expected what (← token)) span
    throw .recover

def expect (p : Punctuator) : Parse Lexeme := do
  if ← isAt p then bump else fail (.punctuator p)

/-- Takes a semicolon, which may be missing before a closing brace, at the end and at a line end. -/
def consumeSemicolon : Parse Unit := do
  if ← eat .semicolon then return
  let l ← lexeme
  let mayMiss := l.token.is .rBrace || l.token.isEnd || l.newlineBefore || match l.token with
    | .marker _ => true
    | _ => false
  if !mayMiss then report (.expected .semicolon l.token) l.span

def startsStatement : Token → Bool
  | .keyword .var | .keyword .let | .keyword .const | .keyword .function | .keyword .classWord
  | .keyword .if | .keyword .for | .keyword .while | .keyword .do | .keyword .return | .keyword .try
  | .keyword .switch | .keyword .throw | .keyword .break | .keyword .continue | .keyword .with
  | .keyword .debugger | .keyword .import | .keyword .export => true
  | _ => false

def synchronize (startOffset : Nat) : Parse Unit :=
  cycle () fun () => do
    let l ← lexeme
    if l.token.isEnd || l.token.is .rBrace then return .done ()
    else if ← eat .semicolon then return .done ()
    else if l.span.start.offset > startOffset && l.newlineBefore && startsStatement l.token then
      return .done ()
    else
      let _ ← bump
      return .again ()

/-- The span from `start` to the end of the last token taken. -/
def spanFrom (start : Span) : Parse Span := do
  let previous := (← get).previous
  if previous.file != start.file || previous.stop.precedes start.start then return start
  else return { start with stop := previous.stop }

def alloc (form : Form NodeId) (span : Span) : Parse NodeId :=
  modifyGet fun s =>
    let (id, tree) := s.tree.alloc form span
    (id, { s with tree })

def allocFrom (form : Form NodeId) (start : Span) : Parse NodeId := do
  alloc form (← spanFrom start)

def formOf (id : NodeId) : Parse (Form NodeId) :=
  return (← get).tree.form id

def spanOf (id : NodeId) : Parse Span :=
  return (← get).tree.span id

def modifyTree (f : Tree → Tree) : Parse Unit :=
  modify fun s => { s with tree := f s.tree }

def flushComments : Parse (List NodeId) := do
  let waiting := (← get).comments
  modify fun s => { s with comments := [] }
  waiting.mapM fun (text, span) => alloc (.importantComment text) span

def nameHere? : Parse (Option String) := do
  let context := (← get).context
  match ← token with
  | .identifier name _ => return some name
  | .keyword k =>
    let reserved := (k == .await && context.inAsync) || (k == .yield && context.inGenerator)
    return if k.isContextual && !reserved then some k.spelling else none
  | _ => return none

def expectIdentifier : Parse (String × Span) := do
  match ← nameHere? with
  | some name => return (name, (← bump).span)
  | none => fail .identifier

/-- Any name, keywords and private names included. -/
def expectPropertyName : Parse (String × Span) := do
  match ← token with
  | .identifier name _ => return (name, (← bump).span)
  | .keyword k => return (k.spelling, (← bump).span)
  | .privateIdentifier name => return ("#" ++ name, (← bump).span)
  | _ => fail .propertyName

def scopeHere : Parse ScopeId :=
  return (← get).context.scope

def modifyScopes (f : ScopeTree → ScopeTree) : Parse Unit :=
  modify fun s => { s with scopes := f s.scopes }

def onScopes (f : ScopeTree → α × ScopeTree) : Parse α :=
  modifyGet fun s =>
    let (a, scopes) := f s.scopes
    (a, { s with scopes })

def withContext (f : Context → Context) (x : Parse α) : Parse α := do
  let saved := (← get).context
  modify fun s => { s with context := f s.context }
  x.afterwards fun s => { s with context := saved }

def withScope (scope : ScopeId) (x : Parse α) : Parse α :=
  withContext (fun c => { c with scope }) x

def allowingIn (x : Parse α) : Parse α :=
  withContext (fun c => { c with noIn := false }) x

/-- Runs a rule in a block scope of its own, which is dropped if nothing is declared in it. -/
def inBlockScope (x : Parse α) : Parse (α × Option ScopeId) := do
  let scope ← onScopes (·.pushScope .block (← scopeHere))
  let result ← attempt (withScope scope x)
  let dropped ← onScopes (·.collapseIfEmpty scope)
  match result with
  | .ok a => return (a, if dropped then none else some scope)
  | .error e => throw e

def ownScope (scope : ScopeId) (owner : NodeId) : Parse Unit := do
  let span ← spanOf owner
  modifyScopes (·.modifyScope scope fun s => { s with owner := some owner, span })

def flagAmbiguousName (function : NodeId) (name : String) (span : Span) : Parse Unit := do
  match ← formOf function with
  | .function _ _ _ _ _ _ _ (some nameScope) =>
    let s ← get
    match s.scopes.findLocal? nameScope name with
    | some inner =>
      let preserve := s.scanner.settings.preserveFunctionNames
      modifyScopes (·.modifyField inner fun f =>
        { f with isAmbiguous := true, canCrunch := f.canCrunch && !preserve })
    | none => pure ()
  | _ => pure ()
  report (.ambiguousFunctionName name) span

def declare (scope : ScopeId) (name : String) (kind : FieldKind) (span : Span) : Parse FieldId := do
  let scopes := (← get).scopes
  let ghostOf := do
    let f := scopes.field (← scopes.findLocal? scope name)
    if f.kind == .ghost then f.value else none
  let field ← onScopes (·.declare scope name kind span)
  match ghostOf with
  | some function =>
    modifyScopes (·.modifyField field fun f => { f with value := none })
    flagAmbiguousName function name span
  | none => pure ()
  return field

def setBinding (field : FieldId) : Form NodeId → Form NodeId
  | .bindingIdentifier name _ => .bindingIdentifier name (some field)
  | other => other

def declarePatternUpTo (scope : ScopeId) (kind : FieldKind) (isConst : Bool) : Nat → NodeId → Parse Unit
  | 0, _ => pure ()
  | depth + 1, pattern => do
    match ← formOf pattern with
    | .bindingIdentifier name none =>
      let field ← declare scope name kind (← spanOf pattern)
      if isConst then modifyScopes (·.modifyField field fun f => { f with isLiteral := true })
      modifyTree (·.modifyForm pattern (setBinding field))
    | .arrayPattern elements =>
      elements.forM fun element => match element with
        | some element => declarePatternUpTo scope kind isConst depth element
        | none => pure ()
    | .objectPattern properties => properties.forM (declarePatternUpTo scope kind isConst depth)
    | .property _ value _ _ => declarePatternUpTo scope kind isConst depth value
    | .assignmentPattern target _ => declarePatternUpTo scope kind isConst depth target
    | .restElement argument => declarePatternUpTo scope kind isConst depth argument
    | _ => pure ()

def declarePattern (pattern : NodeId) (scope : ScopeId) (kind : FieldKind) (isConst : Bool) :
    Parse Unit := do
  declarePatternUpTo scope kind isConst ((← get).tree.size + 1) pattern

end Parse

def Tree.boundFieldsUpTo (t : Tree) : Nat → NodeId → List FieldId
  | 0, _ => []
  | depth + 1, id =>
    match t.form id with
    | .bindingIdentifier _ (some field) => [field]
    | .function _ binding .. | .classDefinition binding .. =>
      binding.toList.flatMap (t.boundFieldsUpTo depth)
    | .declarator target _ | .assignmentPattern target _ => t.boundFieldsUpTo depth target
    | .var .. | .arrayPattern .. | .objectPattern .. | .property .. | .restElement .. =>
      (t.children id).flatMap (t.boundFieldsUpTo depth)
    | _ => []

def Tree.boundFields (t : Tree) (id : NodeId) : List FieldId :=
  t.boundFieldsUpTo (t.size + 1) id

end Condense
