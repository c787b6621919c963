import Condense.Grammar.Expression

/-!
Rules for statements and module declarations.
-/

namespace Condense.Parse

def variableDeclaration (rules : Rules) (kind : DeclarationKind) : Parse NodeId := do
  let start := (← bump).span
  let here ← scopeHere
  let scopes := (← get).scopes
  let scope := if kind == .var then scopes.variableScope here else here
  let declarators ← cycle ([] : List NodeId) fun done => do
    let declaratorStart ← place
    let target ← rules .bindingTarget
    declarePattern target scope .localName (kind == .const)
    let init ← optionally (isAt .assign) (rules .assignment)
    let declarator ← allocFrom (.declarator target init) declaratorStart
    if ← eat .comma then return .again (declarator :: done) else return .done (declarator :: done)
  allocFrom (.var kind declarators.reverse) start

def variableStatement (rules : Rules) (kind : DeclarationKind) : Parse NodeId := do
  let id ← variableDeclaration rules kind
  consumeSemicolon
  return id

def isLetDeclaration : Parse Bool := do
  match ← peek with
  | .identifier .. | .punctuator .lBracket | .punctuator .lBrace | .keyword .yield | .keyword .await
  | .keyword .async | .keyword .static | .keyword .let => return true
  | _ => return false

def condition (rules : Rules) : Parse NodeId := do
  let _ ← expect .lParen
  let id ← expression rules
  let _ ← expect .rParen
  return id

def ifStatement (rules : Rules) : Parse NodeId := do
  let start := (← bump).span
  let test ← condition rules
  let consequent ← rules .statement
  let alternate ← optionally (isAtWord .else) (rules .statement)
  allocFrom (.ifStatement test consequent alternate) start

def loopBody (rules : Rules) : Parse NodeId :=
  withContext (fun c => { c with loopDepth := c.loopDepth + 1 }) (rules .statement)

def whileStatement (rules : Rules) : Parse NodeId := do
  let start := (← bump).span
  let test ← condition rules
  let body ← loopBody rules
  allocFrom (.whileLoop test body) start

def doWhileStatement (rules : Rules) : Parse NodeId := do
  let start := (← bump).span
  let body ← loopBody rules
  if !(← isAtWord .while) then fail .wordWhile
  else
    let _ ← bump
    let test ← condition rules
    let _ ← eat .semicolon
    allocFrom (.doWhileLoop body test) start

def forInit (rules : Rules) : Parse (Option NodeId) :=
  withContext (fun c => { c with noIn := true }) do
    match ← token with
    | .punctuator .semicolon => return none
    | .keyword .var => return some (← variableDeclaration rules .var)
    | .keyword .const => return some (← variableDeclaration rules .const)
    | .keyword .let =>
      if ← isLetDeclaration then return some (← variableDeclaration rules .letBound)
      else return some (← expression rules)
    | _ => return some (← expression rules)

/-- A loop over keys or values from the word between its variable and its object on. -/
def forInRest (rules : Rules) (left : NodeId) (isOf isAwait : Bool) (start : Span) : Parse NodeId := do
  let _ ← bump
  let right ← if isOf then rules .assignment else expression rules
  let _ ← expect .rParen
  let body ← loopBody rules
  allocFrom (.forInLoop left right body isOf isAwait none) start

def forPart (rules : Rules) (stop : Punctuator) : Parse (Option NodeId) := do
  let part ← if ← isAt stop then pure none else do pure (some (← expression rules))
  let _ ← expect stop
  return part

def forRest (rules : Rules) (isAwait : Bool) (start : Span) : Parse NodeId := do
  let init ← forInit rules
  let isOf ← isAtName "of"
  let isIn ← isAtWord .in
  match if isOf || isIn then init else none with
  | some left => forInRest rules left isOf isAwait start
  | none =>
    let _ ← expect .semicolon
    let test ← forPart rules .semicolon
    let step ← forPart rules .rParen
    let body ← loopBody rules
    allocFrom (.forLoop init test step body none) start

def setLoopScope (scope : Option ScopeId) : Form NodeId → Form NodeId
  | .forLoop init test step body _ => .forLoop init test step body scope
  | .forInLoop left right body isOf isAwait _ => .forInLoop left right body isOf isAwait scope
  | other => other

def forStatement (rules : Rules) : Parse NodeId := do
  let start := (← bump).span
  let isAwait ← isAtWord .await
  if isAwait then
    let _ ← bump
  let _ ← expect .lParen
  let (id, scope) ← inBlockScope (forRest rules isAwait start)
  modifyTree (·.modifyForm id (setLoopScope scope))
  keepScope scope id

def jumpLabel : Parse (Option (String × Span)) := do
  let l ← lexeme
  match l.token with
  | .identifier name _ =>
    if l.newlineBefore then return none else return some (name, (← bump).span)
  | _ => return none

def continueStatement : Parse NodeId := do
  let start := (← bump).span
  let label ← jumpLabel
  let s ← get
  match label with
  | some (name, span) =>
    if !s.labels.any (fun (l, isLoop) => l == name && isLoop) then report (.unknownLabel name) span
  | none => if s.context.loopDepth == 0 then report .continueOutside start
  consumeSemicolon
  allocFrom (.continueStatement (label.map (·.1))) start

def breakStatement : Parse NodeId := do
  let start := (← bump).span
  let label ← jumpLabel
  let s ← get
  match label with
  | some (name, span) => if !s.labels.any (·.1 == name) then report (.unknownLabel name) span
  | none =>
    if s.context.loopDepth == 0 && s.context.switchDepth == 0 then report .breakOutside start
  consumeSemicolon
  allocFrom (.breakStatement (label.map (·.1))) start

def returnStatement (rules : Rules) : Parse NodeId := do
  let start := (← bump).span
  if !(← get).context.inFunction then report .returnOutside start
  let l ← lexeme
  let value ←
    if l.token.is .semicolon || l.token.is .rBrace || l.token.isEnd || l.newlineBefore then pure none
    else do pure (some (← expression rules))
  consumeSemicolon
  allocFrom (.returnStatement value) start

def throwStatement (rules : Rules) : Parse NodeId := do
  let start := (← bump).span
  let value ← expression rules
  consumeSemicolon
  allocFrom (.throwStatement value) start

def withStatement (rules : Rules) : Parse NodeId := do
  let start := (← bump).span
  let parent ← scopeHere
  if ((← get).scopes.scope parent).useStrict then report .withInStrictMode start
  let object ← condition rules
  let scope ← onScopes (·.pushScope .withBody parent)
  modifyScopes (·.makeUnknown scope)
  let body ← withScope scope (rules .statement)
  let id ← allocFrom (.withStatement object body scope) start
  ownScope scope id
  return id

def clauseStatements (rules : Rules) : Parse (List NodeId) :=
  cycle ([] : List NodeId) fun done => do
    let done := (← flushComments).reverse ++ done
    let t ← token
    if t.isWord .case || t.isWord .default || t.is .rBrace || t.isEnd then return .done done.reverse
    else
      match ← recovering rules with
      | .ok statement => return .again (statement.toList ++ done)
      | .error failure => throw failure

def switchCases (rules : Rules) : Parse (List NodeId) :=
  cycle (([] : List NodeId), false) fun (done, seenDefault) => do
    let t ← token
    if t.is .rBrace || t.isEnd then return .done done.reverse
    else
      let start ← place
      let test ←
        if t.isWord .case then do
          let _ ← bump
          pure (some (← expression rules))
        else if t.isWord .default then do
          let _ ← bump
          if seenDefault then report .duplicateDefault start
          pure none
        else fail .caseOrDefault
      let _ ← expect .colon
      let statements ← clauseStatements rules
      let clause ← allocFrom (.switchCase test statements) start
      return .again (clause :: done, seenDefault || t.isWord .default)

def switchStatement (rules : Rules) : Parse NodeId := do
  let start := (← bump).span
  let discriminant ← condition rules
  let opened := (← expect .lBrace).span
  let (cases, scope) ← inBlockScope
    (withContext (fun c => { c with switchDepth := c.switchDepth + 1 }) (switchCases rules))
  closeBrace opened
  let id ← allocFrom (.switchStatement discriminant cases scope) start
  keepScope scope id

def catchClause (rules : Rules) (scope : ScopeId) : Parse (Option NodeId × NodeId) := do
  let binding ←
    if ← eat .lParen then do
      let binding ← rules .bindingTarget
      declarePattern binding scope .catchError false
      let _ ← expect .rParen
      pure (some binding)
    else pure none
  return (binding, ← block rules)

def tryStatement (rules : Rules) : Parse NodeId := do
  let start := (← bump).span
  let body ← block rules
  let caught ←
    if ← isAtWord .catch then do
      let catchStart := (← bump).span
      let scope ← onScopes (·.pushScope .catchClause (← scopeHere))
      let (binding, body) ← withScope scope (catchClause rules scope)
      let span ← spanFrom catchStart
      modifyScopes (·.modifyScope scope fun s => { s with span })
      pure (some (binding, body, scope))
    else pure none
  let finalizer ← optionally (isAtWord .finally) (block rules)
  if caught.isNone && finalizer.isNone then report .noCatchOrFinally (← place)
  let id ← allocFrom
    (.tryStatement body (caught.bind (·.1)) (caught.map (·.2.1)) (caught.map (·.2.2)) finalizer) start
  match caught with
  | some (_, _, scope) => modifyScopes (·.modifyScope scope fun s => { s with owner := some id })
  | none => pure ()
  return id

def labeledStatement (rules : Rules) (label : String) : Parse NodeId := do
  let start := (← bump).span
  let _ ← bump
  let t ← token
  let isLoop := t.isWord .for || t.isWord .while || t.isWord .do
  let labels := (← get).labels
  modify fun s => { s with labels := (label, isLoop) :: s.labels }
  let body ← (rules .statement).afterwards fun s => { s with labels }
  allocFrom (.labeled label body) start

/-- What a marker inside a conditional comment stands for. -/
def markedStatement (rules : Rules) (marker : Marker) (start : Span) : Parse NodeId := do
  let _ ← bump
  match marker with
  | .set =>
    let name ← match ← token with
      | .marker (.variable name) =>
        let _ ← bump
        pure name
      | _ => fail .setVariable
    let _ ← expect .assign
    let value ← rules .assignment
    allocFrom (.ccSet name value) start
  | .ifBranch => do allocFrom (.ccIf (← condition rules)) start
  | .elseIf => do allocFrom (.ccElseIf (← condition rules)) start
  | .elseBranch => alloc .ccElse start
  | .endIf => alloc .ccEnd start
  | _ => alloc .ccOn start

def conditionalComment (rules : Rules) : Parse NodeId := do
  let start := (← bump).span
  let statements ← cycle ([] : List NodeId) fun done => do
    let done := (← flushComments).reverse ++ done
    let here ← place
    match ← token with
    | .marker .stop =>
      let _ ← bump
      return .done done
    | .endOfInput =>
      report .unterminatedConditional start
      return .done done
    | .marker .on => return .again ((← markedStatement rules .on here) :: done)
    | .marker .set => return .again ((← markedStatement rules .set here) :: done)
    | .marker .ifBranch => return .again ((← markedStatement rules .ifBranch here) :: done)
    | .marker .elseIf => return .again ((← markedStatement rules .elseIf here) :: done)
    | .marker .elseBranch => return .again ((← markedStatement rules .elseBranch here) :: done)
    | .marker .endIf => return .again ((← markedStatement rules .endIf here) :: done)
    | _ =>
      match ← recovering rules with
      | .ok statement => return .again (statement.toList ++ done)
      | .error failure => throw failure
  allocFrom (.ccComment statements.reverse) start

def sourceText : Parse String := do
  match ← token with
  | .string source =>
    let _ ← bump
    return source
  | _ => fail .moduleSpecifier

def moduleSpecifier : Parse String := do
  match ← optionally (isAtName "from") sourceText with
  | some source => return source
  | none => fail .wordFrom

def importBinding (name : String) (span : Span) : Parse NodeId := do
  let binding ← alloc (.bindingIdentifier name none) span
  declarePattern binding (← scopeHere) .localName true
  return binding

def namedImport : Parse NodeId := do
  let start ← place
  let (imported, importedSpan) ← expectPropertyName
  let renamed ← optionally (isAtName "as") expectIdentifier
  let (name, span) := renamed.getD (imported, importedSpan)
  allocFrom (.importSpecifier .named (some imported) (← importBinding name span)) start

def namedImports (earlier : List NodeId) : Parse (List NodeId) := do
  let specifiers ← commaItems .rBrace namedImport
  let _ ← expect .rBrace
  return earlier ++ specifiers.reverse

def finishImport (specifiers : List NodeId) (start : Span) : Parse NodeId := do
  let source ← moduleSpecifier
  consumeSemicolon
  allocFrom (.importDeclaration specifiers source) start

/-- What an import takes besides a default: the whole module under a name, or a list of names. -/
def importRest (specifiers : List NodeId) (start : Span) : Parse NodeId := do
  if ← isAt .star then
    let star := (← bump).span
    if !(← isAtName "as") then fail .wordAs
    else
      let _ ← bump
      let (name, span) ← expectIdentifier
      let target ← importBinding name span
      let specifier ← allocFrom (.importSpecifier .star none target) star
      finishImport (specifiers ++ [specifier]) start
  else if ← eat .lBrace then finishImport (← namedImports specifiers) start
  else finishImport specifiers start

def importDeclaration : Parse NodeId := do
  let start := (← bump).span
  match ← token with
  | .string source =>
    let _ ← bump
    consumeSemicolon
    allocFrom (.importDeclaration [] source) start
  | _ =>
    match ← nameHere? with
    | some name =>
      let span := (← bump).span
      let target ← importBinding name span
      let specifier ← alloc (.importSpecifier .default none target) span
      if ← eat .comma then importRest [specifier] start else finishImport [specifier] start
    | none => importRest [] start

def exportDefault (rules : Rules) (start : Span) : Parse NodeId := do
  let _ ← bump
  modify fun s => { s with afterDefault := true }
  let declaration ← attempt do
    match ← token with
    | .keyword .function => functionDeclaration rules false
    | .keyword .classWord => classDefinition rules false
    | t =>
      let isAsync ← if t.isWord .async then do pure ((← peek).isWord .function) else pure false
      if isAsync then functionDeclaration rules true
      else
        modify fun s => { s with afterDefault := false }
        let value ← attempt (rules .assignment)
        consumeSemicolon
        match value with
        | .ok id => return id
        | .error failure => throw failure
  modify fun s => { s with afterDefault := false }
  match declaration with
  | .ok declaration => allocFrom (.exportDeclaration .default (some declaration) [] none none) start
  | .error failure => throw failure

def exportAll (start : Span) : Parse NodeId := do
  let _ ← bump
  let nameSpace ← optionally (isAtName "as") expectPropertyName
  let source ← moduleSpecifier
  consumeSemicolon
  allocFrom (.exportDeclaration .all none [] (some source) (nameSpace.map (·.1))) start

/-- A name of an export list as it is read. -/
structure ExportedName where
  name : String
  span : Span
  exported : Option String
  start : Span

def exportedNames : Parse (List ExportedName) := do
  let names ← commaItems .rBrace do
    let start ← place
    let (name, span) ← expectPropertyName
    let exported ← optionally (isAtName "as") expectPropertyName
    return { name, span, exported := exported.map (·.1), start }
  let _ ← expect .rBrace
  return names.reverse

def exportNamed (start : Span) : Parse NodeId := do
  let names ← exportedNames
  let source ← optionally (isAtName "from") sourceText
  consumeSemicolon
  let specifiers ← names.mapM fun entry => do
    let target ←
      if source.isSome then alloc (.propertyName entry.name) entry.span
      else lookup entry.name entry.span
    allocFrom (.exportSpecifier target entry.exported) entry.start
  allocFrom (.exportDeclaration .named none specifiers source none) start

def isDeclaration : Form NodeId → Bool
  | .var .. => true
  | .function kind .. => kind == .declaration
  | .classDefinition _ _ _ isExpression _ => !isExpression
  | _ => false

def exportedDeclaration (rules : Rules) (start : Span) : Parse NodeId := do
  let declaration ← rules .item
  if !isDeclaration (← formOf declaration) then report .notADeclaration (← spanOf declaration)
  let fields := (← get).tree.boundFields declaration
  fields.forM fun field =>
    modifyScopes (·.modifyField field fun f => { f with isExported := true, canCrunch := false })
  allocFrom (.exportDeclaration .declaration (some declaration) [] none none) start

def exportDeclaration (rules : Rules) : Parse NodeId := do
  let start := (← bump).span
  if ← isAtWord .default then exportDefault rules start
  else if ← isAt .star then exportAll start
  else if ← eat .lBrace then exportNamed start
  else exportedDeclaration rules start

def expressionStatement (rules : Rules) : Parse NodeId := do
  let id ← expression rules
  consumeSemicolon
  return id

def statement (rules : Rules) : Parse NodeId := do
  let start ← place
  match ← token with
  | .punctuator .lBrace => block rules
  | .punctuator .semicolon => leaf .empty start
  | .keyword .var => variableStatement rules .var
  | .keyword .if => ifStatement rules
  | .keyword .for => forStatement rules
  | .keyword .while => whileStatement rules
  | .keyword .do => doWhileStatement rules
  | .keyword .continue => continueStatement
  | .keyword .break => breakStatement
  | .keyword .return => returnStatement rules
  | .keyword .with => withStatement rules
  | .keyword .switch => switchStatement rules
  | .keyword .throw => throwStatement rules
  | .keyword .try => tryStatement rules
  | .keyword .debugger =>
    let _ ← bump
    consumeSemicolon
    alloc .debugger start
  | .keyword .function =>
    report .misplacedFunction start
    functionDeclaration rules false
  | .keyword .classWord | .keyword .const =>
    report .misplacedDeclaration start
    rules .item
  | .marker .start => conditionalComment rules
  | .marker .stop => leaf .empty start
  | .identifier label _ =>
    if (← peek).is .colon then labeledStatement rules label else expressionStatement rules
  | _ => expressionStatement rules

def item (rules : Rules) : Parse NodeId := do
  match ← token with
  | .keyword .function => functionDeclaration rules false
  | .keyword .async =>
    let next ← peekLexeme
    if !next.newlineBefore && next.token.isWord .function then functionDeclaration rules true
    else statement rules
  | .keyword .classWord => classDefinition rules false
  | .keyword .const => variableStatement rules .const
  | .keyword .let =>
    if ← isLetDeclaration then variableStatement rules .letBound else statement rules
  | .keyword .import =>
    match ← peek with
    | .punctuator .lParen | .punctuator .dot => statement rules
    | _ => importDeclaration
  | .keyword .export => exportDeclaration rules
  | _ => statement rules

end Condense.Parse
