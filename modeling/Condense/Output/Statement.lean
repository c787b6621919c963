import Condense.Output.Expression

/-!
Printing of statements and module declarations.
-/

namespace Condense

namespace Style

/-- Whether a statement cannot do without the braces around it. -/
def needsBraces (c : Style) (id : NodeId) : Bool :=
  match c.tree.form id with
  | .var kind _ => kind != .var
  | .classDefinition _ _ _ isExpression _ => !isExpression
  | .function kind .. => kind == .declaration
  | .importantComment _ | .ccComment _ => true
  | _ => false

/-- What a block stands for where it may go without its braces: nothing, or its only statement. -/
def unwrapped? (c : Style) (id : NodeId) : Option (Option NodeId) :=
  match c.tree.form id with
  | .block statements none false =>
    match c.visible statements with
    | [] => some none
    | [only] => if c.needsBraces only then none else some (some only)
    | _ => none
  | _ => none

def endsOpenUpTo (c : Style) : Nat → NodeId → Bool
  | 0, _ => false
  | steps + 1, id =>
    match c.tree.form id with
    | .ifStatement _ _ none => true
    | .ifStatement _ _ (some body) | .whileLoop _ body | .forLoop _ _ _ body _
    | .forInLoop _ _ body _ _ _ | .withStatement _ body _ | .labeled _ body =>
      c.endsOpenUpTo steps body
    | .block .. =>
      match c.unwrapped? id with
      | some (some only) => c.endsOpenUpTo steps only
      | _ => false
    | _ => false

/-- Whether a statement ends in an `if` without `else`, which would take up an `else` that follows. -/
def endsWithOpenIf (c : Style) (id : NodeId) : Bool :=
  c.endsOpenUpTo (c.tree.size + 1) id

end Style

namespace Printer

variable (p : Printer) (c : Style)

def body (id : NodeId) : Printed :=
  match if c.isPretty then none else c.unwrapped? id with
  | some none => ([.token ";"], false)
  | some (some only) => p.statement c only
  | none =>
    match c.tree.form id with
    | .block statements _ _ => (c.space ++ p.block c statements, false)
    | _ =>
      let (pieces, isOpen) := p.statement c.indented id
      (c.indented.newLine ++ pieces, isOpen)

def after (pieces : List Piece) (printed : Printed) : Printed :=
  (pieces ++ printed.1, printed.2)

def closed (printed : Printed) : List Piece :=
  printed.1 ++ if printed.2 then [.token ";"] else []

def declaratorsFrom : List Piece → List NodeId → List Piece
  | _, [] => []
  | before, id :: rest =>
    let own := match c.tree.form id with
      | .declarator target init =>
        let value := match init with
          | some init => c.operator "=" ++ p.expression c init .assignment
          | none => []
        c.space ++ p.expression c target .assignment ++ value
      | _ => []
    before ++ own ++ declaratorsFrom [.token ","] rest

def declaration (kind : DeclarationKind) (declarators : List NodeId) : List Piece :=
  [.token kind.spelling] ++ p.declaratorsFrom c [] declarators

def head (id : NodeId) : List Piece :=
  match c.tree.form id with
  | .var kind declarators => p.declaration c.inHead kind declarators
  | _ => p.expression c.inHead id .comma

def ifStatement (condition consequent : NodeId) (alternate : Option NodeId) : Printed :=
  let start := [.token "if"] ++ c.space ++ p.inParentheses c condition
  match alternate with
  | none => after start (p.body c consequent)
  | some alternate =>
    let consequent :=
      if c.endsWithOpenIf consequent then
        c.space ++ match c.tree.form consequent with
          | .block statements _ _ => p.block c statements
          | _ => [.token "\x7b"] ++ (p.statement c consequent).1 ++ [.token "\x7d"]
      else closed (p.body c consequent)
    let start := start ++ consequent ++ c.space ++ [.token "else"]
    match c.tree.form alternate with
    | .ifStatement .. => after (start ++ c.space) (p.statement c alternate)
    | _ => after start (p.body c alternate)

def forLoop (init condition step : Option NodeId) (body : NodeId) : Printed :=
  let part (id : Option NodeId) := match id with
    | some id => c.space ++ p.expression c.nested id .comma
    | none => []
  let init := match init with
    | some init => p.head c init
    | none => []
  after ([.token "for"] ++ c.space ++ [.token "("] ++ init ++ [.token ";"] ++ part condition
    ++ [.token ";"] ++ part step ++ [.token ")"]) (p.body c body)

def forInLoop (left right body : NodeId) (isOf isAwait : Bool) : Printed :=
  let right := p.expression c.nested right (if isOf then .assignment else .comma)
  after ([.token "for"] ++ (if isAwait then [.token "await"] else []) ++ c.space ++ [.token "("]
    ++ p.head c left ++ [.token (if isOf then "of" else "in")] ++ right ++ [.token ")"]) (p.body c body)

def jump (word : String) (label : Option String) : Printed :=
  ([.token word] ++ match label with
    | some label => [.token label]
    | none => [], true)

def tryStatement (body : NodeId) (binding handler finalizer : Option NodeId) : List Piece :=
  let binding := match binding with
    | some binding => c.space ++ parenthesize (p.expression c binding .assignment)
    | none => []
  let handler := match handler with
    | some handler =>
      c.space ++ [.token "catch"] ++ binding ++ c.space ++ p.block c (c.tree.statements handler)
    | none => []
  let finalizer := match finalizer with
    | some finalizer =>
      c.space ++ [.token "finally"] ++ c.space ++ p.block c (c.tree.statements finalizer)
    | none => []
  [.token "try"] ++ c.space ++ p.block c (c.tree.statements body) ++ handler ++ finalizer

def switchCase (id : NodeId) : Printed :=
  match c.tree.form id with
  | .switchCase test statements =>
    let start := match test with
      | some test => [.token "case"] ++ c.space ++ p.expression c test .comma
      | none => [.token "default"]
    after (start ++ [.token ":"]) (p.statements c.indented false true (c.visible statements))
  | _ => ([], false)

def switchCases : Bool → List NodeId → List Piece
  | _, [] => []
  | isOpen, id :: rest =>
    let (pieces, stays) := p.switchCase c id
    (if isOpen then [.token ";"] else []) ++ c.newLine ++ pieces ++ switchCases stays rest

def expressionStatement (id : NodeId) : Printed :=
  let pieces := p.expressionAt c id .comma
  (if c.tree.startsLikeStatement false id then parenthesize pieces else pieces, true)

def conditionalPart (id : NodeId) : ConditionalPart :=
  match c.tree.form id with
  | .ccOn => .on
  | .ccSet name value =>
    .code ([.token "@set", .token ("@" ++ name), .token "="] ++ p.expression c value .assignment) false
  | .ccIf condition => .code ([.token "@if"] ++ p.inParentheses c condition) false
  | .ccElseIf condition => .code ([.token "@elif"] ++ p.inParentheses c condition) false
  | .ccElse => .code [.token "@else"] false
  | .ccEnd => .code [.token "@end"] false
  | _ =>
    let (pieces, isOpen) := p.statement c id
    .code pieces isOpen

/-- A whole-module or default import, which stands outside of the braces. -/
def bareImport? (id : NodeId) : Option (List Piece) :=
  match c.tree.form id with
  | .importSpecifier .default _ target => some (p.expression c target .primary)
  | .importSpecifier .star _ target =>
    some ([.token "*", .token "as"] ++ p.expression c target .primary)
  | _ => none

def namedImport? (id : NodeId) : Option (List Piece) :=
  match c.tree.form id with
  | .importSpecifier .named imported target =>
    let (name, output) := c.bindingNames target
    let imported := imported.getD name
    some ((if imported != output then [.token imported, .token "as"] else [])
      ++ p.expression c target .primary)
  | _ => none

def importDeclaration (specifiers : List NodeId) (source : String) : List Piece :=
  if specifiers.isEmpty then [.token "import"] ++ c.stringLiteral source
  else
    let named := specifiers.filterMap (p.namedImport? c)
    let braces :=
      if named.isEmpty then [] else [[.token "\x7b"] ++ Style.separated [] named ++ [.token "\x7d"]]
    [.token "import"] ++ Style.separated [] (specifiers.filterMap (p.bareImport? c) ++ braces)
      ++ [.token "from"] ++ c.stringLiteral source

def exportSpecifier (id : NodeId) : List Piece :=
  match c.tree.form id with
  | .exportSpecifier target exported =>
    let (name, output) := c.bindingNames target
    let exported := exported.getD name
    p.expression c target .primary
      ++ if exported != output then [.token "as", .token exported] else []
  | _ => []

def exportDefault (declaration : Option NodeId) : Printed :=
  match declaration with
  | none => ([], true)
  | some id =>
    match c.tree.form id with
    | .function .declaration .. | .classDefinition _ _ _ false _ => p.statement c id
    | _ => p.expressionStatement c id

def exportDeclaration (kind : ExportKind) (declaration : Option NodeId) (specifiers : List NodeId)
    (source nameSpace : Option String) : Printed :=
  let origin := match source with
    | some source => c.stringLiteral source
    | none => []
  match kind with
  | .declaration =>
    match declaration with
    | some id => after [.token "export"] (p.statement c id)
    | none => ([.token "export"], false)
  | .default => after [.token "export", .token "default"] (p.exportDefault c declaration)
  | .named =>
    ([.token "export", .token "\x7b"] ++ Style.separated [] (specifiers.map (p.exportSpecifier c))
      ++ [.token "\x7d"] ++ (if source.isSome then [.token "from"] else []) ++ origin, true)
  | .all =>
    let renamed := match nameSpace with
      | some name => [.token "as", .token name]
      | none => []
    ([.token "export", .token "*"] ++ renamed ++ [.token "from"] ++ origin, true)

def statementAt (id : NodeId) : Printed :=
  match c.tree.form id with
  | .block statements _ _ => (p.block c statements, false)
  | .var kind declarators => (p.declaration c kind declarators, true)
  | .function .declaration .. => (p.function c id, false)
  | .classDefinition _ _ _ false _ => (p.classDefinition c id, false)
  | .returnStatement none => ([.token "return"], true)
  | .returnStatement (some value) => ([.token "return"] ++ c.space ++ p.expression c value .comma, true)
  | .ifStatement condition consequent alternate => p.ifStatement c condition consequent alternate
  | .whileLoop condition body =>
    after ([.token "while"] ++ c.space ++ p.inParentheses c condition) (p.body c body)
  | .doWhileLoop body condition =>
    ([.token "do"] ++ closed (p.body c body) ++ c.space ++ [.token "while"] ++ c.space
      ++ p.inParentheses c condition, true)
  | .forLoop init condition step body _ => p.forLoop c init condition step body
  | .forInLoop left right body isOf isAwait _ => p.forInLoop c left right body isOf isAwait
  | .breakStatement label => jump "break" label
  | .continueStatement label => jump "continue" label
  | .throwStatement value =>
    let pieces := [.token "throw"] ++ c.space ++ p.expression c value .comma
    if c.settings.macSafariSafe then (pieces ++ [.token ";"], false) else (pieces, true)
  | .tryStatement body binding handler _ finalizer =>
    (p.tryStatement c body binding handler finalizer, false)
  | .switchStatement discriminant cases _ =>
    ([.token "switch"] ++ c.space ++ p.inParentheses c discriminant ++ c.space ++ [.token "\x7b"]
      ++ p.switchCases c false cases ++ (if cases.isEmpty then [] else c.newLine) ++ [.token "\x7d"],
      false)
  | .withStatement object body _ =>
    after ([.token "with"] ++ c.space ++ p.inParentheses c object) (p.body c body)
  | .labeled label body => after ([.token label, .token ":"] ++ c.space) (p.statement c body)
  | .debugger => ([.token "debugger"], true)
  | .empty => ([.token ";"], false)
  | .importantComment text =>
    (if c.settings.preserveImportantComments then [.comment text] else [], false)
  | .ccComment statements => ([.conditional ((c.visible statements).map (p.conditionalPart c))], false)
  | .importDeclaration specifiers source => (p.importDeclaration c specifiers source, true)
  | .exportDeclaration kind declaration specifiers source nameSpace =>
    p.exportDeclaration c kind declaration specifiers source nameSpace
  | _ => p.expressionStatement c id

end Printer

end Condense
