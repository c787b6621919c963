import Condense.Diagnostic.Undefined
import Condense.Syntax.Operator

/-!
The forms a syntax node can take.
-/

namespace Condense

structure NodeId where
  index : Nat
  deriving DecidableEq, Inhabited

structure ScopeId where
  index : Nat
  deriving DecidableEq, Inhabited

structure FieldId where
  index : Nat
  deriving DecidableEq, Inhabited

/-- Literal values. `empty` is replacement text that came to nothing and is written as nothing. -/
inductive Literal where
  | number (value : Float)
  | string (value : String)
  | boolean (value : Bool)
  | null
  | empty
  deriving Inhabited

inductive DeclarationKind where
  | var | letBound | const
  deriving DecidableEq

def DeclarationKind.spelling : DeclarationKind → String
  | .var => "var"
  | .letBound => "let"
  | .const => "const"

inductive FunctionKind where
  | declaration | expression | arrow | method | getter | setter
  deriving DecidableEq

inductive ClassMemberKind where
  | method | getter | setter | field
  deriving DecidableEq

inductive PropertyKind where
  | init | shorthand | method | getter | setter
  deriving DecidableEq

inductive ImportKind where
  | default | star | named
  deriving DecidableEq

inductive ExportKind where
  | declaration | default | named | all
  deriving DecidableEq

/-- The form of a node whose child slots hold an `α` each. Expressions stand in statement lists
directly; there is no wrapper for an expression statement. -/
inductive Form (α : Type) where
  | program (statements : List α) (scope : ScopeId)
  | block (statements : List α) (scope : Option ScopeId) (concise : Bool)
  | var (kind : DeclarationKind) (declarators : List α)
  | declarator (target : α) (init : Option α)
  | function (kind : FunctionKind) (binding : Option α) (params : List α) (body : α)
      (isAsync isGenerator : Bool) (scope : ScopeId) (nameScope : Option ScopeId)
  | classDefinition (binding heritage : Option α) (members : List α) (isExpression : Bool)
      (scope : ScopeId)
  | classMember (key : α) (value : Option α) (kind : ClassMemberKind) (isStatic computed : Bool)
  | returnStatement (value : Option α)
  | ifStatement (condition consequent : α) (alternate : Option α)
  | whileLoop (condition body : α)
  | doWhileLoop (body condition : α)
  | forLoop (init condition step : Option α) (body : α) (scope : Option ScopeId)
  | forInLoop (left right body : α) (isOf isAwait : Bool) (scope : Option ScopeId)
  | breakStatement (label : Option String)
  | continueStatement (label : Option String)
  | throwStatement (value : α)
  | tryStatement (body : α) (catchBinding catchBody : Option α) (catchScope : Option ScopeId)
      (finalizer : Option α)
  | switchStatement (discriminant : α) (cases : List α) (scope : Option ScopeId)
  | switchCase (test : Option α) (statements : List α)
  | withStatement (object body : α) (scope : ScopeId)
  | labeled (label : String) (body : α)
  | debugger
  | empty
  | importantComment (text : String)
  | ccComment (statements : List α)
  | ccOn
  | ccSet (name : String) (value : α)
  | ccIf (condition : α)
  | ccElseIf (condition : α)
  | ccElse
  | ccEnd
  | ccVariable (name : String)
  | importDeclaration (specifiers : List α) (source : String)
  | importSpecifier (kind : ImportKind) (imported : Option String) (target : α)
  | exportDeclaration (kind : ExportKind) (declaration : Option α) (specifiers : List α)
      (source nameSpace : Option String)
  | exportSpecifier (target : α) (exported : Option String)
  | lookup (name : String) (field : Option FieldId) (refType : ReferenceType)
  | constant (value : Literal)
  | bigInt (digits : String)
  | regExp (pattern flags : String)
  | template (tag : Option α) (quasis : List String) (expressions : List α)
  | this
  | super
  | unary (op : UnaryOp) (operand : α)
  | update (op : UpdateOp) (isPrefixed : Bool) (operand : α)
  | binary (op : BinaryOp) (left right : α)
  | conditional (condition consequent alternate : α)
  | call (callee : α) (arguments : List α) (isNew optional : Bool)
  | member (object : α) (name : String) (optional : Bool)
  | index (object key : α) (optional : Bool)
  | arrayLiteral (elements : List (Option α))
  | objectLiteral (properties : List α) (preserveQuotes : Bool)
  | property (key value : α) (kind : PropertyKind) (computed : Bool)
  | propertyName (name : String)
  | spread (argument : α)
  | grouping (expression : α)
  | yield (argument : Option α) (delegate : Bool)
  | await (argument : α)
  | newTarget
  | replacementToken (name : String) (fallback : Option String)
  | bindingIdentifier (name : String) (field : Option FieldId)
  | arrayPattern (elements : List (Option α))
  | objectPattern (properties : List α)
  | assignmentPattern (target default : α)
  | restElement (argument : α)

namespace Form

variable {α : Type}

instance : Inhabited (Form α) := ⟨.empty⟩

/-- The filled child slots in source order; holes in arrays are left out. -/
def children : Form α → List α
  | program statements _ | block statements _ _ | ccComment statements => statements
  | var _ declarators => declarators
  | declarator target init => target :: init.toList
  | function _ binding params body _ _ _ _ => binding.toList ++ params ++ [body]
  | classDefinition binding heritage members _ _ => binding.toList ++ heritage.toList ++ members
  | classMember key value _ _ _ => key :: value.toList
  | returnStatement value => value.toList
  | ifStatement condition consequent alternate => condition :: consequent :: alternate.toList
  | whileLoop condition body => [condition, body]
  | doWhileLoop body condition => [body, condition]
  | forLoop init condition step body _ =>
    init.toList ++ condition.toList ++ step.toList ++ [body]
  | forInLoop left right body _ _ _ => [left, right, body]
  | throwStatement value => [value]
  | tryStatement body catchBinding catchBody _ finalizer =>
    body :: (catchBinding.toList ++ catchBody.toList ++ finalizer.toList)
  | switchStatement discriminant cases _ => discriminant :: cases
  | switchCase test statements => test.toList ++ statements
  | withStatement object body _ => [object, body]
  | labeled _ body => [body]
  | ccSet _ value => [value]
  | ccIf condition | ccElseIf condition => [condition]
  | importDeclaration specifiers _ => specifiers
  | importSpecifier _ _ target => [target]
  | exportDeclaration _ declaration specifiers _ _ => declaration.toList ++ specifiers
  | exportSpecifier target _ => [target]
  | template tag _ expressions => tag.toList ++ expressions
  | unary _ operand | update _ _ operand => [operand]
  | binary _ left right => [left, right]
  | conditional condition consequent alternate => [condition, consequent, alternate]
  | call callee arguments _ _ => callee :: arguments
  | member object _ _ => [object]
  | index object key _ => [object, key]
  | arrayLiteral elements | arrayPattern elements => elements.filterMap id
  | objectLiteral properties _ | objectPattern properties => properties
  | property key value _ _ => [key, value]
  | spread argument | await argument | restElement argument => [argument]
  | grouping expression => [expression]
  | yield argument _ => argument.toList
  | assignmentPattern target default => [target, default]
  | _ => []

def isExpression : Form α → Bool
  | lookup .. | constant .. | bigInt .. | regExp .. | template .. | this | super | unary .. | update ..
  | binary .. | conditional .. | call .. | member .. | index .. | arrayLiteral .. | objectLiteral ..
  | grouping .. | yield .. | await .. | newTarget | replacementToken .. | ccVariable .. => true
  | function kind .. => kind == .expression || kind == .arrow
  | classDefinition _ _ _ isExpression _ => isExpression
  | _ => false

/-- Whether the node introduces names that are visible in the whole enclosing function. -/
def isHoistedDeclaration : Form α → Bool
  | var kind _ => kind == .var
  | function kind .. => kind == .declaration
  | _ => false

/-- How tightly the node binds as an expression. -/
def level : Form α → Level
  | binary op _ _ => op.level
  | conditional .. => .conditional
  | yield .. => .assignment
  | function .arrow .. => .assignment
  | unary .. | await .. => .unary
  | update _ true _ => .unary
  | update _ false _ => .postfixed
  | call _ [] true _ => .bareNew
  | call .. | member .. | index .. | template (some _) .. => .leftHandSide
  | constant (.number n) => if n < 0.0 || n.isInf then .unary else .primary
  | _ => .primary

/-- The statement list of a program, block, switch clause or conditional comment. -/
def statementList? : Form α → Option (List α)
  | program statements _ | block statements _ _ | switchCase _ statements
  | ccComment statements => some statements
  | _ => none

/-- The form with another statement list, where it has one. -/
def withStatements (new : List α) : Form α → Form α
  | program _ scope => program new scope
  | block _ scope concise => block new scope concise
  | switchCase test _ => switchCase test new
  | ccComment _ => ccComment new
  | other => other

def isConcise : Form α → Bool
  | block _ _ concise => concise
  | _ => false

def notConcise : Form α → Form α
  | block statements scope _ => block statements scope false
  | other => other

section Exchange

variable [DecidableEq α] (old new : α)

def exchangeOne (x : α) : Option α :=
  if x = old then some new else none

def exchangeOptional (x : Option α) : Option (Option α) :=
  x.bind fun y => (exchangeOne old new y).map some

def exchangeFirst : List α → Option (List α)
  | [] => none
  | x :: xs => if x = old then some (new :: xs) else (exchangeFirst xs).map (x :: ·)

def exchangeFirstFilled : List (Option α) → Option (List (Option α))
  | [] => none
  | x :: xs => if x = some old then some (some new :: xs) else (exchangeFirstFilled xs).map (x :: ·)

/-- The form with the first slot that holds `old` holding `new` instead. -/
def exchange (form : Form α) : Option (Form α) :=
  let one := exchangeOne old new
  let optional := exchangeOptional old new
  let many := exchangeFirst old new
  let sparse := exchangeFirstFilled old new
  match form with
  | program statements scope => (many statements).map (program · scope)
  | block statements scope concise => (many statements).map (block · scope concise)
  | ccComment statements => (many statements).map ccComment
  | var kind declarators => (many declarators).map (var kind)
  | declarator target init =>
    (one target).map (declarator · init) <|> (optional init).map (declarator target)
  | function kind binding params body isAsync isGenerator scope nameScope =>
    (optional binding).map (function kind · params body isAsync isGenerator scope nameScope)
      <|> (many params).map (function kind binding · body isAsync isGenerator scope nameScope)
      <|> (one body).map (function kind binding params · isAsync isGenerator scope nameScope)
  | classDefinition binding heritage members isExpression scope =>
    (optional binding).map (classDefinition · heritage members isExpression scope)
      <|> (optional heritage).map (classDefinition binding · members isExpression scope)
      <|> (many members).map (classDefinition binding heritage · isExpression scope)
  | classMember key value kind isStatic computed =>
    (one key).map (classMember · value kind isStatic computed)
      <|> (optional value).map (classMember key · kind isStatic computed)
  | returnStatement value => (optional value).map returnStatement
  | ifStatement condition consequent alternate =>
    (one condition).map (ifStatement · consequent alternate)
      <|> (one consequent).map (ifStatement condition · alternate)
      <|> (optional alternate).map (ifStatement condition consequent)
  | whileLoop condition body =>
    (one condition).map (whileLoop · body) <|> (one body).map (whileLoop condition)
  | doWhileLoop body condition =>
    (one body).map (doWhileLoop · condition) <|> (one condition).map (doWhileLoop body)
  | forLoop init condition step body scope =>
    (optional init).map (forLoop · condition step body scope)
      <|> (optional condition).map (forLoop init · step body scope)
      <|> (optional step).map (forLoop init condition · body scope)
      <|> (one body).map (forLoop init condition step · scope)
  | forInLoop left right body isOf isAwait scope =>
    (one left).map (forInLoop · right body isOf isAwait scope)
      <|> (one right).map (forInLoop left · body isOf isAwait scope)
      <|> (one body).map (forInLoop left right · isOf isAwait scope)
  | throwStatement value => (one value).map throwStatement
  | tryStatement body catchBinding catchBody catchScope finalizer =>
    (one body).map (tryStatement · catchBinding catchBody catchScope finalizer)
      <|> (optional catchBinding).map (tryStatement body · catchBody catchScope finalizer)
      <|> (optional catchBody).map (tryStatement body catchBinding · catchScope finalizer)
      <|> (optional finalizer).map (tryStatement body catchBinding catchBody catchScope)
  | switchStatement discriminant cases scope =>
    (one discriminant).map (switchStatement · cases scope)
      <|> (many cases).map (switchStatement discriminant · scope)
  | switchCase test statements =>
    (optional test).map (switchCase · statements) <|> (many statements).map (switchCase test)
  | withStatement object body scope =>
    (one object).map (withStatement · body scope) <|> (one body).map (withStatement object · scope)
  | labeled label body => (one body).map (labeled label)
  | ccSet name value => (one value).map (ccSet name)
  | ccIf condition => (one condition).map ccIf
  | ccElseIf condition => (one condition).map ccElseIf
  | importDeclaration specifiers source => (many specifiers).map (importDeclaration · source)
  | importSpecifier kind imported target => (one target).map (importSpecifier kind imported)
  | exportDeclaration kind declaration specifiers source nameSpace =>
    (optional declaration).map (exportDeclaration kind · specifiers source nameSpace)
      <|> (many specifiers).map (exportDeclaration kind declaration · source nameSpace)
  | exportSpecifier target exported => (one target).map (exportSpecifier · exported)
  | template tag quasis expressions =>
    (optional tag).map (template · quasis expressions)
      <|> (many expressions).map (template tag quasis)
  | unary op operand => (one operand).map (unary op)
  | update op isPrefixed operand => (one operand).map (update op isPrefixed)
  | binary op left right =>
    (one left).map (binary op · right) <|> (one right).map (binary op left)
  | conditional condition consequent alternate =>
    (one condition).map (conditional · consequent alternate)
      <|> (one consequent).map (conditional condition · alternate)
      <|> (one alternate).map (conditional condition consequent)
  | call callee arguments isNew isOptional =>
    (one callee).map (call · arguments isNew isOptional)
      <|> (many arguments).map (call callee · isNew isOptional)
  | member object name isOptional => (one object).map (member · name isOptional)
  | index object key isOptional =>
    (one object).map (index · key isOptional) <|> (one key).map (index object · isOptional)
  | arrayLiteral elements => (sparse elements).map arrayLiteral
  | arrayPattern elements => (sparse elements).map arrayPattern
  | objectLiteral properties preserveQuotes => (many properties).map (objectLiteral · preserveQuotes)
  | objectPattern properties => (many properties).map objectPattern
  | property key value kind computed =>
    (one key).map (property · value kind computed)
      <|> (one value).map (property key · kind computed)
  | spread argument => (one argument).map spread
  | await argument => (one argument).map await
  | restElement argument => (one argument).map restElement
  | grouping expression => (one expression).map grouping
  | yield argument delegate => (optional argument).map (yield · delegate)
  | assignmentPattern target default =>
    (one target).map (assignmentPattern · default)
      <|> (one default).map (assignmentPattern target)
  | _ => none

end Exchange

end Form

end Condense
