import Condense.Output.Number
import Condense.Output.Printer
import Condense.Output.Quoted

/-!
Printing of expressions, functions and classes.
-/

namespace Condense

namespace Style

/-- How tightly a node binds as it is printed. Negative numbers carry a sign, and infinities are quotients. -/
def level (c : Style) (id : NodeId) : Level :=
  match c.tree.form id with
  | .constant (.number x) =>
    if x.isInf then .multiplicative else if isNegative x then .unary else .primary
  | form => form.level

def stringLiteral (c : Style) (text : String) : List Piece :=
  [.token (Quoted.literal text c.settings.inlineSafeStrings)]

def literal (c : Style) : Literal → List Piece
  | .number x => [.token (numberText x)]
  | .string s => c.stringLiteral s
  | .boolean b => [.token (if b then "true" else "false")]
  | .null => [.token "null"]
  | .empty => []

end Style

namespace Tree

def containsCallUpTo (t : Tree) : Nat → NodeId → Bool
  | 0, _ => false
  | steps + 1, id =>
    match t.form id with
    | .call .. => true
    | .member object _ _ | .index object _ _ => t.containsCallUpTo steps object
    | .template (some tag) _ _ => t.containsCallUpTo steps tag
    | .grouping expression => t.containsCallUpTo steps expression
    | _ => false

/-- Whether a call stands leftmost in a chain of members, so that `new` would take it for its own. -/
def containsCall (t : Tree) (id : NodeId) : Bool :=
  t.containsCallUpTo (t.size + 1) id

def startsLikeStatementUpTo (t : Tree) (onlyObjects : Bool) : Nat → NodeId → Bool
  | 0, _ => false
  | steps + 1, id =>
    match t.form id with
    | .grouping next | .binary _ next _ | .conditional next _ _ | .call next _ false _
    | .member next _ _ | .index next _ _ | .update _ false next
    | .template (some next) _ _ => t.startsLikeStatementUpTo onlyObjects steps next
    | .objectLiteral .. | .objectPattern .. => true
    | .function kind .. => !onlyObjects && kind != .arrow
    | .classDefinition .. => !onlyObjects
    | _ => false

/-- Whether the leftmost token of an expression would start a block, a function or a class if it stood at the
start of a statement. With `onlyObjects`, only braces count. -/
def startsLikeStatement (t : Tree) (onlyObjects : Bool) (id : NodeId) : Bool :=
  t.startsLikeStatementUpTo onlyObjects (t.size + 1) id

end Tree

namespace Printer

variable (p : Printer) (c : Style)

def list (ids : List NodeId) : List Piece :=
  Style.separated c.space (ids.map fun id => p.expression c id .assignment)

def arguments (ids : List NodeId) : List Piece :=
  parenthesize (p.list c.nested ids)

/-- An operand. The operator `??` does not mix with `&&` and `||` without parentheses. -/
def operand (op : BinaryOp) (id : NodeId) (min : Level) : List Piece :=
  let inner := c.tree.unwrapGrouping id
  let mixes := op == .nullish && match c.tree.form inner with
    | .binary .and _ _ | .binary .or _ _ => true
    | _ => false
  if mixes then p.inParentheses c inner else p.expression c id min

/-- How tightly the operands of an operator have to bind. -/
def operandLevels (op : BinaryOp) : Level × Level :=
  if op.isAssignment then (.leftHandSide, .assignment)
  else if op == .exp then (.postfixed, .exponent)
  else (op.level, op.level.tighter)

def isChained (op : BinaryOp) (right : NodeId) : Bool :=
  op.isAssociative && match c.tree.form (c.tree.unwrapGrouping right) with
    | .binary inner _ _ => inner == op
    | _ => false

def binary (op : BinaryOp) (left right : NodeId) : List Piece :=
  let (leftMin, rightMin) := operandLevels op
  let rightMin := if isChained c op right then op.level else rightMin
  let sign := if op == .comma then [.token ","] ++ c.space else c.operator op.spelling
  p.operand c op left leftMin ++ sign ++ p.operand c op right rightMin

/-- The object of a member. A whole number needs a point of its own. -/
def memberObject (object : NodeId) : List Piece :=
  let object := c.tree.unwrapGrouping object
  let plain := p.expression c object .leftHandSide
  match c.tree.form object with
  | .constant (.number x) =>
    if x.isFinite && !isNegative x then
      let text := numberText x
      [.token text] ++ if text.toList.all Char.isDigit then [.token "."] else []
    else plain
  | _ => plain

def template (tag : Option NodeId) (quasis : List String) (expressions : List NodeId) : List Piece :=
  let tag := match tag with
    | some tag => p.expression c tag .leftHandSide
    | none => []
  let parts := quasis.zipIdx.flatMap fun (quasi, i) =>
    .glued quasi :: match expressions[i]? with
      | some id => [.glued "$\x7b"] ++ p.expression c.nested id .comma ++ [.glued "\x7d"]
      | none => []
  tag ++ [.token "\x60"] ++ parts ++ [.glued "\x60"]

def array (elements : List (Option NodeId)) : List Piece :=
  let parts := elements.map fun element => match element with
    | some id => p.expression c.nested id .assignment
    | none => []
  let hole := match elements.getLast? with
    | some none => [.token ","]
    | _ => []
  [.token "["] ++ Style.separated c.space parts ++ hole ++ [.token "]"]

def propertyKey (key : NodeId) (computed : Bool) : List Piece :=
  if computed then [.token "["] ++ p.expression c.nested key .assignment ++ [.token "]"]
  else p.expression c key .primary

def method (key : NodeId) (computed : Bool) (function : NodeId) : List Piece :=
  match c.tree.form function with
  | .function _ _ params body isAsync isGenerator _ _ =>
    (if isAsync then [.mapped "async" function none] else [])
      ++ (if isGenerator then [.token "*"] else [])
      ++ p.propertyKey c key computed ++ p.arguments c params ++ c.space
      ++ p.block c (c.tree.statements body)
  | _ => []

/-- A shorthand property is written out where its variable is written under another name. -/
def shorthand (key value : NodeId) (computed : Bool) : List Piece :=
  let target := match c.tree.form value with
    | .assignmentPattern target _ => target
    | _ => value
  let output := (c.bindingNames target).2
  let same := match c.tree.form key with
    | .propertyName name => name == output
    | _ => false
  (if same then [] else p.propertyKey c key computed ++ [.token ":"]) ++ p.expression c value .assignment

def property (key value : NodeId) (kind : PropertyKind) (computed : Bool) : List Piece :=
  match kind with
  | .init =>
    p.propertyKey c key computed ++ [.token ":"] ++ c.space ++ p.expression c value .assignment
  | .shorthand => p.shorthand c key value computed
  | .method => p.method c key computed value
  | .getter => [.token "get"] ++ p.method c key computed value
  | .setter => [.token "set"] ++ p.method c key computed value

/-- The body of an arrow function. A lone expression that starts with a brace is put in parentheses. -/
def arrowBody (body : NodeId) : List Piece :=
  match c.tree.form body with
  | .block [value] _ true =>
    if c.tree.startsLikeStatement true value then p.inParentheses c value
    else p.expression c value .assignment
  | .block statements _ _ => p.block c statements
  | _ => p.expression c body .assignment

def arrow (id : NodeId) (params : List NodeId) (body : NodeId) (isAsync : Bool) : List Piece :=
  let params := match params with
    | [single] => match c.tree.form single with
      | .bindingIdentifier .. => p.expression c single .primary
      | _ => p.arguments c params
    | _ => p.arguments c params
  (if isAsync then [.mapped "async" id none] else []) ++ params ++ c.operator "=>" ++ p.arrowBody c body

def function (id : NodeId) : List Piece :=
  match c.tree.form id with
  | .function .arrow _ params body isAsync _ _ _ => p.arrow c id params body isAsync
  | .function _ binding params body isAsync isGenerator _ _ =>
    let name := match binding with
      | some binding => c.space ++ p.expression c binding .primary
      | none => []
    (if isAsync then [.mapped "async" id none, .token "function"] else [.mapped "function" id none])
      ++ (if isGenerator then [.token "*"] else [])
      ++ name ++ p.arguments c params ++ c.space ++ p.block c (c.tree.statements body)
  | _ => []

def classMember (id : NodeId) (isLast : Bool) : List Piece :=
  match c.tree.form id with
  | .classMember key value kind isStatic computed =>
    let method := match value with
      | some value => p.method c key computed value
      | none => []
    let rest := match kind with
      | .field =>
        let init := match value with
          | some value => c.operator "=" ++ p.expression c.nested value .assignment
          | none => []
        p.propertyKey c key computed ++ init ++ if !isLast || c.isPretty then [.token ";"] else []
      | .method => method
      | .getter => [.token "get"] ++ method
      | .setter => [.token "set"] ++ method
    (if isStatic then [.token "static"] else []) ++ rest
  | _ => []

def classMembers : List NodeId → List Piece
  | [] => []
  | id :: rest => c.newLine ++ p.classMember c id rest.isEmpty ++ classMembers rest

def classDefinition (id : NodeId) : List Piece :=
  match c.tree.form id with
  | .classDefinition binding heritage members _ _ =>
    let name := match binding with
      | some binding => p.expression c binding .primary
      | none => []
    let base := match heritage with
      | some heritage => [.token "extends"] ++ p.expression c heritage .leftHandSide
      | none => []
    let last := if members.isEmpty then [] else c.newLine
    [.mapped "class" id none] ++ name ++ base ++ c.space ++ [.token "\x7b"]
      ++ p.classMembers c.indented members ++ last ++ [.token "\x7d"]
  | _ => []

def call (callee : NodeId) (args : List NodeId) (isNew isOptional : Bool) : List Piece :=
  if isNew then
    let callee :=
      if c.tree.containsCall callee then p.inParentheses c callee else p.expression c callee .bareNew
    [.token "new"] ++ callee ++ if args.isEmpty then [] else p.arguments c args
  else
    p.expression c callee .leftHandSide ++ (if isOptional then [.token "?."] else []) ++ p.arguments c args

def bareExpression (id : NodeId) : List Piece :=
  match c.tree.form id with
  | .binary op left right => p.binary c op left right
  | .conditional condition consequent alternate =>
    p.expression c condition .coalesce ++ c.operator "?" ++ p.expression c consequent .assignment
      ++ c.operator ":" ++ p.expression c alternate .assignment
  | .unary op operand =>
    let gap := if op == .typeof || op == .void || op == .delete then c.space else []
    [.token op.spelling] ++ gap ++ p.expression c operand .unary
  | .update op true operand => [.token op.spelling] ++ p.expression c operand .unary
  | .update op false operand => p.expression c operand .leftHandSide ++ [.token op.spelling]
  | .await argument => [.token "await"] ++ c.space ++ p.expression c argument .unary
  | .yield argument delegate =>
    let value := match argument with
      | some argument => c.space ++ p.expression c argument .assignment
      | none => []
    [.token "yield"] ++ (if delegate then [.token "*"] else []) ++ value
  | .call callee args isNew isOptional => p.call c callee args isNew isOptional
  | .member object name isOptional =>
    p.memberObject c object ++ [.token (if isOptional then "?." else "."), .token name]
  | .index object key isOptional =>
    p.expression c object .leftHandSide ++ [.token (if isOptional then "?.[" else "[")]
      ++ p.expression c.nested key .comma ++ [.token "]"]
  | .template tag quasis expressions => p.template c tag quasis expressions
  | .constant literal => c.literal literal
  | .bigInt digits => [.token (digits ++ "n")]
  | .regExp pattern flags => [.token ("/" ++ pattern ++ "/" ++ flags)]
  | .this => [.token "this"]
  | .super => [.token "super"]
  | .newTarget => [.token "new.target"]
  | .spread argument | .restElement argument => [.token "..."] ++ p.expression c argument .assignment
  | .arrayLiteral elements | .arrayPattern elements => p.array c elements
  | .objectLiteral properties _ | .objectPattern properties =>
    [.token "\x7b"] ++ p.list c.nested properties ++ [.token "\x7d"]
  | .property key value kind computed => p.property c key value kind computed
  | .assignmentPattern target default =>
    p.expression c target .assignment ++ c.operator "=" ++ p.expression c default .assignment
  | .function .. => p.function c id
  | .classDefinition .. => p.classDefinition c id
  | .lookup name field _ | .bindingIdentifier name field =>
    [.mapped (c.outputName name field) id (some name)]
  | .propertyName name => [.token name]
  | .replacementToken name (some fallback) => [.token ("%" ++ name ++ ":" ++ fallback ++ "%")]
  | .replacementToken name none => [.token ("%" ++ name ++ "%")]
  | .ccVariable name => [.token ("@" ++ name)]
  | _ => []

/-- A node as an expression, in parentheses if it binds less tightly than `min`. -/
def expressionAt (id : NodeId) (min : Level) : List Piece :=
  let id := c.tree.unwrapGrouping id
  let isIn := match c.tree.form id with
    | .binary .isIn _ _ => true
    | _ => false
  if (c.level id).below min || (c.noIn && isIn) then parenthesize (p.bareExpression c.nested id)
  else p.bareExpression c id

end Printer

end Condense
