import Condense.Proofs.Expression.Syntax
import Condense.Proofs.Output.Text

/-!
The tokens that stand for an expression: parentheses are set where an operand binds less tightly than its place
demands, and nowhere else.
-/

namespace Condense

def UnaryOp.token : UnaryOp → Token
  | .minus => .punctuator .minus
  | .plus => .punctuator .plus
  | .not => .punctuator .not
  | .bitwiseNot => .punctuator .tilde
  | .typeof => .keyword .typeof
  | .void => .keyword .void
  | .delete => .keyword .delete

def UpdateOp.token : UpdateOp → Token
  | .increment => .punctuator .plusPlus
  | .decrement => .punctuator .minusMinus

def BinaryOp.token : BinaryOp → Token
  | .comma => .punctuator .comma
  | .assign => .punctuator .assign
  | .addAssign => .punctuator .plusEq
  | .subAssign => .punctuator .minusEq
  | .mulAssign => .punctuator .starEq
  | .divAssign => .punctuator .slashEq
  | .modAssign => .punctuator .percentEq
  | .expAssign => .punctuator .starStarEq
  | .leftShiftAssign => .punctuator .ltLtEq
  | .rightShiftAssign => .punctuator .gtGtEq
  | .unsignedRightShiftAssign => .punctuator .gtGtGtEq
  | .bitAndAssign => .punctuator .andEq
  | .bitOrAssign => .punctuator .orEq
  | .bitXorAssign => .punctuator .xorEq
  | .andAssign => .punctuator .andAndEq
  | .orAssign => .punctuator .orOrEq
  | .nullishAssign => .punctuator .nullishEq
  | .or => .punctuator .orOr
  | .and => .punctuator .andAnd
  | .nullish => .punctuator .nullish
  | .bitOr => .punctuator .or
  | .bitXor => .punctuator .xor
  | .bitAnd => .punctuator .and
  | .eq => .punctuator .eqEq
  | .notEq => .punctuator .notEq
  | .strictEq => .punctuator .eqEqEq
  | .strictNotEq => .punctuator .notEqEq
  | .lt => .punctuator .lt
  | .ltEq => .punctuator .ltEq
  | .gt => .punctuator .gt
  | .gtEq => .punctuator .gtEq
  | .instanceOf => .keyword .instanceof
  | .isIn => .keyword .in
  | .leftShift => .punctuator .ltLt
  | .rightShift => .punctuator .gtGt
  | .unsignedRightShift => .punctuator .gtGtGt
  | .add => .punctuator .plus
  | .sub => .punctuator .minus
  | .mul => .punctuator .star
  | .div => .punctuator .slash
  | .mod => .punctuator .percent
  | .exp => .punctuator .starStar

def Leaf.token : Leaf → Token
  | name text => .identifier text false
  | this => .keyword .this
  | null => .keyword .null
  | boolean true => .keyword .true
  | boolean false => .keyword .false
  | string text => .string text

@[simp] theorem UnaryOp.token_spelled (op : UnaryOp) (inlineSafe : Bool) :
    op.token.spelled inlineSafe = op.spelling := by
  cases op <;> rfl

@[simp] theorem UpdateOp.token_spelled (op : UpdateOp) (inlineSafe : Bool) :
    op.token.spelled inlineSafe = op.spelling := by
  cases op <;> rfl

@[simp] theorem BinaryOp.token_spelled (op : BinaryOp) (inlineSafe : Bool) :
    op.token.spelled inlineSafe = op.spelling := by
  cases op <;> rfl

def enclosed (tokens : List Token) : List Token :=
  .punctuator .lParen :: tokens ++ [.punctuator .rParen]

def fitted (level min : Level) (tokens : List Token) : List Token :=
  if level.below min then enclosed tokens else tokens

namespace Expr

def level : Expr → Level
  | leaf _ => .primary
  | grouping inner => inner.level
  | unary .. | update _ true _ => .unary
  | update _ false _ => .postfixed
  | binary op _ _ => op.level
  | conditional .. => .conditional
  | call _ [] true => .bareNew
  | call .. | member .. | index .. => .leftHandSide

def containsCall : Expr → Bool
  | call .. => true
  | grouping inner | member inner _ | index inner _ => inner.containsCall
  | _ => false

/-- Whether the right operand of `op` goes on with a chain of it. -/
def chains (op : BinaryOp) (right : Expr) : Bool :=
  op.isAssociative && match right.unwrap with
    | binary inner _ _ => inner == op
    | _ => false

/-- Whether the operand of `op` may not stand there without parentheses although it binds tightly enough. -/
def mixes (op : BinaryOp) (operand : Expr) : Bool :=
  op == .nullish && match operand.unwrap with
    | binary .and _ _ | binary .or _ _ => true
    | _ => false

def leftLevel (op : BinaryOp) : Level :=
  if op.isAssignment then .leftHandSide else if op = .exp then .postfixed else op.level

def rightLevel (op : BinaryOp) (right : Expr) : Level :=
  if chains op right then op.level
  else if op.isAssignment then .assignment
  else if op = .exp then .exponent else op.level.tighter

def fittedOperand (op : BinaryOp) (operand : Expr) (min : Level) (tokens : List Token) : List Token :=
  if mixes op operand then enclosed tokens else fitted operand.level min tokens

mutual

def bare : Expr → List Token
  | leaf l => [l.token]
  | grouping inner => inner.bare
  | unary op operand => op.token :: fitted operand.level .unary operand.bare
  | update op true operand => op.token :: fitted operand.level .unary operand.bare
  | update op false operand => fitted operand.level .leftHandSide operand.bare ++ [op.token]
  | binary op left right =>
    fittedOperand op left (leftLevel op) left.bare
      ++ op.token :: fittedOperand op right (rightLevel op right) right.bare
  | conditional condition consequent alternate =>
    fitted condition.level .coalesce condition.bare
      ++ .punctuator .question :: fitted consequent.level .assignment consequent.bare
      ++ .punctuator .colon :: fitted alternate.level .assignment alternate.bare
  | member object name =>
    fitted object.level .leftHandSide object.bare ++ [.punctuator .dot, .identifier name false]
  | index object key =>
    fitted object.level .leftHandSide object.bare
      ++ .punctuator .lBracket :: key.bare ++ [.punctuator .rBracket]
  | call callee args false =>
    fitted callee.level .leftHandSide callee.bare ++ enclosed (listed args)
  | call callee args true =>
    .keyword .new
      :: (if callee.containsCall then enclosed callee.bare else fitted callee.level .bareNew callee.bare)
      ++ if args.isEmpty then [] else enclosed (listed args)

def listed : List Expr → List Token
  | [] => []
  | [e] => fitted e.level .assignment e.bare
  | e :: rest => fitted e.level .assignment e.bare ++ .punctuator .comma :: listed rest

end

def tokens (e : Expr) (min : Level) : List Token :=
  fitted e.level min e.bare

end Expr

end Condense
