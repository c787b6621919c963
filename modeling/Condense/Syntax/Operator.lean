/-!
Operators, their spelling, and how tightly they bind.
-/

namespace Condense

inductive BinaryOp where
  | comma
  | assign | addAssign | subAssign | mulAssign | divAssign | modAssign | expAssign
  | leftShiftAssign | rightShiftAssign | unsignedRightShiftAssign
  | bitAndAssign | bitOrAssign | bitXorAssign | andAssign | orAssign | nullishAssign
  | or | and | nullish
  | bitOr | bitXor | bitAnd
  | eq | notEq | strictEq | strictNotEq
  | lt | ltEq | gt | gtEq | instanceOf | isIn
  | leftShift | rightShift | unsignedRightShift
  | add | sub | mul | div | mod | exp
  deriving DecidableEq

inductive UnaryOp where
  | minus | plus | not | bitwiseNot | typeof | void | delete
  deriving DecidableEq

inductive UpdateOp where
  | increment | decrement
  deriving DecidableEq

/-- Binding strength, loosest first. -/
inductive Level where
  | comma | assignment | conditional | coalesce | logicalOr | logicalAnd
  | bitwiseOr | bitwiseXor | bitwiseAnd | equality | relational | shift | additive | multiplicative
  | exponent | unary | postfixed | bareNew | leftHandSide | primary
  deriving DecidableEq

namespace Level

def rank (l : Level) : Nat :=
  l.ctorIdx

def below (a b : Level) : Bool :=
  a.rank < b.rank

def all : List Level :=
  [comma, assignment, conditional, coalesce, logicalOr, logicalAnd, bitwiseOr, bitwiseXor, bitwiseAnd,
    equality, relational, shift, additive, multiplicative, exponent, unary, postfixed, bareNew,
    leftHandSide, primary]

def tighter (l : Level) : Level :=
  (all.find? l.below).getD primary

end Level

inductive Associativity where
  | left | right
  deriving DecidableEq

namespace BinaryOp

def spelling : BinaryOp → String
  | comma => ","
  | assign => "="
  | addAssign => "+="
  | subAssign => "-="
  | mulAssign => "*="
  | divAssign => "/="
  | modAssign => "%="
  | expAssign => "**="
  | leftShiftAssign => "<<="
  | rightShiftAssign => ">>="
  | unsignedRightShiftAssign => ">>>="
  | bitAndAssign => "&="
  | bitOrAssign => "|="
  | bitXorAssign => "^="
  | andAssign => "&&="
  | orAssign => "||="
  | nullishAssign => "??="
  | or => "||"
  | and => "&&"
  | nullish => "??"
  | bitOr => "|"
  | bitXor => "^"
  | bitAnd => "&"
  | eq => "=="
  | notEq => "!="
  | strictEq => "==="
  | strictNotEq => "!=="
  | lt => "<"
  | ltEq => "<="
  | gt => ">"
  | gtEq => ">="
  | instanceOf => "instanceof"
  | isIn => "in"
  | leftShift => "<<"
  | rightShift => ">>"
  | unsignedRightShift => ">>>"
  | add => "+"
  | sub => "-"
  | mul => "*"
  | div => "/"
  | mod => "%"
  | exp => "**"

def isAssignment : BinaryOp → Bool
  | assign | addAssign | subAssign | mulAssign | divAssign | modAssign | expAssign
  | leftShiftAssign | rightShiftAssign | unsignedRightShiftAssign
  | bitAndAssign | bitOrAssign | bitXorAssign | andAssign | orAssign | nullishAssign => true
  | _ => false

def level : BinaryOp → Level
  | comma => .comma
  | assign | addAssign | subAssign | mulAssign | divAssign | modAssign | expAssign
  | leftShiftAssign | rightShiftAssign | unsignedRightShiftAssign
  | bitAndAssign | bitOrAssign | bitXorAssign | andAssign | orAssign | nullishAssign => .assignment
  | nullish => .coalesce
  | or => .logicalOr
  | and => .logicalAnd
  | bitOr => .bitwiseOr
  | bitXor => .bitwiseXor
  | bitAnd => .bitwiseAnd
  | eq | notEq | strictEq | strictNotEq => .equality
  | lt | ltEq | gt | gtEq | instanceOf | isIn => .relational
  | leftShift | rightShift | unsignedRightShift => .shift
  | add | sub => .additive
  | mul | div | mod => .multiplicative
  | exp => .exponent

def associativity (op : BinaryOp) : Associativity :=
  if op.isAssignment || op == exp then .right else .left

/-- Whether regrouping a chain of the operator never changes its value. -/
def isAssociative : BinaryOp → Bool
  | comma | and | or | bitAnd | bitOr | bitXor => true
  | _ => false

end BinaryOp

def UnaryOp.spelling : UnaryOp → String
  | .minus => "-"
  | .plus => "+"
  | .not => "!"
  | .bitwiseNot => "~"
  | .typeof => "typeof"
  | .void => "void"
  | .delete => "delete"

def UpdateOp.spelling : UpdateOp → String
  | .increment => "++"
  | .decrement => "--"

end Condense
