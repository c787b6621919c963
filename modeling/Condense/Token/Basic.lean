import Condense.Decimal.Shortest
import Condense.Source.Span
import Condense.Syntax.Operator

/-!
Tokens of the language: words, punctuation, literals, comments that are kept, and markers.
-/

namespace Condense

inductive Keyword where
  | let | const | var | function | return | if | else | while | for | break | continue | classWord | extends
  | new | this | super | async | await | true | false | null | typeof | void | instanceof | in | try
  | catch | finally | throw | yield | import | export | default | delete | with | switch | case | do
  | debugger | static
  deriving DecidableEq

namespace Keyword

def all : List Keyword :=
  [.let, .const, .var, .function, .return, .if, .else, .while, .for, .break, .continue, .classWord,
    .extends, .new, .this, .super, .async, .await, .true, .false, .null, .typeof, .void, .instanceof,
    .in, .try, .catch, .finally, .throw, .yield, .import, .export, .default, .delete, .with, .switch,
    .case, .do, .debugger, .static]

def spelling : Keyword → String
  | .let => "let"
  | .const => "const"
  | .var => "var"
  | .function => "function"
  | .return => "return"
  | .if => "if"
  | .else => "else"
  | .while => "while"
  | .for => "for"
  | .break => "break"
  | .continue => "continue"
  | .classWord => "class"
  | .extends => "extends"
  | .new => "new"
  | .this => "this"
  | .super => "super"
  | .async => "async"
  | .await => "await"
  | .true => "true"
  | .false => "false"
  | .null => "null"
  | .typeof => "typeof"
  | .void => "void"
  | .instanceof => "instanceof"
  | .in => "in"
  | .try => "try"
  | .catch => "catch"
  | .finally => "finally"
  | .throw => "throw"
  | .yield => "yield"
  | .import => "import"
  | .export => "export"
  | .default => "default"
  | .delete => "delete"
  | .with => "with"
  | .switch => "switch"
  | .case => "case"
  | .do => "do"
  | .debugger => "debugger"
  | .static => "static"

def ofString? (word : String) : Option Keyword :=
  all.find? (·.spelling == word)

def isContextual : Keyword → Bool
  | .let | .async | .await | .yield | .static => Bool.true
  | _ => Bool.false

end Keyword

inductive Punctuator where
  | lParen | rParen | lBrace | rBrace | lBracket | rBracket | semicolon | comma | dot | spread
  | optionalChain | colon | question | assign | arrow
  | plus | minus | star | slash | percent | starStar
  | eqEq | eqEqEq | notEq | notEqEq | lt | ltEq | gt | gtEq
  | andAnd | orOr | nullish | not | and | or | xor | tilde | ltLt | gtGt | gtGtGt
  | plusEq | minusEq | starEq | slashEq | percentEq | starStarEq | andEq | orEq | xorEq
  | ltLtEq | gtGtEq | gtGtGtEq | andAndEq | orOrEq | nullishEq | plusPlus | minusMinus
  deriving DecidableEq

namespace Punctuator

def spelling : Punctuator → String
  | lParen => "("
  | rParen => ")"
  | lBrace => "\x7b"
  | rBrace => "\x7d"
  | lBracket => "["
  | rBracket => "]"
  | semicolon => ";"
  | comma => ","
  | dot => "."
  | spread => "..."
  | optionalChain => "?."
  | colon => ":"
  | question => "?"
  | assign => "="
  | arrow => "=>"
  | plus => "+"
  | minus => "-"
  | star => "*"
  | slash => "/"
  | percent => "%"
  | starStar => "**"
  | eqEq => "=="
  | eqEqEq => "==="
  | notEq => "!="
  | notEqEq => "!=="
  | lt => "<"
  | ltEq => "<="
  | gt => ">"
  | gtEq => ">="
  | andAnd => "&&"
  | orOr => "||"
  | nullish => "??"
  | not => "!"
  | and => "&"
  | or => "|"
  | xor => "^"
  | tilde => "~"
  | ltLt => "<<"
  | gtGt => ">>"
  | gtGtGt => ">>>"
  | plusEq => "+="
  | minusEq => "-="
  | starEq => "*="
  | slashEq => "/="
  | percentEq => "%="
  | starStarEq => "**="
  | andEq => "&="
  | orEq => "|="
  | xorEq => "^="
  | ltLtEq => "<<="
  | gtGtEq => ">>="
  | gtGtGtEq => ">>>="
  | andAndEq => "&&="
  | orOrEq => "||="
  | nullishEq => "??="
  | plusPlus => "++"
  | minusMinus => "--"

/-- The operator between two operands that the punctuator denotes, assignments apart. -/
def binaryOp? : Punctuator → Option BinaryOp
  | nullish => some .nullish
  | orOr => some .or
  | andAnd => some .and
  | or => some .bitOr
  | xor => some .bitXor
  | and => some .bitAnd
  | eqEq => some .eq
  | notEq => some .notEq
  | eqEqEq => some .strictEq
  | notEqEq => some .strictNotEq
  | lt => some .lt
  | ltEq => some .ltEq
  | gt => some .gt
  | gtEq => some .gtEq
  | ltLt => some .leftShift
  | gtGt => some .rightShift
  | gtGtGt => some .unsignedRightShift
  | plus => some .add
  | minus => some .sub
  | star => some .mul
  | slash => some .div
  | percent => some .mod
  | starStar => some .exp
  | _ => none

def assignmentOp? : Punctuator → Option BinaryOp
  | assign => some .assign
  | plusEq => some .addAssign
  | minusEq => some .subAssign
  | starEq => some .mulAssign
  | slashEq => some .divAssign
  | percentEq => some .modAssign
  | starStarEq => some .expAssign
  | ltLtEq => some .leftShiftAssign
  | gtGtEq => some .rightShiftAssign
  | gtGtGtEq => some .unsignedRightShiftAssign
  | andEq => some .bitAndAssign
  | orEq => some .bitOrAssign
  | xorEq => some .bitXorAssign
  | andAndEq => some .andAssign
  | orOrEq => some .orAssign
  | nullishEq => some .nullishAssign
  | _ => none

end Punctuator

/-- Markers of conditional compilation. -/
inductive Marker where
  | start | stop | on | set | ifBranch | elseIf | elseBranch | endIf
  | variable (name : String)
  deriving DecidableEq

inductive Token where
  | identifier (name : String) (escaped : Bool)
  | privateIdentifier (name : String)
  | number (value : Float)
  | bigInt (digits : String)
  | string (value : String)
  | templateLiteral (raw : String)
  | templateHead (raw : String)
  | templateMiddle (raw : String)
  | templateTail (raw : String)
  | regExp (pattern flags : String)
  | keyword (word : Keyword)
  | punctuator (mark : Punctuator)
  | importantComment (text : String)
  | marker (mark : Marker)
  | replacement (name : String) (fallback : Option String)
  | endOfInput
  deriving Inhabited

namespace Token

def is (p : Punctuator) : Token → Bool
  | punctuator q => p == q
  | _ => false

def isWord (k : Keyword) : Token → Bool
  | keyword l => k == l
  | _ => false

def isName (name : String) : Token → Bool
  | identifier n false => n == name
  | _ => false

def isEnd : Token → Bool
  | endOfInput => true
  | _ => false

/-- Whether a slash after the token starts a regular expression. -/
def allowsRegExpAfter : Token → Bool
  | identifier .. | privateIdentifier _ | number _ | bigInt _ | string _ | templateLiteral _
  | templateTail _ | regExp .. | replacement .. => false
  | keyword .this | keyword .super | keyword .true | keyword .false | keyword .null | keyword .let
  | keyword .async | keyword .static => false
  | punctuator .rParen | punctuator .rBracket | punctuator .plusPlus | punctuator .minusMinus => false
  | _ => true

def isTrivia : Token → Bool
  | importantComment _ | marker _ => true
  | _ => false

def describe : Token → String
  | identifier name _ => "identifier '" ++ name ++ "'"
  | privateIdentifier name => "'#" ++ name ++ "'"
  | number n => "number " ++ plainNumber n
  | bigInt digits => "bigint " ++ digits ++ "n"
  | string _ => "string literal"
  | templateLiteral _ | templateHead _ | templateMiddle _ | templateTail _ => "template literal"
  | regExp .. => "regular expression"
  | keyword k => "'" ++ k.spelling ++ "'"
  | punctuator p => "'" ++ p.spelling ++ "'"
  | importantComment _ => "comment"
  | marker _ => "conditional compilation marker"
  | replacement name _ => "replacement token '" ++ name ++ "'"
  | endOfInput => "end of input"

def binaryOp? : Token → Option BinaryOp
  | keyword .instanceof => some .instanceOf
  | keyword .in => some .isIn
  | punctuator p => p.binaryOp?
  | _ => none

def assignmentOp? : Token → Option BinaryOp
  | punctuator p => p.assignmentOp?
  | _ => none

end Token

structure Lexeme where
  token : Token := .endOfInput
  span : Span := {}
  raw : String := ""
  newlineBefore : Bool := false
  deriving Inhabited

end Condense
