/-!
Diagnostic codes. The number is stable and shown to users as `JSnnnn`; its hundreds say which kind of check reports
it.
-/

namespace Condense

inductive Category where
  | lex | parse | undefinedReference | ambiguousBinding | configuration | output
  deriving DecidableEq

def Category.name : Category → String
  | .lex => "Lex"
  | .parse => "Parse"
  | .undefinedReference => "UndefinedReference"
  | .ambiguousBinding => "AmbiguousBinding"
  | .configuration => "Configuration"
  | .output => "Output"

inductive Code where
  | unterminatedString | unterminatedComment | unterminatedRegExp | unterminatedTemplate
  | invalidEscape | illegalCharacter | invalidNumber | unbalancedDirective
  | unexpectedToken | expectedIdentifier | expectedExpression | noRightParenthesis
  | noRightBracket | noRightCurly | noColon | noSemicolon | noCatchOrFinally | badLabel | badBreak
  | invalidAssignmentTarget | duplicateDefault | strictModeWith | unexpectedEndOfInput
  | misplacedDeclaration
  | undeclaredVariable | undeclaredFunction
  | ambiguousNamedFunctionExpression | ambiguousWithReference
  | invalidRenamePair | invalidIdentifier
  | invalidJsonOutput
  deriving DecidableEq

namespace Code

/-- The number of a code, the name by which settings refer to it, and what it means. -/
def entry : Code → Nat × String × String
  | unterminatedString => (1000, "UnterminatedString", "unterminated string literal")
  | unterminatedComment => (1001, "UnterminatedComment", "unterminated comment")
  | unterminatedRegExp => (1002, "UnterminatedRegExp", "unterminated regular expression literal")
  | unterminatedTemplate => (1003, "UnterminatedTemplate", "unterminated template literal")
  | invalidEscape => (1004, "InvalidEscape", "invalid escape sequence")
  | illegalCharacter => (1005, "IllegalCharacter", "illegal character")
  | invalidNumber => (1006, "InvalidNumber", "invalid numeric literal")
  | unbalancedDirective => (1007, "UnbalancedDirective", "unbalanced preprocessor directive")
  | unexpectedToken => (1100, "UnexpectedToken", "unexpected token")
  | expectedIdentifier => (1101, "ExpectedIdentifier", "expected identifier")
  | expectedExpression => (1102, "ExpectedExpression", "expected expression")
  | noRightParenthesis => (1103, "NoRightParenthesis", "expected ')'")
  | noRightBracket => (1104, "NoRightBracket", "expected ']'")
  | noRightCurly => (1105, "NoRightCurly", "expected '\x7d'")
  | noColon => (1106, "NoColon", "expected ':'")
  | noSemicolon => (1107, "NoSemicolon", "expected ';'")
  | noCatchOrFinally => (1108, "NoCatchOrFinally", "expected 'catch' or 'finally'")
  | badLabel => (1109, "BadLabel", "label not found")
  | badBreak => (1110, "BadBreak", "break or continue outside of a loop")
  | invalidAssignmentTarget => (1111, "InvalidAssignmentTarget", "invalid assignment target")
  | duplicateDefault => (1112, "DuplicateDefault", "duplicate default clause")
  | strictModeWith => (1113, "StrictModeWith", "with statement not allowed in strict mode")
  | unexpectedEndOfInput => (1114, "UnexpectedEndOfInput", "unexpected end of input")
  | misplacedDeclaration => (1115, "MisplacedDeclaration", "declaration not allowed here")
  | undeclaredVariable => (1200, "UndeclaredVariable", "undeclared variable")
  | undeclaredFunction => (1201, "UndeclaredFunction", "undeclared function")
  | ambiguousNamedFunctionExpression => (1300, "AmbiguousNamedFunctionExpression", "ambiguous named function expression")
  | ambiguousWithReference => (1301, "AmbiguousWithReference", "ambiguous reference inside with")
  | invalidRenamePair => (1400, "InvalidRenamePair", "invalid rename pair")
  | invalidIdentifier => (1401, "InvalidIdentifier", "invalid identifier")
  | invalidJsonOutput => (1500, "InvalidJsonOutput", "code is not a JSON value")

def number (c : Code) : Nat :=
  c.entry.1

def name (c : Code) : String :=
  c.entry.2.1

def description (c : Code) : String :=
  c.entry.2.2

def all : List Code :=
  [unterminatedString, unterminatedComment, unterminatedRegExp, unterminatedTemplate,
    invalidEscape, illegalCharacter, invalidNumber, unbalancedDirective, unexpectedToken,
    expectedIdentifier, expectedExpression, noRightParenthesis, noRightBracket, noRightCurly,
    noColon, noSemicolon, noCatchOrFinally, badLabel, badBreak, invalidAssignmentTarget,
    duplicateDefault, strictModeWith, unexpectedEndOfInput, misplacedDeclaration,
    undeclaredVariable, undeclaredFunction, ambiguousNamedFunctionExpression,
    ambiguousWithReference, invalidRenamePair, invalidIdentifier, invalidJsonOutput]

def text (c : Code) : String :=
  "JS" ++ toString c.number

/-- Zero is an error; a higher number is a milder warning. -/
def severity : Code → Nat
  | invalidEscape | unbalancedDirective => 1
  | ambiguousNamedFunctionExpression | ambiguousWithReference => 2
  | undeclaredVariable | undeclaredFunction => 3
  | misplacedDeclaration => 4
  | _ => 0

def category (c : Code) : Category :=
  match c.number / 100 with
  | 10 => .lex
  | 11 => .parse
  | 12 => .undefinedReference
  | 13 => .ambiguousBinding
  | 14 => .configuration
  | _ => .output

end Code

end Condense
