import Condense.Diagnostic.Basic
import Condense.Diagnostic.Undefined
import Condense.Token.Basic

/-!
What can be wrong with a source text: each cause with its code and its wording.
-/

namespace Condense

/-- What the grammar wanted where it found another token. -/
inductive Expectation where
  | punctuator (p : Punctuator)
  | semicolon
  | identifier | propertyName | functionName | className | setVariable
  | expression | colon
  | wordWhile | caseOrDefault | wordFrom | moduleSpecifier | wordAs | arrow | wordTarget | template
  | substitutionEnd
  deriving DecidableEq

namespace Expectation

def code : Expectation → Code
  | punctuator .rParen => .noRightParenthesis
  | punctuator .rBracket => .noRightBracket
  | punctuator .rBrace => .noRightCurly
  | punctuator .colon | colon => .noColon
  | semicolon => .noSemicolon
  | identifier | propertyName | functionName | className | setVariable => .expectedIdentifier
  | expression => .expectedExpression
  | substitutionEnd => .unterminatedTemplate
  | _ => .unexpectedToken

def text : Expectation → String
  | punctuator p => "expected '" ++ p.spelling ++ "'"
  | semicolon => "expected ';'"
  | identifier => "expected identifier"
  | propertyName => "expected property name"
  | functionName => "expected function name"
  | className => "expected class name"
  | setVariable => "expected '@name' after '@set'"
  | expression => "expected expression"
  | colon => "expected ':'"
  | wordWhile => "expected 'while'"
  | caseOrDefault => "expected 'case' or 'default'"
  | wordFrom => "expected 'from'"
  | moduleSpecifier => "expected module specifier"
  | wordAs => "expected 'as'"
  | arrow => "expected '=>'"
  | wordTarget => "expected 'target'"
  | template => "expected template literal"
  | substitutionEnd => "expected '\x7d' in template literal"

end Expectation

inductive Problem where
  | missingDirective (name : String)
  | elseWithoutIf
  | endWithoutIf
  | illegalCharacter (c : Char)
  | unterminatedString
  | unterminatedTemplate
  | unterminatedRegExp
  | unterminatedComment
  | invalidHexEscape
  | invalidUnicodeEscape
  | missingRadixDigits
  | identifierAfterNumber
  | expected (what : Expectation) (found : Token)
  | endOfInput
  | strayBrace
  | unclosedBlock (line column : UInt32)
  | ambiguousFunctionName (name : String)
  | misplacedFunction
  | misplacedDeclaration
  | unknownLabel (name : String)
  | continueOutside
  | breakOutside
  | returnOutside
  | withInStrictMode
  | duplicateDefault
  | noCatchOrFinally
  | unterminatedConditional
  | notADeclaration
  | invalidPattern
  | invalidTarget
  | straySpread
  | ambiguousInWith (name : String)
  | escapingFunctionName (name : String)
  | undeclared (type : ReferenceType) (name : String)
  | notOneJsonValue

namespace Problem

def code : Problem → Code
  | missingDirective _ | elseWithoutIf | endWithoutIf => .unbalancedDirective
  | illegalCharacter _ => .illegalCharacter
  | unterminatedString => .unterminatedString
  | unterminatedTemplate => .unterminatedTemplate
  | unterminatedRegExp => .unterminatedRegExp
  | unterminatedComment => .unterminatedComment
  | invalidHexEscape | invalidUnicodeEscape => .invalidEscape
  | missingRadixDigits | identifierAfterNumber => .invalidNumber
  | expected what _ => what.code
  | endOfInput => .unexpectedEndOfInput
  | strayBrace | returnOutside | notADeclaration | straySpread => .unexpectedToken
  | unclosedBlock .. => .noRightCurly
  | ambiguousFunctionName _ => .ambiguousNamedFunctionExpression
  | misplacedFunction | misplacedDeclaration => .misplacedDeclaration
  | unknownLabel _ => .badLabel
  | continueOutside | breakOutside => .badBreak
  | withInStrictMode => .strictModeWith
  | duplicateDefault => .duplicateDefault
  | noCatchOrFinally => .noCatchOrFinally
  | unterminatedConditional => .unterminatedComment
  | invalidPattern | invalidTarget => .invalidAssignmentTarget
  | ambiguousInWith _ => .ambiguousWithReference
  | escapingFunctionName _ => .ambiguousNamedFunctionExpression
  | undeclared .variable _ => .undeclaredVariable
  | undeclared .function _ | undeclared .constructor _ => .undeclaredFunction
  | notOneJsonValue => .invalidJsonOutput

def message : Problem → String
  | missingDirective name => "missing ///#" ++ name
  | elseWithoutIf => "///#ELSE without ///#IFDEF"
  | endWithoutIf => "///#ENDIF without ///#IFDEF"
  | illegalCharacter c => "unexpected character '" ++ c.toString ++ "'"
  | unterminatedString => "unterminated string literal"
  | unterminatedTemplate => "unterminated template literal"
  | unterminatedRegExp => "unterminated regular expression literal"
  | unterminatedComment => "unterminated comment"
  | invalidHexEscape => "invalid \\x escape"
  | invalidUnicodeEscape => "invalid unicode escape sequence"
  | missingRadixDigits => "missing digits after radix prefix"
  | identifierAfterNumber => "identifier starts immediately after numeric literal"
  | expected what found => what.text ++ ", found " ++ found.describe
  | endOfInput => "unexpected end of input"
  | strayBrace => "unexpected '\x7d'"
  | unclosedBlock line column =>
    "expected '\x7d' to close the block opened at " ++ toString line ++ ":" ++ toString column
  | ambiguousFunctionName name => "named function expression '" ++ name ++ "' is ambiguous"
  | misplacedFunction => "function declaration in statement position"
  | misplacedDeclaration => "lexical declaration in statement position"
  | unknownLabel name => "label '" ++ name ++ "' not found"
  | continueOutside => "'continue' outside of a loop"
  | breakOutside => "'break' outside of a loop or switch"
  | returnOutside => "'return' outside of a function"
  | withInStrictMode => "'with' is not allowed in strict mode"
  | duplicateDefault => "duplicate 'default' clause"
  | noCatchOrFinally => "expected 'catch' or 'finally'"
  | unterminatedConditional => "unterminated conditional comment"
  | notADeclaration => "expected declaration after 'export'"
  | invalidPattern => "invalid binding pattern"
  | invalidTarget => "invalid assignment target"
  | straySpread => "unexpected '...'"
  | ambiguousInWith name => "reference to '" ++ name ++ "' inside with statement is ambiguous"
  | escapingFunctionName name =>
    "'" ++ name ++ "' refers to a named function expression outside of its body"
  | undeclared .variable name => "undeclared variable '" ++ name ++ "'"
  | undeclared .function name | undeclared .constructor name => "undeclared function '" ++ name ++ "'"
  | notOneJsonValue => "output is not a single JSON value"

def diagnostic (p : Problem) (span : Span) : Diagnostic :=
  { code := p.code, span, message := p.message }

end Problem

end Condense
