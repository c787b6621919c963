import Condense.Decimal.Reader
import Condense.Diagnostic.Problem
import Condense.Settings.Replacement
import Condense.Token.Cursor
import Condense.Token.Name

/-!
The scanner yields one token at a time.
-/

namespace Condense

inductive Brace where
  | block | template
  deriving DecidableEq

/-- A preprocessor section that is still open. -/
inductive Section where
  | conditional | debug
  deriving DecidableEq

structure Scanner where
  settings : Settings
  source : List Char
  cursor : Cursor
  file : FileId := {}
  nextFile : Nat := 1
  newFiles : List String := []
  regExpAllowed : Bool := true
  braces : List Brace := []
  sections : List Section := []
  defines : List String
  inConditionalComment : Bool := false
  lookahead : Option Lexeme := none
  diagnostics : List Diagnostic := []
  deriving Inhabited

abbrev Scan := StateM Scanner

namespace Scanner

def here : Scan Cursor :=
  return (← get).cursor

def moveTo (cursor : Cursor) : Scan Unit :=
  modify fun s => { s with cursor }

def report (problem : Problem) (start : Position) : Scan Unit :=
  modify fun s =>
    let span : Span := { file := s.file, start, stop := s.cursor.position }
    { s with diagnostics := s.diagnostics ++ [problem.diagnostic span] }

def advance : Scan Char :=
  modifyGet fun s => (s.cursor.peek, { s with cursor := s.cursor.advance })

def eat (expected : Char) : Scan Bool :=
  modifyGet fun s => match s.cursor.eat? expected with
    | some cursor => (true, { s with cursor })
    | none => (false, s)

def takeWhile (p : Char → Bool) : Scan (List Char) :=
  modifyGet fun s =>
    let (taken, cursor) := s.cursor.takeWhile p
    (taken, { s with cursor })

def codePoint? (code : Nat) : Option Char :=
  if code.isValidChar then some (Char.ofNat code) else none

/-- Reads exactly `count` hexadecimal digits; nothing is consumed where there are fewer. -/
def scanHexDigits (count : Nat) : Scan (Option Char) := do
  let cursor ← here
  let digits := cursor.rest.take count
  if digits.length = count && digits.all (isDigitOf 16) then
    moveTo (cursor.skip count)
    return codePoint? (digits.foldl (fun code c => code * 16 + hexDigitValue c) 0)
  else return none

/-- Adds a hexadecimal digit to a 32-bit code that stays at its largest value once it got there. -/
def accumulate (code : Nat) (c : Char) : Nat :=
  (min (code * 16) (Nat.pow 2 32 - 1) + hexDigitValue c) % Nat.pow 2 32

def scanUnicodeEscape (start : Position) : Scan (Option Char) := do
  let _ ← advance
  let decoded ←
    if ← eat '\x7b' then do
      let digits ← takeWhile (isDigitOf 16)
      if digits.isEmpty then pure none
      else if ← eat '\x7d' then pure (codePoint? (digits.foldl accumulate 0))
      else pure none
    else scanHexDigits 4
  if decoded.isNone then report .invalidUnicodeEscape start
  return decoded

/-- Goes on reading an octal escape while another digit keeps its value below 256. -/
def scanOctal : Nat → Nat → Scan Nat
  | 0, code => pure code
  | steps + 1, code => do
    let c := (← here).peek
    if code < 32 && isDigitOf 8 c then
      let _ ← advance
      scanOctal steps (code * 8 + hexDigitValue c)
    else return code

/-- The characters that an escape in a string literal stands for, read from behind the backslash. -/
def scanStringEscape : Scan (List Char) := do
  let start := (← here).position
  match (← here).peek with
  | 'n' => moveTo (← here).advance; return ['\n']
  | 't' => moveTo (← here).advance; return ['\t']
  | 'r' => moveTo (← here).advance; return ['\r']
  | 'b' => moveTo (← here).advance; return ['\x08']
  | 'f' => moveTo (← here).advance; return ['\x0c']
  | 'v' => moveTo (← here).advance; return ['\x0b']
  | 'x' =>
    moveTo (← here).advance
    match ← scanHexDigits 2 with
    | some c => return [c]
    | none =>
      report .invalidHexEscape start
      return ['x']
  | 'u' =>
    match ← scanUnicodeEscape start with
    | some c => return [c]
    | none => return ['u']
  | c =>
    if isDigitOf 8 c then
      moveTo (← here).advance
      return [Char.ofNat (← scanOctal (← here).rest.length (hexDigitValue c))]
    else if isLineTerminator c then
      moveTo (← here).advanceCounting
      return []
    else
      moveTo (← here).advance
      return [c]

/-- Reads the rest of a string literal; `done` holds the characters so far, latest first. -/
def scanStringFrom (quote : Char) (start : Position) : Nat → List Char → Scan (List Char)
  | 0, done => pure done
  | steps + 1, done => do
    let cursor ← here
    if cursor.atEnd || isLineTerminator cursor.peek then
      report .unterminatedString start
      return done
    else if cursor.peek = quote then
      moveTo cursor.advance
      return done
    else if cursor.peek = '\\' then
      moveTo cursor.advance
      if cursor.advance.atEnd then scanStringFrom quote start steps done
      else
        let chars ← scanStringEscape
        scanStringFrom quote start steps (chars.reverse ++ done)
    else
      moveTo cursor.advance
      scanStringFrom quote start steps (cursor.peek :: done)

def scanString (quote : Char) (start : Position) : Scan Token := do
  let steps := (← here).rest.length + 1
  let value := String.ofList (← scanStringFrom quote start steps []).reverse
  return .string ((← get).settings.substitute value)

/-- Reads a piece of a template literal up to its end or the next substitution. Answers the raw text,
latest character first, and whether a substitution follows. -/
def scanTemplateFrom (start : Position) : Nat → List Char → Scan (List Char × Bool)
  | 0, done => pure (done, false)
  | steps + 1, done => do
    let cursor ← here
    if cursor.atEnd then
      report .unterminatedTemplate start
      return (done, false)
    else
      let c := cursor.peek
      let next := cursor.advance
      if c = '\x60' then
        moveTo next
        return (done, false)
      else if c = '$' && next.peek = '\x7b' then
        moveTo next.advance
        modify fun s => { s with braces := .template :: s.braces }
        return (done, true)
      else if c = '\\' then
        if next.atEnd then
          moveTo next
          scanTemplateFrom start steps (c :: done)
        else
          let escaped := next.peek
          moveTo (if isLineTerminator escaped then next.advance.newLine else next.advance)
          scanTemplateFrom start steps (escaped :: c :: done)
      else if c = '\r' && next.peek = '\n' then
        moveTo cursor.advanceCounting
        scanTemplateFrom start steps ('\n' :: c :: done)
      else
        moveTo cursor.advanceCounting
        scanTemplateFrom start steps (c :: done)

def scanTemplate (start : Position) (isHead : Bool) : Scan Token := do
  let (raw, continues) ← scanTemplateFrom start ((← here).rest.length + 1) []
  let raw := String.ofList raw.reverse
  return match isHead, continues with
    | true, false => .templateLiteral raw
    | true, true => .templateHead raw
    | false, false => .templateTail raw
    | false, true => .templateMiddle raw

/-- Reads a pattern up to its closing slash, which does not count within brackets. Answers `none` where
there is no such slash on the line. -/
def patternFrom : List Char → Bool → List Char → Option (List Char)
  | [], _, _ => none
  | '\\' :: c :: rest, inClass, done =>
    if isLineTerminator c then none else patternFrom rest inClass (c :: '\\' :: done)
  | c :: rest, inClass, done =>
    if isLineTerminator c then none
    else if c = '/' && !inClass then some done
    else patternFrom rest (if c = '[' then true else if c = ']' then false else inClass) (c :: done)

def scanRegExp (start : Position) : Scan Token := do
  let cursor ← here
  match patternFrom cursor.rest false [] with
  | some pattern =>
    moveTo (cursor.skip (pattern.length + 1))
    let flags ← takeWhile isIdContinue
    return .regExp (String.ofList pattern.reverse) (String.ofList flags)
  | none =>
    let (pattern, stop) := cursor.takeLine
    moveTo stop
    report .unterminatedRegExp start
    return .regExp (String.ofList pattern) ""

/-- Digits with underscores between them, which are dropped. -/
def decimalDigits : List Char → List Char × Nat
  | [] => ([], 0)
  | '_' :: d :: rest =>
    if d.isDigit then
      let (digits, n) := decimalDigits rest
      (d :: digits, n + 2)
    else ([], 0)
  | c :: rest =>
    if c.isDigit then
      let (digits, n) := decimalDigits rest
      (c :: digits, n + 1)
    else ([], 0)

def scanDecimalDigits : Scan (List Char) := do
  let cursor ← here
  let (digits, n) := decimalDigits cursor.rest
  moveTo (cursor.skip n)
  return digits

def radixOf? (c : Char) : Option Nat :=
  if c = 'x' || c = 'X' then some 16
  else if c = 'o' || c = 'O' then some 8
  else if c = 'b' || c = 'B' then some 2
  else none

/-- Reads a literal with a radix mark, from the mark on. Such a BigInt keeps its whole text. -/
def scanRadix (radix : Nat) (start : Cursor) : Scan Token := do
  let _ ← advance
  let digits := (← takeWhile fun c => isDigitOf radix c || c == '_').filter (· != '_')
  if ← eat 'n' then return .bigInt ((← here).textFrom start)
  else if digits.isEmpty then
    report .missingRadixDigits start.position
    return .number 0.0
  else return .number (readRadix radix digits)

/-- Reads the exponent of a literal, if there is one with digits. -/
def scanExponent : Scan (List Char) := do
  let cursor ← here
  if cursor.peek = 'e' || cursor.peek = 'E' then
    let signed := cursor.peekAt? 1 == some '+' || cursor.peekAt? 1 == some '-'
    let lead := if signed then 2 else 1
    if (cursor.peekAt? lead).any Char.isDigit then
      moveTo (cursor.skip lead)
      return cursor.rest.take lead ++ (← scanDecimalDigits)
    else return []
  else return []

def scanFraction : Scan (List Char) := do
  if (← here).peek = '.' then
    let _ ← advance
    return '.' :: (← scanDecimalDigits)
  else return []

/-- Reads what follows the digits and the fraction of a decimal literal. -/
def scanDecimalEnd (start : Cursor) (whole fraction : List Char) : Scan Token := do
  let exponent ← scanExponent
  let isInteger := whole.head? != some '.' && fraction.isEmpty && exponent.isEmpty
  if isInteger && (← here).peek = 'n' then
    let _ ← advance
    return .bigInt (String.ofList whole)
  else
    if isIdStart (← here).peek then report .identifierAfterNumber start.position
    return .number (readDecimal (whole ++ fraction ++ exponent))

def scanDecimal (first : Char) (start : Cursor) : Scan Token := do
  let whole := first :: (← scanDecimalDigits)
  let fraction ← if first = '.' then pure [] else scanFraction
  scanDecimalEnd start whole fraction

/-- Reads a number whose first character was already consumed. A leading zero before digits makes them
octal, unless one of them is an eight or a nine. -/
def scanNumber (first : Char) (start : Cursor) : Scan Token := do
  let next := (← here).peek
  if first = '0' then
    match radixOf? next with
    | some radix => scanRadix radix start
    | none =>
      if next.isDigit then
        let digits ← takeWhile Char.isDigit
        return .number (if digits.all (isDigitOf 8) then readRadix 8 digits else readDecimal digits)
      else scanDecimal first start
  else scanDecimal first start

/-- Goes on reading a name; `done` holds the characters so far, latest first. Answers them and whether
any was escaped. -/
def scanNameFrom : Nat → List Char → Bool → Scan (List Char × Bool)
  | 0, done, escaped => pure (done, escaped)
  | steps + 1, done, escaped => do
    let cursor ← here
    if isIdContinue cursor.peek && !cursor.atEnd then
      moveTo cursor.advance
      scanNameFrom steps (cursor.peek :: done) escaped
    else if cursor.peek = '\\' && cursor.peekAt? 1 == some 'u' then
      moveTo cursor.advance
      match ← scanUnicodeEscape cursor.position with
      | some c => scanNameFrom steps (c :: done) true
      | none => return (done, escaped)
    else return (done, escaped)

/-- Reads an identifier or keyword from its second character on. A word with escapes is no keyword. -/
def scanIdentifier (first : Char) (escaped : Bool) : Scan Token := do
  let (name, escaped) ← scanNameFrom ((← here).rest.length + 1) [first] escaped
  let name := String.ofList name.reverse
  match if escaped then none else Keyword.ofString? name with
  | some keyword => return .keyword keyword
  | none => return .identifier name escaped

def passComment : Nat → Scan Bool
  | 0 => pure false
  | steps + 1 => do
    let cursor ← here
    if cursor.atEnd then return false
    else if cursor.peek = '*' && cursor.peekAt? 1 == some '/' then
      moveTo (cursor.skip 2)
      return true
    else
      moveTo cursor.advanceCounting
      passComment steps

def scanImportantComment (start : Cursor) : Scan Token := do
  if ← passComment ((← here).rest.length + 1) then return .importantComment ((← here).textFrom start)
  else
    report .unterminatedComment start.position
    return .importantComment ((← here).textFrom start ++ "*/")

def skipBlockComment : Scan Unit := do
  let start := (← here).position
  moveTo ((← here).skip 2)
  if !(← passComment ((← here).rest.length + 1)) then report .unterminatedComment start

def markerOf (name : String) : Marker :=
  match name with
  | "cc_on" => .on
  | "set" => .set
  | "if" => .ifBranch
  | "elif" => .elseIf
  | "else" => .elseBranch
  | "end" => .endIf
  | _ => .variable name

def scanMarker : Scan Token := do
  let cursor ← here
  if cursor.peek = '*' && cursor.peekAt? 1 == some '/' then
    moveTo (cursor.skip 2)
    modify fun s => { s with inConditionalComment := false }
    return .marker .stop
  else return .marker (markerOf (String.ofList (← takeWhile isIdContinue)))

/-- The replacement marker after a percent sign, and its length. -/
def replacementAt? (cs : List Char) : Option (Token × Nat) := do
  let name := cs.takeWhile isMarkerChar
  let first ← name.head?
  guard (Text.isAlphabetic first || first == '_' || first == '$')
  match cs.dropWhile isMarkerChar with
  | '%' :: _ => some (.replacement (String.ofList name) none, name.length + 1)
  | ':' :: rest =>
    let fallback := rest.takeWhile isMarkerChar
    match rest.dropWhile isMarkerChar with
    | '%' :: _ =>
      some (.replacement (String.ofList name) (some (String.ofList fallback)),
        name.length + fallback.length + 2)
    | _ => none
  | _ => none

def stripsDebug (s : Settings) : Bool :=
  s.stripDebugStatements && s.allows .stripDebugStatements

/-- Skips whole lines up to one that holds a directive of `stop` at the same nesting, and answers which. -/
def skipLinesFrom (stop : List String) : Nat → Nat → Scan (Option String)
  | 0, _ => pure none
  | steps + 1, depth => do
    let cursor ← here
    if cursor.atEnd then return none
    else
      let (line, cursor) := (cursor.takeWhile fun c => c == ' ' || c == '\t').2.takeLine
      moveTo cursor.passLineEnd
      match line with
      | '/' :: '/' :: '/' :: '#' :: body =>
        let directive := Text.upper ((Text.words body).headD "")
        if directive == "IFDEF" || directive == "IFNDEF" || directive == "DEBUG" then
          skipLinesFrom stop steps (depth + 1)
        else if (directive == "ENDIF" || directive == "ENDDEBUG") && depth > 0 then
          skipLinesFrom stop steps (depth - 1)
        else if depth = 0 && stop.contains directive then return some directive
        else skipLinesFrom stop steps depth
      | _ => skipLinesFrom stop steps depth

def skipLines (stop : List String) (start : Position) : Scan (Option String) := do
  moveTo (← here).passLineEnd
  let found ← skipLinesFrom stop ((← here).rest.length + 1) 0
  if found.isNone then report (.missingDirective (stop.getLastD "ENDIF")) start
  return found

def readWord32? (word : String) : Option UInt32 :=
  let digits := match word.toList with
    | '+' :: rest => rest
    | cs => cs
  if !digits.isEmpty && digits.all Char.isDigit && digitsValue digits < Nat.pow 2 32 then
    some (.ofNat (digitsValue digits))
  else none

/-- Makes what follows count as another file from a given place on. -/
def changeSource (words : List String) : Scan Unit := do
  match words with
  | line :: column :: path =>
    match readWord32? line, readWord32? column with
    | some line, some column =>
      if !path.isEmpty then
        let cursor := (← here).passLineEnd
        let position := { cursor.position with line := max line 1, column := max column 1 }
        modify fun s =>
          { s with
            cursor := { cursor with position }
            file := ⟨s.nextFile⟩
            nextFile := s.nextFile + 1
            newFiles := s.newFiles ++ [" ".intercalate path] }
    | _, _ => pure ()
  | _ => pure ()

def openSection (new : Section) : Scan Unit :=
  modify fun s => { s with sections := new :: s.sections }

def closeSection (kind : Section) : Scan Bool :=
  modifyGet fun s => match s.sections with
    | top :: rest => if top = kind then (true, { s with sections := rest }) else (false, s)
    | [] => (false, s)

/-- Carries out a directive line `///#NAME argument …`. -/
def processDirective : Scan Unit := do
  let start := (← here).position
  let (line, stop) := (← here).takeLine
  moveTo stop
  let body := (line.dropWhile (· == '/')).dropWhile (· == '#')
  let words := Text.words body
  let directive := Text.upper (words.headD "")
  let argument := words[1]?.getD ""
  let settings := (← get).settings
  let honoursDefines := settings.allows .preprocessorDefines
  if directive == "DEBUG" then
    if stripsDebug settings then
      let _ ← skipLines ["ENDDEBUG"] start
    else openSection .debug
  else if directive == "ENDDEBUG" then
    let _ ← closeSection .debug
  else if directive == "SOURCE" then changeSource (words.drop 1)
  else if !honoursDefines then pure ()
  else if directive == "IFDEF" || directive == "IFNDEF" then
    let defined := (← get).defines.contains (Text.upper argument)
    if defined == (directive == "IFDEF") then openSection .conditional
    else if (← skipLines ["ELSE", "ENDIF"] start) == some "ELSE" then openSection .conditional
  else if directive == "ELSE" then
    if ← closeSection .conditional then
      let _ ← skipLines ["ENDIF"] start
    else report .elseWithoutIf start
  else if directive == "ENDIF" then
    if !(← closeSection .conditional) then report .endWithoutIf start
  else if directive == "DEFINE" then
    if isValidIdentifier argument then
      let name := Text.upper argument
      modify fun s => { s with defines := name :: s.defines.filter (· != name) }
  else if directive == "UNDEF" then
    modify fun s => { s with defines := s.defines.filter (· != Text.upper argument) }

def isSpace (c : Char) : Bool :=
  let n := c.toNat
  c == ' ' || c == '\t' || n == 0xB || n == 0xC || n == 0xA0 || n == 0xFEFF || n == 0x1680
    || (0x2000 ≤ n && n ≤ 0x200A) || n == 0x202F || n == 0x205F || n == 0x3000

def keepsComment (s : Settings) (third : Option Char) : Bool :=
  (third == some '@' && !s.ignoreConditionalCompilation)
    || (third == some '!' && s.preserveImportantComments && s.allows .preserveImportantComments)

/-- Skips white space and comments, up to a comment that is to become a token. -/
def skipTrivia : Nat → Scan Unit
  | 0 => pure ()
  | steps + 1 => do
    let cursor ← here
    let c := cursor.peek
    if cursor.atEnd then return
    else if isSpace c then
      moveTo cursor.advance
      skipTrivia steps
    else if isLineTerminator c then
      moveTo cursor.advanceCounting
      skipTrivia steps
    else if c = '/' && cursor.peekAt? 1 == some '/' then
      if cursor.peekAt? 2 == some '/' && cursor.peekAt? 3 == some '#' then processDirective
      else moveTo cursor.takeLine.2
      skipTrivia steps
    else if c = '/' && cursor.peekAt? 1 == some '*' then
      if keepsComment (← get).settings (cursor.peekAt? 2) then return
      else
        skipBlockComment
        skipTrivia steps
    else return

/-- Operators that are read by their longest spelling. -/
def operators : List Punctuator :=
  [.gtGtGtEq, .starStarEq, .eqEqEq, .notEqEq, .ltLtEq, .gtGtEq, .gtGtGt, .andAndEq, .orOrEq, .nullishEq,
    .spread, .arrow, .starStar, .eqEq, .notEq, .ltEq, .gtEq, .andAnd, .orOr, .nullish, .ltLt, .gtGt,
    .plusEq, .minusEq, .starEq, .andEq, .orEq, .xorEq, .plusPlus, .minusMinus, .optionalChain,
    .lParen, .rParen, .lBracket, .rBracket, .semicolon, .comma, .dot, .colon, .question, .assign, .plus,
    .minus, .star, .lt, .gt, .not, .and, .or, .xor, .tilde]

/-- The operator at the front of a text. A question mark before a fraction is no optional chain. -/
def operatorAt? (cs : List Char) : Option Punctuator :=
  let found := operators.find? fun p => p.spelling.toList.isPrefixOf cs
  if found = some .optionalChain && cs[2]?.any Char.isDigit then some .question else found

/-- What follows the first character of a division or a remainder. -/
def scanRatio (mark assigning : Punctuator) : Scan Token := do
  if ← eat '=' then return .punctuator assigning else return .punctuator mark

def scanSlash (start : Cursor) : Scan Token := do
  let s ← get
  if s.cursor.peek = '*' then
    moveTo s.cursor.advance
    if s.cursor.advance.peek = '@' then
      modify fun s => { s with inConditionalComment := true }
      return .marker .start
    else scanImportantComment start
  else if s.regExpAllowed then scanRegExp start.position
  else scanRatio .slash .slashEq

def scanPercent : Scan Token := do
  let s ← get
  match if s.regExpAllowed then replacementAt? s.cursor.rest else none with
  | some (token, length) =>
    moveTo (s.cursor.skip length)
    return token
  | none => scanRatio .percent .percentEq

/-- Reads one token; answers none for a character that starts none. -/
def scanSignificant (start : Cursor) : Scan (Option Token) := do
  let c := start.peek
  let next := start.advance
  let s ← get
  if c = '\x7b' then
    set { s with cursor := next, braces := .block :: s.braces }
    return some (.punctuator .lBrace)
  else if c = '\x7d' then
    set { s with cursor := next, braces := s.braces.tail }
    if s.braces.head? = some .template then return some (← scanTemplate start.position false)
    else return some (.punctuator .rBrace)
  else if c = '/' then
    moveTo next
    return some (← scanSlash start)
  else if c = '%' then
    moveTo next
    return some (← scanPercent)
  else if c = '@' && s.inConditionalComment then
    moveTo next
    return some (← scanMarker)
  else if c = '\x60' then
    moveTo next
    return some (← scanTemplate start.position true)
  else if c = '"' || c = '\'' then
    moveTo next
    return some (← scanString c start.position)
  else if c.isDigit || (c = '.' && next.peek.isDigit) then
    moveTo next
    return some (← scanNumber c start)
  else if isIdStart c then
    moveTo next
    return some (← scanIdentifier c false)
  else if c = '\\' && next.peek = 'u' then
    moveTo next
    match ← scanUnicodeEscape start.position with
    | some first => return some (← scanIdentifier first true)
    | none => return none
  else if c = '#' then
    moveTo next
    let name ← takeWhile isIdContinue
    if name.isEmpty then
      report (.illegalCharacter c) start.position
      return none
    else return some (.privateIdentifier (String.ofList name))
  else match operatorAt? start.rest with
    | some p =>
      moveTo (start.skip p.spelling.length)
      return some (.punctuator p)
    | none =>
      moveTo next
      report (.illegalCharacter c) start.position
      return none

def finishToken (token : Token) (start : Cursor) (newlineBefore : Bool) : Scan Lexeme :=
  modifyGet fun s =>
    let lexeme : Lexeme :=
      { token, newlineBefore, raw := s.cursor.textFrom start,
        span := { file := s.file, start := start.position, stop := s.cursor.position } }
    let regExpAllowed := if token.isTrivia then s.regExpAllowed else token.allowsRegExpAfter
    (lexeme, { s with regExpAllowed })

/-- Ends the innermost section that the text leaves open. -/
def closeAtEnd : Scan Unit := do
  match (← get).sections with
  | [] => pure ()
  | top :: rest =>
    modify fun s => { s with sections := rest }
    let name := match top with
      | .conditional => "ENDIF"
      | .debug => "ENDDEBUG"
    report (.missingDirective name) (← here).position

def scanTokenFrom (lineBefore : UInt32) : Nat → Scan Lexeme
  | 0 => do finishToken .endOfInput (← here) false
  | steps + 1 => do
    skipTrivia ((← here).rest.length + 1)
    let start ← here
    let newlineBefore := start.passedLine || start.position.line > lineBefore
    if start.atEnd then
      closeAtEnd
      finishToken .endOfInput start newlineBefore
    else
      match ← scanSignificant start with
      | some token => finishToken token start newlineBefore
      | none => scanTokenFrom lineBefore steps

def scanToken : Scan Lexeme := do
  let cursor ← here
  moveTo { cursor with passedLine := false }
  scanTokenFrom cursor.position.line (cursor.rest.length + 1)

/-- A scanner at the start of a text, behind a first line that names an interpreter. -/
def new (source : String) (settings : Settings) : Scanner :=
  let cursor : Cursor := { rest := source.toList }
  let cursor := match cursor.rest with
    | '#' :: '!' :: _ => cursor.takeLine.2
    | _ => cursor
  { settings, source := source.toList, cursor, defines := settings.preprocessorDefines.keys }

def setFile (s : Scanner) (file : FileId) (nextFile : Nat) : Scanner :=
  { s with file, nextFile }

def next (s : Scanner) : Lexeme × Scanner :=
  match s.lookahead with
  | some lexeme => (lexeme, { s with lookahead := none })
  | none => scanToken.run s

def peek (s : Scanner) : Lexeme × Scanner :=
  match s.lookahead with
  | some lexeme => (lexeme, s)
  | none =>
    let (lexeme, s) := scanToken.run s
    (lexeme, { s with lookahead := some lexeme })

def takeDiagnostics (s : Scanner) : List Diagnostic × Scanner :=
  (s.diagnostics, { s with diagnostics := [] })

/-- What is kept of a scanner so that it can go back. -/
structure Checkpoint where
  cursor : Cursor
  file : FileId
  regExpAllowed : Bool
  braces : List Brace
  sections : List Section
  inConditionalComment : Bool
  diagnosticCount : Nat
  lookahead : Option Lexeme

def checkpoint (s : Scanner) : Checkpoint where
  cursor := s.cursor
  file := s.file
  regExpAllowed := s.regExpAllowed
  braces := s.braces
  sections := s.sections
  inConditionalComment := s.inConditionalComment
  diagnosticCount := s.diagnostics.length
  lookahead := s.lookahead

def restore (s : Scanner) (c : Checkpoint) : Scanner :=
  { s with
    cursor := { c.cursor with passedLine := s.cursor.passedLine }
    file := c.file
    regExpAllowed := c.regExpAllowed
    braces := c.braces
    sections := c.sections
    inConditionalComment := c.inConditionalComment
    diagnostics := s.diagnostics.take c.diagnosticCount
    lookahead := c.lookahead }

/-- Reads a slash that was taken for a division again, as the start of a regular expression. -/
def rescanAsRegExp (s : Scanner) (slash : Lexeme) : Lexeme × Scanner :=
  let start : Cursor :=
    { rest := s.source.drop slash.span.start.offset, position := slash.span.start,
      passedLine := s.cursor.passedLine }
  let s := { s with lookahead := none, cursor := start.advance, file := slash.span.file }
  (do finishToken (← scanRegExp start.position) start slash.newlineBefore : Scan Lexeme).run s

def tokensUpTo : Nat → Scanner → List Lexeme × Scanner
  | 0, s => ([], s)
  | steps + 1, s =>
    let (lexeme, s) := s.next
    if lexeme.token.isEnd then ([lexeme], s)
    else
      let (rest, s) := tokensUpTo steps s
      (lexeme :: rest, s)

def tokens (s : Scanner) : List Lexeme × Scanner :=
  tokensUpTo (s.source.length + 2) s

end Scanner

end Condense
