import Condense.Json.Basic

/-!
String literals in source code.
-/

namespace Condense.Quoted

/-- The delimiter that needs fewer escapes, the double quote where there is no difference. -/
def delimiter (text : List Char) : Char :=
  if text.count '"' ≤ text.count '\'' then '"' else '\''

def isDigitFirst : List Char → Bool
  | c :: _ => c.isDigit
  | [] => false

/-- One character between `before` and `rest`. A slash behind `<` is escaped where the text has to be safe
inside a script element. -/
def escape (quote : Char) (inlineSafe : Bool) (before : Option Char) (c : Char) (rest : List Char) :
    List Char :=
  if c = '\\' then ['\\', '\\']
  else if c = '\n' then ['\\', 'n']
  else if c = '\r' then ['\\', 'r']
  else if c = '\t' then ['\\', 't']
  else if c = '\x08' then ['\\', 'b']
  else if c = '\x0c' then ['\\', 'f']
  else if c = '\x00' then if isDigitFirst rest then ['\\', 'x', '0', '0'] else ['\\', '0']
  else if c = '\u2028' then "\\u2028".toList
  else if c = '\u2029' then "\\u2029".toList
  else if c = '\ufeff' then "\\ufeff".toList
  else if c = '/' && inlineSafe && before == some '<' then ['\\', '/']
  else if c = quote then ['\\', c]
  else if c.toNat < 0x20 || c = '\x7f' then
    ['\\', 'x', Json.hexDigit (c.toNat / 16), Json.hexDigit (c.toNat % 16)]
  else [c]

def escapeAll (quote : Char) (inlineSafe : Bool) : Option Char → List Char → List Char
  | _, [] => []
  | before, c :: rest =>
    escape quote inlineSafe before c rest ++ escapeAll quote inlineSafe (some c) rest

def literal (text : String) (inlineSafe : Bool) : String :=
  let chars := text.toList
  let quote := delimiter chars
  String.ofList (quote :: (escapeAll quote inlineSafe none chars ++ [quote]))

end Condense.Quoted
