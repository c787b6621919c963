import Condense.Json.Reader
import Condense.Settings.Basic
import Condense.Text.Blank
import Condense.Text.Numeric
import Condense.Text.Word

/-!
Replacement markers `%name%` and `%name:fallback%`.
-/

namespace Condense

def isMarkerPunctuation (c : Char) : Bool :=
  c == '_' || c == '.' || c == '$' || c == '-'

def isMarkerChar (c : Char) : Bool :=
  Text.isAlphanumeric c || isMarkerPunctuation c

def isEmbeddedMarkerChar (c : Char) : Bool :=
  Text.isWord c || isMarkerPunctuation c

namespace Settings

/-- The text that a marker stands for: its replacement, else the value of its fallback, else nothing. -/
def resolveMarker? (s : Settings) (name : String) (fallback : Option String) : Option String :=
  if s.hasReplacements then
    some ((s.replacementToken? name).getD ((fallback.bind s.replacementFallback?).getD ""))
  else none

def readMarker? (cs : List Char) : Option (String × Option String × List Char) :=
  let name := cs.takeWhile isEmbeddedMarkerChar
  if name.isEmpty then none
  else match cs.dropWhile isEmbeddedMarkerChar with
    | '%' :: rest => some (String.ofList name, none, rest)
    | ':' :: rest =>
      match rest.dropWhile isEmbeddedMarkerChar with
      | '%' :: after =>
        some (String.ofList name, some (String.ofList (rest.takeWhile isEmbeddedMarkerChar)), after)
      | _ => none
    | _ => none

/-- Replaces the markers of a text from the left; the first argument bounds the steps. -/
def substituteUpTo (s : Settings) : Nat → List Char → List Char
  | 0, cs => cs
  | _ + 1, [] => []
  | steps + 1, c :: rest =>
    if c = '%' then
      match readMarker? rest with
      | some (name, fallback, after) =>
        ((s.resolveMarker? name fallback).getD "").toList ++ s.substituteUpTo steps after
      | none => c :: s.substituteUpTo steps rest
    else c :: s.substituteUpTo steps rest

def substitute (s : Settings) (text : String) : String :=
  if s.hasReplacements then String.ofList (s.substituteUpTo text.length text.toList) else text

end Settings

/-- What a replacement text stands for in place of an expression. -/
inductive ReplacementValue where
  | empty
  | number (x : Float)
  | string (s : String)
  | boolean (b : Bool)
  | null
  | json (value : Json)

/-- A text that is JSON stands for its value, any other for itself. -/
def ReplacementValue.classify (text : String) : ReplacementValue :=
  let trimmed := Text.trim text
  if trimmed.isEmpty then .empty
  else match Json.parse? trimmed with
    | some (.number n) => match n.toFloat? with
      | some x => .number x
      | none => .string text
    | some (.string s) => .string s
    | some (.boolean b) => .boolean b
    | some .null => .null
    | some value => .json value
    | none => .string text

end Condense
