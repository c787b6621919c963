import Condense.Source.Span

/-!
A place in the text being scanned: what is left of it, and where that begins.
-/

namespace Condense

def isLineTerminator (c : Char) : Bool :=
  c == '\n' || c == '\r' || c.toNat == 0x2028 || c.toNat == 0x2029

structure Cursor where
  rest : List Char
  position : Position := {}
  /-- Whether a line end was passed since the flag was last cleared. -/
  passedLine : Bool := false
  deriving Inhabited

namespace Cursor

def atEnd (c : Cursor) : Bool :=
  c.rest.isEmpty

/-- The next character, or NUL at the end. -/
def peek (c : Cursor) : Char :=
  c.rest.headD '\x00'

def peekAt? (c : Cursor) (distance : Nat) : Option Char :=
  c.rest[distance]?

/-- Moves over `n` characters of one line. -/
def skip (c : Cursor) (n : Nat) : Cursor :=
  { c with
    rest := c.rest.drop n
    position :=
      { c.position with column := c.position.column + .ofNat n, offset := c.position.offset + n } }

def advance (c : Cursor) : Cursor :=
  c.skip 1

def newLine (c : Cursor) : Cursor :=
  { c with
    position := { c.position with line := c.position.line + 1, column := 1 }
    passedLine := true }

def eat? (c : Cursor) (expected : Char) : Option Cursor :=
  match c.rest with
  | x :: _ => if x = expected then some c.advance else none
  | [] => none

def drop (c : Cursor) (expected : Char) : Cursor :=
  (c.eat? expected).getD c

/-- Moves over one character; a line end counts, and a carriage return takes the line feed after it
along. -/
def advanceCounting (c : Cursor) : Cursor :=
  if c.peek = '\r' then (c.advance.drop '\n').newLine
  else if isLineTerminator c.peek then c.advance.newLine
  else c.advance

def passLineEnd (c : Cursor) : Cursor :=
  if isLineTerminator c.peek then c.advanceCounting else c

def takeWhile (c : Cursor) (p : Char → Bool) : List Char × Cursor :=
  let taken := c.rest.takeWhile p
  (taken, c.skip taken.length)

def takeLine (c : Cursor) : List Char × Cursor :=
  c.takeWhile (!isLineTerminator ·)

def textFrom (c start : Cursor) : String :=
  String.ofList (start.rest.take (c.position.offset - start.position.offset))

end Cursor

end Condense
