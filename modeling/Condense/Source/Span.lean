/-!
Places in source text. Lines and columns count from one so that they can be shown as they are, in words of 32 bits
that wrap around; offsets count characters from zero.
-/

namespace Condense

structure FileId where
  index : Nat := 0
  deriving DecidableEq, Inhabited

structure Position where
  line : UInt32 := 1
  column : UInt32 := 1
  offset : Nat := 0
  deriving DecidableEq, Inhabited

namespace Position

/-- Positions are ordered by line, then column, then offset. -/
def compare (a b : Position) : Ordering :=
  (Ord.compare a.line b.line).then ((Ord.compare a.column b.column).then (Ord.compare a.offset b.offset))

def precedes (a b : Position) : Bool :=
  a.compare b == .lt

def earlier (a b : Position) : Position :=
  if b.precedes a then b else a

def later (a b : Position) : Position :=
  if b.precedes a then a else b

end Position

/-- A stretch of source text; `stop` is the position just past its last character. -/
structure Span where
  file : FileId := {}
  start : Position := {}
  stop : Position := {}
  deriving DecidableEq, Inhabited

namespace Span

/-- The smallest span covering both, or the first where the files differ. -/
def merge (a b : Span) : Span :=
  if a.file = b.file then
    { file := a.file, start := a.start.earlier b.start, stop := a.stop.later b.stop }
  else a

def atStart (s : Span) : Span :=
  { s with stop := s.start }

def atStop (s : Span) : Span :=
  { s with start := s.stop }

def length (s : Span) : Nat :=
  s.stop.offset - s.start.offset

def isEmpty (s : Span) : Bool :=
  s.length == 0

end Span

end Condense
