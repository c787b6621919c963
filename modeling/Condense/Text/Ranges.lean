/-!
Sets of characters given by the lengths of their ranges.
-/

namespace Condense.Text

/-- By turns, how many code points are left out and how many of those behind them are in the set. -/
abbrev Ranges := List Nat

namespace Ranges

/-- The place of a code point in its range. -/
def place? : Ranges → Nat → Option Nat
  | gap :: length :: rest, code =>
    if code < gap then none
    else if code < gap + length then some (code - gap)
    else place? rest (code - (gap + length))
  | _, _ => none

def contains (ranges : Ranges) (c : Char) : Bool :=
  (ranges.place? c.toNat).isSome

end Ranges

end Condense.Text
