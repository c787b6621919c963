import Condense.Text.Numeric
import Condense.Token.Basic

/-!
Which texts are names, and which of them the language keeps for itself.
-/

namespace Condense

def isIdStart (c : Char) : Bool :=
  c == '_' || c == '$' || Text.isAlphabetic c

/-- Letters, digits and the two joiners may continue a name. -/
def isIdContinue (c : Char) : Bool :=
  isIdStart c || Text.isAlphanumeric c || c.toNat == 0x200C || c.toNat == 0x200D

def futureReservedWords : List String :=
  ["enum", "implements", "interface", "package", "private", "protected", "public"]

def isReservedWord (name : String) : Bool :=
  match Keyword.ofString? name with
  | some keyword => keyword != .async && keyword != .static
  | none => futureReservedWords.contains name

def isValidIdentifier (name : String) : Bool :=
  match name.toList with
  | [] => false
  | first :: rest => isIdStart first && rest.all isIdContinue && !isReservedWord name

end Condense
