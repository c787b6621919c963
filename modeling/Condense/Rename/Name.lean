import Condense.Token.Name

/-!
The names that are generated, shortest first.
-/

namespace Condense

def firstNameChars : List Char :=
  "ntirufeoshclavypwbkdgmjzxqNTIRUFEOSHCLAVYPWBKDGMJZXQ_$".toList

def nextNameChars : List Char :=
  firstNameChars ++ "0123456789".toList

/-- The places behind the first: `0` stands for none, and from there on the least significant place comes
first. -/
def nameTail (n : Nat) : List Char :=
  if h : n = 0 then []
  else
    nextNameChars.getD ((n - 1) % nextNameChars.length) 'n'
      :: nameTail ((n - 1) / nextNameChars.length)
termination_by n
decreasing_by
  have : (n - 1) / nextNameChars.length ≤ n - 1 := Nat.div_le_self _ _
  omega

def generatedName (index : Nat) : String :=
  String.ofList
    (firstNameChars.getD (index % firstNameChars.length) 'n' :: nameTail (index / firstNameChars.length))

def freeNameFrom (isTaken : String → Bool) : Nat → Nat → String
  | 0, index => generatedName index
  | tries + 1, index =>
    let name := generatedName index
    if isTaken name || isReservedWord name then freeNameFrom isTaken tries (index + 1) else name

/-- The first generated name that is not taken. Generated names differ from each other, so no more can be
refused than there are names to avoid. -/
def freeName (taken : List String) : String :=
  freeNameFrom taken.contains (taken.length + Keyword.all.length + futureReservedWords.length) 0

end Condense
