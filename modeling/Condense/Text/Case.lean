import Condense.Text.CaseTable

/-!
Upper and lower case of whole texts.
-/

namespace Condense.Text

/-- An offset that moves the character it starts from. -/
def offset? (start : Int → Nat) : Option Int :=
  if (lowerNext.place? (start 1)).any (· % 2 == 0) then some 1
  else (lowerShifts.find? fun shift => (shift.2.place? (start shift.1)).isSome).map (·.1)

def lowerChar (c : Char) : List Char :=
  if c.toNat < 0x80 then [c.toLower]
  else if c.toNat = 0x130 then ['i', Char.ofNat 0x307]
  else [Char.ofNat (c.toNat + (offset? fun _ => c.toNat).getD 0).toNat]

def upperChar (c : Char) : List Char :=
  if c.toNat < 0x80 then [c.toUpper]
  else match upperExceptions.lookup c.toNat with
    | some codes => codes.map Char.ofNat
    | none => [Char.ofNat (c.toNat - (offset? fun offset => (c.toNat - offset).toNat).getD 0).toNat]

/-- Whether the nearest character that is not case-ignorable is cased. -/
def meetsCased (cs : List Char) : Bool :=
  match cs.dropWhile caseIgnorableRanges.contains with
  | [] => false
  | c :: _ => casedRanges.contains c

/-- Lower case of `rest`, where `before` holds the preceding characters, nearest first. -/
def lowerFrom (before : List Char) : List Char → List Char
  | [] => []
  | c :: rest =>
    let small :=
      if c.toNat = 0x3A3 then
        if meetsCased before && !meetsCased rest then [Char.ofNat 0x3C2] else [Char.ofNat 0x3C3]
      else lowerChar c
    small ++ lowerFrom (c :: before) rest

def lower (s : String) : String :=
  String.ofList (lowerFrom [] s.toList)

def upper (s : String) : String :=
  String.ofList (s.toList.flatMap upperChar)

end Condense.Text
