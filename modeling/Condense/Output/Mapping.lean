import Condense.Json.Basic

/-!
Records of where in the source a place of the generated code comes from. Lines and columns are counted in words of 32
bits that wrap around.
-/

namespace Condense

structure Mapping where
  generatedLine : UInt32
  generatedColumn : UInt32
  source : Option String
  sourceLine : UInt32
  sourceColumn : UInt32
  /-- The identifier as the source has it. -/
  name : Option String
  deriving DecidableEq

namespace Mapping

def samePlace (a b : Mapping) : Bool :=
  a.generatedLine == b.generatedLine && a.generatedColumn == b.generatedColumn

/-- Records a mapping behind others. Of two in a row for one place the first stays. -/
def record (mappings : Array Mapping) (m : Mapping) : Array Mapping :=
  match mappings.back? with
  | some last => if last.samePlace m then mappings else mappings.push m
  | none => mappings.push m

def toJson (m : Mapping) : Json :=
  .object
    [("generated_line", .ofNat m.generatedLine.toNat),
     ("generated_column", .ofNat m.generatedColumn.toNat),
     ("source", .ofOption .string m.source),
     ("source_line", .ofNat m.sourceLine.toNat),
     ("source_column", .ofNat m.sourceColumn.toNat),
     ("name", .ofOption .string m.name)]

def listText (mappings : List Mapping) : String :=
  (Json.array (mappings.map toJson)).text

end Mapping

end Condense
