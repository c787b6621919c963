import Condense.Source.Span
import Condense.Text.Case

/-!
References to names that nothing declares.
-/

namespace Condense

inductive ReferenceType where
  | variable | function | constructor
  deriving DecidableEq

def ReferenceType.name : ReferenceType → String
  | .variable => "Variable"
  | .function => "Function"
  | .constructor => "Constructor"

structure UndefinedReference where
  name : String
  span : Span
  type : ReferenceType
  deriving DecidableEq

namespace UndefinedReference

/-- By name regardless of case, then by line and column. -/
def compare (a b : UndefinedReference) : Ordering :=
  (Ord.compare (Text.lower a.name) (Text.lower b.name)).then
    ((Ord.compare a.span.start.line b.span.start.line).then
      (Ord.compare a.span.start.column b.span.start.column))

/-- References in report order; equal ones keep their order. -/
def sorted (refs : List UndefinedReference) : List UndefinedReference :=
  refs.mergeSort fun a b => a.compare b != .gt

end UndefinedReference

end Condense
