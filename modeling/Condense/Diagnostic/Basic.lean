import Condense.Diagnostic.Code
import Condense.Source.Span

/-!
Diagnostics: what was found wrong, where, and which of them are shown.
-/

namespace Condense

structure Diagnostic where
  code : Code
  span : Span
  message : String
  severity : Nat := code.severity
  file : Option String := none
  deriving DecidableEq

namespace Diagnostic

def category (d : Diagnostic) : Category :=
  d.code.category

def isError (d : Diagnostic) : Bool :=
  d.severity == 0

def text (d : Diagnostic) : String :=
  let place := toString d.span.start.line ++ "," ++ toString d.span.start.column ++ "-"
    ++ toString d.span.stop.line ++ "," ++ toString d.span.stop.column
  let kind := if d.isError then "error" else "warning"
  d.file.getD "" ++ "(" ++ place ++ "): " ++ kind ++ " " ++ d.code.text ++ ": " ++ d.message

end Diagnostic

/-- Which warnings are shown. Errors are shown always. -/
structure DiagnosticFilter where
  warningLevel : Nat
  ignored : List Code := []

namespace DiagnosticFilter

def shows (filter : DiagnosticFilter) (d : Diagnostic) : Bool :=
  d.isError || (d.severity ≤ filter.warningLevel && !filter.ignored.contains d.code)

def apply (filter : DiagnosticFilter) (ds : List Diagnostic) : List Diagnostic :=
  ds.filter filter.shows

end DiagnosticFilter

end Condense
