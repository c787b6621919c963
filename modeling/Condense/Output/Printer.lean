import Condense.Output.Piece
import Condense.Scope.Basic
import Condense.Settings.Basic

/-!
What the printing of nodes is built from: the surroundings that decide on layout, and statement lists.
-/

namespace Condense

structure Style where
  settings : Settings
  tree : Tree
  scopes : ScopeTree
  indent : Nat := 0
  /-- Set in the head of a `for` loop, where a bare `in` would end the head. -/
  noIn : Bool := false

namespace Style

def isPretty (c : Style) : Bool :=
  c.settings.outputMode == .multipleLines

def space (c : Style) : List Piece :=
  if c.isPretty then [.glued " "] else []

def newLine (c : Style) : List Piece :=
  if c.isPretty then [.line (c.indent * c.settings.indentSize)] else []

def nested (c : Style) : Style :=
  { c with noIn := false }

def inHead (c : Style) : Style :=
  { c with noIn := true }

def indented (c : Style) : Style :=
  { c with indent := c.indent + 1 }

/-- The statements that produce output. -/
def visible (c : Style) (statements : List NodeId) : List NodeId :=
  statements.filter fun id => match c.tree.form id with
    | .empty => false
    | _ => true

def operator (c : Style) (text : String) : List Piece :=
  c.space ++ [.token text] ++ c.space

/-- Parts with commas between them and a gap behind each comma. -/
def separated (gap : List Piece) : List (List Piece) → List Piece
  | [] => []
  | [part] => part
  | part :: rest => part ++ [.token ","] ++ gap ++ separated gap rest

def outputName (c : Style) (name : String) (field : Option FieldId) : String :=
  match field with
  | some field => c.scopes.outputName field
  | none => name

/-- The name of an identifier node in the source and in the output. -/
def bindingNames (c : Style) (id : NodeId) : String × String :=
  match c.tree.form id with
  | .lookup name field _ | .bindingIdentifier name field => (name, c.outputName name field)
  | .propertyName name => (name, name)
  | _ => ("", "")

end Style

def parenthesize (pieces : List Piece) : List Piece :=
  [.token "("] ++ pieces ++ [.token ")"]

abbrev Printed := List Piece × Bool

/-- How nodes are printed. An expression is put in parentheses if it binds less tightly than the given
level. -/
structure Printer where
  expression : Style → NodeId → Level → List Piece
  statement : Style → NodeId → Printed

namespace Printer

variable (p : Printer) (c : Style)

/-- Prints statements one after the other. `isOpen` says that a semicolon is due before the first, `onNewLine`
that the first stands on a line of its own. -/
def statements (isOpen onNewLine : Bool) : List NodeId → Printed
  | [] => ([], isOpen)
  | id :: rest =>
    let (pieces, stays) := p.statement c id
    let (others, last) := statements (stays && !c.isPretty) true rest
    let before := if isOpen then [.token ";"] else []
    let start := if onNewLine then c.newLine else []
    let after := if stays && c.isPretty then [.token ";"] else []
    (before ++ start ++ pieces ++ after ++ others, last)

def block (list : List NodeId) : List Piece :=
  let items := c.visible list
  let last := if items.isEmpty then [] else c.newLine
  [.token "\x7b"] ++ (p.statements c.indented.nested false true items).1 ++ last ++ [.token "\x7d"]

def inParentheses (id : NodeId) : List Piece :=
  parenthesize (p.expression c.nested id .comma)

end Printer

end Condense
