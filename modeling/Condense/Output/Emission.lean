import Condense.Diagnostic.Problem
import Condense.Output.Statement

/-!
The text of a tree: code on one line or on many, or a single JSON value.
-/

namespace Condense

namespace Printer

def upTo : Nat → Printer
  | 0 => { expression := fun _ _ _ => [], statement := fun _ _ => ([], false) }
  | depth + 1 =>
    let below := upTo depth
    { expression := below.expressionAt, statement := below.statementAt }

/-- No path in a tree is longer than its store. -/
def ofTree (t : Tree) : Printer :=
  upTo (t.size + 1)

/-- The chunks one after the other; the semicolon between two is due to the first. -/
def chunks (p : Printer) (c : Style) : Bool → List (List NodeId) → Printed
  | isOpen, [] => ([], isOpen)
  | isOpen, items :: rest =>
    if items.isEmpty then chunks p c isOpen rest
    else
      let (pieces, stays) := p.statements c false false items
      after ((if isOpen then [.token ";"] else []) ++ c.newLine ++ pieces) (chunks p c stays rest)

end Printer

namespace Tree

def jsonKey? (t : Tree) (key : NodeId) : Option String :=
  match t.form key with
  | .propertyName name | .constant (.string name) => some name
  | .constant (.number x) => if x.isFinite then some (numberText x) else none
  | _ => none

def isJsonValueUpTo (t : Tree) : Nat → NodeId → Bool
  | 0, _ => false
  | depth + 1, id =>
    match t.form (t.unwrapGrouping id) with
    | .constant (.number x) => x.isFinite
    | .constant (.string _) | .constant (.boolean _) | .constant .null => true
    | .unary .minus operand =>
      match t.form operand with
      | .constant (.number x) => x.isFinite
      | _ => false
    | .arrayLiteral elements => elements.all fun element => element.any (t.isJsonValueUpTo depth)
    | .objectLiteral properties _ => properties.all fun property =>
      match t.form property with
      | .property key value .init false => (t.jsonKey? key).isSome && t.isJsonValueUpTo depth value
      | _ => false
    | _ => false

def isJsonValue (t : Tree) (id : NodeId) : Bool :=
  t.isJsonValueUpTo (t.size + 1) id

/-- The text of one property, with a comma before all but the first. -/
def jsonMember (t : Tree) (write : NodeId → String) (index : Nat) (property : NodeId) : String :=
  match t.form property with
  | .property key value _ _ =>
    (if index > 0 then "," else "") ++ (Json.quote ((t.jsonKey? key).getD "") ++ ":" ++ write value)
  | _ => ""

/-- The text of a node that is a JSON value. -/
def jsonValueUpTo (t : Tree) : Nat → NodeId → String
  | 0, _ => ""
  | depth + 1, id =>
    match t.form (t.unwrapGrouping id) with
    | .constant (.number x) => jsonNumberText x
    | .constant (.string s) => Json.quote s
    | .constant (.boolean b) => if b then "true" else "false"
    | .constant _ => "null"
    | .unary _ operand => "-" ++ t.jsonValueUpTo depth operand
    | .arrayLiteral elements =>
      "[" ++ ",".intercalate ((elements.filterMap fun element => element).map (t.jsonValueUpTo depth)) ++ "]"
    | .objectLiteral properties _ =>
      "\x7b" ++ String.join (properties.mapIdx (t.jsonMember (t.jsonValueUpTo depth))) ++ "\x7d"
    | _ => ""

/-- The operand of a sign takes one step more than the test of it. -/
def jsonValue (t : Tree) (id : NodeId) : String :=
  t.jsonValueUpTo (t.size + 2) id

end Tree

structure Emission where
  code : String
  /-- Empty unless the settings ask for mappings. -/
  mappings : List Mapping := []
  diagnostics : List Diagnostic := []

def emitJson (c : Style) (roots : List NodeId) : Emission :=
  let statements := roots.flatMap fun root => c.visible (c.tree.statements root)
  let refused : Emission :=
    let span := match statements with
      | first :: _ => c.tree.span first
      | [] => {}
    { code := "", diagnostics := [Problem.notOneJsonValue.diagnostic span] }
  match statements with
  | [only] => if c.tree.isJsonValue only then { code := c.tree.jsonValue only } else refused
  | _ => refused

def emitCode (c : Style) (roots : List NodeId) : Emission :=
  let items := roots.map fun root => c.visible (c.tree.statements root)
  let (pieces, isOpen) := (Printer.ofTree c.tree).chunks c false items
  let last := if isOpen && (c.settings.termSemicolons || c.isPretty) then [.token ";"] else []
  let options : WriterOptions :=
    { tree := c.tree
      recordsMappings := c.settings.generateSourceMap
      dropsRepeatedOn := c.settings.allows .removeUnnecessaryCcOn }
  let written := Written.addAll options {} (pieces ++ last)
  { code := written.code, mappings := written.mappings.toList }

def emit (tree : Tree) (scopes : ScopeTree) (settings : Settings) (roots : List NodeId) : Emission :=
  let style : Style := { settings, tree, scopes }
  if settings.outputMode == .json then emitJson style roots else emitCode style roots

end Condense
