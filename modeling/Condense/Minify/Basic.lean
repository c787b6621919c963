import Condense.Syntax.Tree

/-!
What the passes over a tree share.
-/

namespace Condense

structure Changed where
  tree : Tree
  changes : Nat := 0

namespace Changed

def andThen (c : Changed) (pass : Tree → Changed) : Changed :=
  let next := pass c.tree
  { tree := next.tree, changes := c.changes + next.changes }

def each (ids : List NodeId) (step : Tree → NodeId → Changed) (t : Tree) : Changed :=
  ids.foldl (fun c id => c.andThen fun t => step t id) { tree := t }

def ofOption (t : Tree) : Option Tree → Changed
  | some new => { tree := new, changes := 1 }
  | none => { tree := t }

end Changed

namespace Tree

/-- Whether a node still hangs below `root`. -/
def isLive (t : Tree) (root id : NodeId) : Bool :=
  id == root || (t.ancestors id).contains root

def isInConditionalComment (t : Tree) (id : NodeId) : Bool :=
  (t.ancestors id).any fun a => match t.form a with
    | .ccComment _ => true
    | _ => false

/-- The statement lists below `root` that passes may edit. Concise bodies and what stands in conditional
comments are left alone. -/
def editableLists (t : Tree) (root : NodeId) : List NodeId :=
  (t.descendants root).filter fun id =>
    (match t.form id with
      | .program .. | .switchCase .. => true
      | .block _ _ concise => !concise
      | _ => false) && !t.isInConditionalComment id

def constant? (t : Tree) (id : NodeId) : Option Literal :=
  match t.form (t.unwrapGrouping id) with
  | .constant literal => some literal
  | _ => none

def truthUpTo (t : Tree) : Nat → NodeId → Option Bool
  | 0, _ => none
  | steps + 1, id =>
    match t.form (t.unwrapGrouping id) with
    | .constant (.boolean b) => some b
    | .constant (.number x) => some (x != 0.0 && !x.isNaN)
    | .constant (.string s) => some (!s.isEmpty)
    | .constant .null => some false
    | .unary .not operand => (t.truthUpTo steps operand).map (!·)
    | _ => none

def truth? (t : Tree) (id : NodeId) : Option Bool :=
  t.truthUpTo (t.size + 1) id

def hoistsUpTo (t : Tree) : Nat → NodeId → Bool
  | 0, _ => false
  | depth + 1, id =>
    let form := t.form id
    form.isHoistedDeclaration || match form with
      | .function .. | .classDefinition .. => false
      | _ => form.children.any (t.hoistsUpTo depth)

/-- Whether a statement declares names that are visible outside of it. Nested functions keep theirs. -/
def hoists (t : Tree) (id : NodeId) : Bool :=
  t.hoistsUpTo (t.size + 1) id

/-- The statement itself, or the only one of a block that needs no scope. -/
def singleStatement? (t : Tree) (id : NodeId) : Option NodeId :=
  match t.form id with
  | .block [only] none false => some only
  | .block .. => none
  | _ => some id

/-- Replaces a node, or leaves the tree as it is where the node is held by none. -/
def replaceIfHeld (t : Tree) (old new : NodeId) : Tree :=
  (t.replace? old new).getD t

/-- Puts a new node that is built around `old` into the slot of `old`. -/
def wrap (t : Tree) (old : NodeId) (build : NodeId → Form NodeId) : Tree :=
  let span := t.span old
  let (placeholder, t) := t.alloc .empty span
  let t := t.replaceIfHeld old placeholder
  let (new, t) := t.alloc (build old) span
  t.replaceIfHeld placeholder new

end Tree

namespace Form

/-- Whether control never passes from the statement to the next one. -/
def isJump {α : Type} : Form α → Bool
  | returnStatement _ | throwStatement _ | breakStatement _ | continueStatement _ => true
  | _ => false

def isDeclaration {α : Type} : Form α → Bool
  | var .. | importDeclaration .. | exportDeclaration .. => true
  | function kind .. => kind == .declaration
  | classDefinition _ _ _ isExpression _ => !isExpression
  | _ => false

end Form

end Condense
