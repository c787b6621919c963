import Condense.Minify.Basic
import Condense.Rename.Name
import Condense.Settings.Basic

/-!
New names for labels and for properties.
-/

namespace Condense.Tree

/-- The labels around a statement, innermost first, with their new names. -/
abbrev Labels := List (String × String)

def renameJump (labels : Labels) (t : Tree) (id : NodeId) (label : String)
    (build : Option String → Form NodeId) : Changed :=
  match labels.lookup label with
  | some short =>
    if short != label then { tree := t.modifyForm id fun _ => build (some short), changes := 1 }
    else { tree := t }
  | none => { tree := t }

/-- Renames the labels below a node, down to the given depth. -/
def renameLabelsUpTo : Nat → Labels → Tree → NodeId → Changed
  | 0, _, t, _ => { tree := t }
  | depth + 1, labels, t, id =>
    match t.form id with
    | .labeled label body =>
      let short := generatedName labels.length
      let c : Changed :=
        if short != label then { tree := t.setForm id (.labeled short body), changes := 1 }
        else { tree := t }
      c.andThen fun t => renameLabelsUpTo depth ((label, short) :: labels) t body
    | .breakStatement (some label) => renameJump labels t id label .breakStatement
    | .continueStatement (some label) => renameJump labels t id label .continueStatement
    | .function .. => Changed.each (t.children id) (renameLabelsUpTo depth []) t
    | form => Changed.each form.children (renameLabelsUpTo depth labels) t

def renameLabels (t : Tree) (root : NodeId) : Changed :=
  renameLabelsUpTo (t.size + 1) [] t root

def isKey (t : Tree) (id : NodeId) : Bool :=
  match (t.parent? id).map t.form with
  | some (.property key ..) | some (.classMember key ..) => key == id
  | _ => false

def renameProperty (settings : Settings) (t : Tree) (id : NodeId) : Changed :=
  let renamed : Option (Form NodeId) := match t.form id with
    | .member object name isOptional =>
      (settings.renameTarget? name).map fun target => .member object target isOptional
    | .propertyName name => if t.isKey id then (settings.renameTarget? name).map .propertyName else none
    | _ => none
  Changed.ofOption t (renamed.map fun form => t.modifyForm id fun _ => form)

def renameProperties (settings : Settings) (t : Tree) (root : NodeId) : Changed :=
  Changed.each (t.descendants root) (renameProperty settings) t

end Condense.Tree
