import Condense.Minify.Basic
import Condense.Settings.Basic

/-!
Removal of statements that only serve debugging: `debugger`, and expressions that start at one of the names the
settings list.
-/

namespace Condense

namespace Tree

def debugRootUpTo (t : Tree) : Nat → NodeId → NodeId
  | 0, id => id
  | steps + 1, id =>
    match t.form id with
    | .call callee _ _ _ => t.debugRootUpTo steps callee
    | .binary op left _ => if op.isAssignment then t.debugRootUpTo steps left else id
    | _ => id

def debugRoot (t : Tree) (id : NodeId) : NodeId :=
  t.debugRootUpTo (t.size + 1) (t.unwrapGrouping id)

/-- Whether a dotted name is `lookup` or a member of it. -/
def isMemberOf (lookup chain : String) : Bool :=
  chain == lookup || (lookup.toList ++ ['.']).isPrefixOf chain.toList

/-- Whether an expression starts at one of the names that serve debugging. -/
def isDebugReference (t : Tree) (settings : Settings) (id : NodeId) : Bool :=
  match t.memberChain? (t.debugRoot id) with
  | some chain => settings.debugLookups.any fun lookup => isMemberOf lookup chain
  | none => false

def isDebugStatement (t : Tree) (settings : Settings) (id : NodeId) : Bool :=
  match t.form id with
  | .debugger => true
  | form => form.isExpression && t.isDebugReference settings id

/-- Whether `parent` holds `child` as the body of a branch, a loop or a label. -/
def isBodySlot (t : Tree) (parent child : NodeId) : Bool :=
  match t.form parent with
  | .ifStatement _ consequent alternate => consequent == child || alternate == some child
  | .whileLoop _ body | .doWhileLoop body _ | .forLoop _ _ _ body _ | .forInLoop _ _ body _ _ _
  | .withStatement _ body _ | .labeled _ body => body == child
  | _ => false

end Tree

namespace Debug

def removeFrom (settings : Settings) (t : Tree) (list : NodeId) : Changed :=
  Changed.each (t.statements list) (fun t id =>
    if t.isDebugStatement settings id then
      { tree := (t.removeStatement? id).getD t, changes := 1 }
    else { tree := t }) t

/-- Puts an empty statement in place of a body that only serves debugging. -/
def blankBody (settings : Settings) (t : Tree) (id : NodeId) : Changed :=
  match t.parent? id with
  | some parent =>
    if !(t.statements parent).contains id && t.isBodySlot parent id && t.isDebugStatement settings id then
      let (empty, t) := t.alloc .empty (t.span id)
      { tree := t.replaceIfHeld id empty, changes := 1 }
    else { tree := t }
  | none => { tree := t }

def run (settings : Settings) (root : NodeId) (t : Tree) : Changed :=
  let inLists := Changed.each (t.editableLists root) (fun t list =>
    if t.isLive root list then removeFrom settings t list else { tree := t }) t
  inLists.andThen fun t => Changed.each (t.descendants root) (blankBody settings) t

end Debug

end Condense
