import Condense.Minify.Basic
import Condense.Settings.Basic

/-!
Combination of statements: branches become operators where both sides are expressions, and neighbouring declarations
or expressions become one.
-/

namespace Condense.Combine

/-- Whether an expression may be moved into another. A string on its own may be a directive. -/
def isPlain : Form NodeId → Bool
  | .constant (.string _) => false
  | form => form.isExpression

def isEmptyStatement : Form NodeId → Bool
  | .empty => true
  | .block statements none false => statements.isEmpty
  | _ => false

def returnedValue? : Form NodeId → Option NodeId
  | .returnStatement value => value
  | _ => none

def isString : Form NodeId → Bool
  | .constant (.string _) => true
  | _ => false

def conjunction? (settings : Settings) (t : Tree) (span : Span) (condition branch : NodeId) :
    Option (NodeId × Tree) :=
  if settings.allows .ifCallToAndCall && isPlain (t.form branch) then
    some (t.alloc (.binary .and condition branch) span)
  else none

def choice? (settings : Settings) (t : Tree) (span : Span) (condition yes no : NodeId) :
    Option (NodeId × Tree) :=
  if isPlain (t.form yes) && isPlain (t.form no) then
    if settings.allows .ifExpressionsToExpression then
      some (t.alloc (.conditional condition yes no) span)
    else none
  else
    match returnedValue? (t.form yes), returnedValue? (t.form no) with
    | some yes, some no =>
      if settings.allows .ifElseReturnToConditional then
        let (choice, t) := t.alloc (.conditional condition yes no) span
        some (t.alloc (.returnStatement (some choice)) span)
      else none
    | _, _ => none

/-- What an `if` is replaced by, and the tree that holds it. -/
def replacement? (settings : Settings) (t : Tree) (id : NodeId) : Option (NodeId × Tree) :=
  match t.form id with
  | .ifStatement condition consequent alternate =>
    if alternate.isNone && isEmptyStatement (t.form consequent) && !isString (t.form condition) then
      if settings.allows .ifEmptyToExpression then some (condition, t) else none
    else do
      let yes ← t.singleStatement? consequent
      match alternate with
      | none => conjunction? settings t (t.span id) condition yes
      | some alternate => do
        let no ← t.singleStatement? alternate
        choice? settings t (t.span id) condition yes no
  | _ => none

def convertIf (settings : Settings) (t : Tree) (id : NodeId) : Changed :=
  match replacement? settings t id with
  | some (new, t) => Changed.ofOption t (t.replace? id new)
  | none => { tree := t }

/-- Makes the statements at `index` and behind it into one. -/
def join? (settings : Settings) (t : Tree) (list : NodeId) (index : Nat) (first second : NodeId) :
    Option Tree :=
  let removed := match t.removeAt? list (index + 1) with
    | some (_, t) => t
    | none => t
  let asExpressions :=
    if isPlain (t.form first) && isPlain (t.form second) && settings.allows .combineExpressionStatements then
      some (removed.wrap first fun left => .binary .comma left second)
    else none
  match t.form first, t.form second with
  | .var kind head, .var nextKind tail =>
    if kind == nextKind && settings.allows .combineVarStatements then
      some (removed.setForm first (.var kind (head ++ tail)))
    else asExpressions
  | _, _ => asExpressions

def joinFrom (settings : Settings) (list : NodeId) : Nat → Nat → Tree → Changed
  | 0, _, t => { tree := t }
  | rounds + 1, index, t =>
    match (t.statements list)[index]?, (t.statements list)[index + 1]? with
    | some first, some second =>
      match join? settings t list index first second with
      | some t => ({ tree := t, changes := 1 } : Changed).andThen (joinFrom settings list rounds index)
      | none => joinFrom settings list rounds (index + 1) t
    | _, _ => { tree := t }

def joinNeighbours (settings : Settings) (t : Tree) (list : NodeId) : Changed :=
  joinFrom settings list (2 * (t.statements list).length + 1) 0 t

/-- Combines statements below `root`, inner ones first, so that a branch is down to one statement by the time
its `if` is looked at. -/
def run (settings : Settings) (root : NodeId) (t : Tree) : Changed :=
  if settings.minifyCode then
    let lists := t.editableLists root
    Changed.each (t.descendants root).reverse (fun t id =>
      if !t.isLive root id then { tree := t }
      else if lists.contains id then joinNeighbours settings t id
      else if t.isInConditionalComment id then { tree := t }
      else convertIf settings t id) t
  else { tree := t }

end Condense.Combine
