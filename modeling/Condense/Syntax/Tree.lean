import Condense.Syntax.Form

/-!
A store of syntax nodes that refer to each other by index.
-/

namespace Condense

structure Node where
  form : Form NodeId
  span : Span := {}
  parent : Option NodeId := none
  deriving Inhabited

structure Tree where
  nodes : Array Node := #[]
  files : Array String := #[]
  deriving Inhabited

namespace Tree

def addFile (t : Tree) (name : String) : FileId × Tree :=
  (⟨t.files.size⟩, { t with files := t.files.push name })

def fileName? (t : Tree) (file : FileId) : Option String :=
  t.files[file.index]?

/-- How many nodes were ever allocated. -/
def size (t : Tree) : Nat :=
  t.nodes.size

def node? (t : Tree) (id : NodeId) : Option Node :=
  t.nodes[id.index]?

def form (t : Tree) (id : NodeId) : Form NodeId :=
  match t.node? id with
  | some node => node.form
  | none => .empty

def span (t : Tree) (id : NodeId) : Span :=
  match t.node? id with
  | some node => node.span
  | none => {}

def parent? (t : Tree) (id : NodeId) : Option NodeId :=
  (t.node? id).bind (·.parent)

def children (t : Tree) (id : NodeId) : List NodeId :=
  (t.form id).children

def isConcise (t : Tree) (id : NodeId) : Bool :=
  (t.form id).isConcise

def statements (t : Tree) (id : NodeId) : List NodeId :=
  (t.form id).statementList?.getD []

def setParent (t : Tree) (id : NodeId) (parent : Option NodeId) : Tree :=
  { t with nodes := t.nodes.modify id.index fun node => { node with parent } }

/-- Changes the form of a node and leaves all links alone. -/
def modifyForm (t : Tree) (id : NodeId) (f : Form NodeId → Form NodeId) : Tree :=
  { t with nodes := t.nodes.modify id.index fun node => { node with form := f node.form } }

def adopt (t : Tree) (parent : NodeId) (children : List NodeId) : Tree :=
  children.foldl (fun t child => t.setParent child (some parent)) t

def release (t : Tree) (children : List NodeId) : Tree :=
  children.foldl (fun t child => t.setParent child none) t

/-- Adds a node, which takes over the children its form names. -/
def alloc (t : Tree) (form : Form NodeId) (span : Span) : NodeId × Tree :=
  let id : NodeId := ⟨t.nodes.size⟩
  let t := t.adopt id form.children
  (id, { t with nodes := t.nodes.push { form, span } })

/-- Gives a node another form. Children that the new form does not name are released. -/
def setForm (t : Tree) (id : NodeId) (form : Form NodeId) : Tree :=
  let new := form.children
  let t := t.release ((t.children id).filter fun child => !new.contains child)
  (t.adopt id new).modifyForm id fun _ => form

/-- Takes `child` out of the statement list of `parent`, if that has one. -/
def detachFrom (t : Tree) (parent child : NodeId) : Tree :=
  match (t.form parent).statementList? with
  | some statements => t.modifyForm parent (·.withStatements (statements.filter (· != child)))
  | none => t

/-- Puts `new` where `parent` holds `old`, and takes `new` out of the statement list it stood in. A
concise body that comes to hold anything but an expression turns into a regular block. -/
def replaceChild? (t : Tree) (parent old new : NodeId) : Option Tree := do
  let form ← (t.form parent).exchange old new
  let t := t.modifyForm parent fun _ => form
  let t := match t.parent? new with
    | some previous => if previous != parent then t.detachFrom previous new else t
    | none => t
  let t := (t.setParent old none).setParent new (some parent)
  if (t.form new).isExpression then some t else some (t.modifyForm parent Form.notConcise)

def replace? (t : Tree) (old new : NodeId) : Option Tree := do
  t.replaceChild? (← t.parent? old) old new

/-- Turns a concise body into a block that returns its expression. -/
def expandConcise (t : Tree) (block : NodeId) : Tree :=
  match t.form block with
  | .block statements _ true =>
    let t := match statements with
      | [] => t
      | expression :: rest =>
        let (ret, t) := t.alloc (.returnStatement (some expression)) (t.span expression)
        (t.modifyForm block (·.withStatements (ret :: rest))).setParent ret (some block)
    t.modifyForm block Form.notConcise
  | _ => t

/-- Puts a statement at `index` of a statement list, or last where the list is shorter. -/
def insert (t : Tree) (list : NodeId) (index : Nat) (statement : NodeId) : Tree :=
  let t := if t.isConcise list then t.expandConcise list else t
  let t := match t.parent? statement with
    | some previous => t.detachFrom previous statement
    | none => t
  match (t.form list).statementList? with
  | some statements =>
    let index := min index statements.length
    (t.modifyForm list (·.withStatements (statements.insertIdx index statement))).setParent statement
      (some list)
  | none => t

def append (t : Tree) (list statement : NodeId) : Tree :=
  t.insert list (t.statements list).length statement

def removeAt? (t : Tree) (list : NodeId) (index : Nat) : Option (NodeId × Tree) := do
  let statements ← (t.form list).statementList?
  let removed ← statements[index]?
  let t := t.modifyForm list fun form => (form.withStatements (statements.eraseIdx index)).notConcise
  some (removed, t.setParent removed none)

def removeStatement? (t : Tree) (statement : NodeId) : Option Tree := do
  let list ← t.parent? statement
  let index ← (t.statements list).idxOf? statement
  (t.removeAt? list index).map (·.2)

def clear (t : Tree) (list : NodeId) : Tree :=
  match (t.form list).statementList? with
  | some statements =>
    (t.modifyForm list fun form => (form.withStatements []).notConcise).release statements
  | none => t

def setStatements (t : Tree) (list : NodeId) (new : List NodeId) : Tree :=
  match (t.form list).statementList? with
  | some old =>
    let t := t.release (old.filter fun id => !new.contains id)
    let t := t.adopt list new
    let single := match new with
      | [only] => (t.form only).isExpression
      | _ => false
    let t := t.modifyForm list (·.withStatements new)
    if single then t else t.modifyForm list Form.notConcise
  | none => t

/-- The nodes in the slots of the whole store. -/
def slots (t : Tree) : List NodeId :=
  (List.range t.size).flatMap fun index => t.children ⟨index⟩

/-- Takes nodes off a stack, each to be replaced there by its children, until none is left. -/
def walk (t : Tree) : Nat → List NodeId → List NodeId → Option (List NodeId)
  | _, [], out => some out.reverse
  | 0, _ :: _, _ => none
  | steps + 1, id :: stack, out => t.walk steps (t.children id ++ stack) (id :: out)

/-- All nodes reachable from `root`, each before those below it. No path is longer than the store, and no node has more
children than there are slots. -/
def descendants (t : Tree) (root : NodeId) : List NodeId :=
  (t.walk (Nat.pow (t.slots.length + 1) (t.size + 1)) [root] []).getD []

def ancestorsUpTo (t : Tree) : Nat → NodeId → List NodeId
  | 0, _ => []
  | steps + 1, id =>
    match t.parent? id with
    | some parent => parent :: t.ancestorsUpTo steps parent
    | none => []

def ancestors (t : Tree) (id : NodeId) : List NodeId :=
  t.ancestorsUpTo t.size id

def unwrapUpTo (t : Tree) : Nat → NodeId → NodeId
  | 0, id => id
  | steps + 1, id =>
    match t.form id with
    | .grouping expression => t.unwrapUpTo steps expression
    | _ => id

def unwrapGrouping (t : Tree) (id : NodeId) : NodeId :=
  t.unwrapUpTo t.size id

def memberChainUpTo (t : Tree) : Nat → NodeId → Option String
  | 0, _ => none
  | steps + 1, id =>
    match t.form id with
    | .lookup name _ _ => some name
    | .member object name _ => (t.memberChainUpTo steps object).map (· ++ "." ++ name)
    | _ => none

/-- The dotted name `a.b.c` of a chain of members that starts at a name. -/
def memberChain? (t : Tree) (id : NodeId) : Option String :=
  t.memberChainUpTo (t.size + 1) id

def linksAgree (t : Tree) (root : NodeId) : Bool :=
  (t.descendants root).all fun id => (t.children id).all fun child => t.parent? child == some id

end Tree

end Condense
