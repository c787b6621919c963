import Condense.Proofs.Expression.Reread

/-!
Statements as terms, apart from the store that holds their nodes: which term a node is the root of, and the normal
form that two terms share exactly if they differ only in empty statements and in blocks that their place does not
need.
-/

attribute [local simp] Condense.Form.children

namespace Condense

open List

variable {e : Expr} {ids : List NodeId} {id : NodeId}

/-- A name, or a call of a name with names for arguments. -/
inductive Simple where
  | name (text : String)
  | call (callee : String) (args : List String)
  deriving DecidableEq

namespace Simple

def expr : Simple → Expr
  | name text => .leaf (.name text)
  | call callee args => .call (.leaf (.name callee)) (args.map fun arg => .leaf (.name arg)) false

def Valid : Simple → Prop
  | name text => (Token.identifier text false).Plain
  | call callee args => (Token.identifier callee false).Plain ∧ ∀ arg ∈ args, (Token.identifier arg false).Plain

theorem Valid.expr {e : Simple} (valid : e.Valid) : e.expr.Valid := by
  cases e with
  | name text => exact valid
  | call callee args =>
    refine ⟨valid.1, ?_⟩
    have all := valid.2
    clear valid
    induction args with
    | nil => trivial
    | cons arg rest ih =>
      exact ⟨all arg (.head _), ih fun other member => all other (.tail _ member)⟩

/-- These expressions stand in no need of parentheses. -/
theorem reread_expr (e : Simple) : e.expr.reread = e.expr := by
  cases e with
  | name text => rfl
  | call callee args =>
    have all : Expr.rereadAll (args.map fun arg => .leaf (.name arg)) = args.map fun arg => .leaf (.name arg) := by
      induction args with
      | nil => rfl
      | cons arg rest ih =>
        rw [map_cons, Expr.rereadAll, ih]
        rfl
    rw [expr, Expr.reread, all]
    rfl

end Simple

/-- Statements over names and calls of names, without declarations. -/
inductive Stmt where
  | expression (e : Simple)
  | empty
  | debugger
  | block (items : List Stmt)
  | ifThen (test : Simple) (body : Stmt)
  | ifElse (test : Simple) (consequent alternate : Stmt)
  | whileLoop (test : Simple) (body : Stmt)
  | doWhile (body : Stmt) (test : Simple)
  | forLoop (init test step : Option String) (body : Stmt)
  | labeled (label : String) (body : Stmt)

namespace Stmt

/-- Induction over statements, where the items of a block come as a list. -/
@[induction_eliminator, elab_as_elim]
theorem induct {motive : Stmt → Prop} (expression : ∀ e, motive (expression e)) (empty : motive empty)
    (debugger : motive debugger) (block : ∀ items, (∀ item ∈ items, motive item) → motive (block items))
    (ifThen : ∀ test body, motive body → motive (ifThen test body))
    (ifElse : ∀ test consequent alternate, motive consequent → motive alternate →
      motive (ifElse test consequent alternate))
    (whileLoop : ∀ test body, motive body → motive (whileLoop test body))
    (doWhile : ∀ body test, motive body → motive (doWhile body test))
    (forLoop : ∀ init test step body, motive body → motive (forLoop init test step body))
    (labeled : ∀ label body, motive body → motive (labeled label body)) (s : Stmt) : motive s :=
  @Stmt.rec motive (fun items => ∀ item ∈ items, motive item) expression empty debugger block ifThen ifElse whileLoop
    doWhile forLoop labeled (fun _ member => absurd member not_mem_nil)
    (fun _ _ first rest _ member => (mem_cons.mp member).elim (· ▸ first) (rest _)) s

def isEmpty : Stmt → Bool
  | empty => true
  | _ => false

mutual

/-- The statement without empty statements in lists. Where it is the body of a branch or a loop, a block that holds
nothing is an empty statement, and a block of one statement is that statement. -/
def normal (isBody : Bool) : Stmt → Stmt
  | expression e => expression e
  | empty => empty
  | debugger => debugger
  | block items =>
    if isBody then
      match normalAll true items with
      | [] => empty
      | [only] => only
      | _ => block (normalAll false items)
    else block (normalAll false items)
  | ifThen test body => ifThen test (body.normal true)
  | ifElse test consequent alternate => ifElse test (consequent.normal true) (alternate.normal true)
  | whileLoop test body => whileLoop test (body.normal true)
  | doWhile body test => doWhile (body.normal true) test
  | forLoop init test step body => forLoop init test step (body.normal true)
  | labeled label body => labeled label (body.normal false)

def normalAll (isBody : Bool) : List Stmt → List Stmt
  | [] => []
  | s :: rest => if s.isEmpty then normalAll isBody rest else s.normal isBody :: normalAll isBody rest

end

/-- Whether the node stands for a part of the head of a loop, which may be missing. -/
def PartAt (t : Tree) : Option String → Option NodeId → Prop
  | none, id => id = none
  | some name, id => ∃ i, id = some i ∧ (Expr.leaf (.name name)).At t i

mutual

/-- Whether the node `id` is the root of the statement. -/
def At (t : Tree) : Stmt → NodeId → Prop
  | expression e, id => e.expr.At t id
  | empty, id => id.index < t.size ∧ t.form id = .empty
  | debugger, id => t.form id = .debugger
  | block items, id => ∃ ids, t.form id = .block ids none false ∧ AllAt t items ids
  | ifThen test body, id => ∃ i j, t.form id = .ifStatement i j none ∧ test.expr.At t i ∧ body.At t j
  | ifElse test consequent alternate, id => ∃ i j k, t.form id = .ifStatement i j (some k) ∧ test.expr.At t i ∧
      consequent.At t j ∧ alternate.At t k
  | whileLoop test body, id => ∃ i j, t.form id = .whileLoop i j ∧ test.expr.At t i ∧ body.At t j
  | doWhile body test, id => ∃ i j, t.form id = .doWhileLoop i j ∧ body.At t i ∧ test.expr.At t j
  | forLoop init test step body, id => ∃ i j k l, t.form id = .forLoop i j k l none ∧ PartAt t init i ∧
      PartAt t test j ∧ PartAt t step k ∧ body.At t l
  | labeled label body, id => ∃ i, t.form id = .labeled label i ∧ body.At t i

def AllAt (t : Tree) : List Stmt → List NodeId → Prop
  | [], ids => ids = []
  | s :: rest, ids => ∃ i others, ids = i :: others ∧ s.At t i ∧ AllAt t rest others

end

mutual

def depth : Stmt → Nat
  | expression e => e.expr.depth
  | empty | debugger => 1
  | block items => depthAll items + 1
  | ifThen test body | whileLoop test body | doWhile body test => max test.expr.depth body.depth + 1
  | ifElse test consequent alternate => max test.expr.depth (max consequent.depth alternate.depth) + 1
  | forLoop _ _ _ body | labeled _ body => body.depth + 1

def depthAll : List Stmt → Nat
  | [] => 0
  | s :: rest => max s.depth (depthAll rest)

end

variable {t : Tree} {s : Stmt}

/-- The kinds of nodes that are the roots of statements only. -/
def isControl : Form NodeId → Bool
  | .empty | .debugger | .block .. | .ifStatement .. | .whileLoop .. | .doWhileLoop .. | .forLoop .. | .labeled .. => true
  | _ => false

theorem not_isControl (here : e.At t id) : isControl (t.form id) = false := by
  cases e with
  | leaf l =>
    cases l with
    | name text =>
      obtain ⟨field, type, form⟩ := here
      rw [form]
      rfl
    | _ =>
      rw [show t.form id = _ from here]
      rfl
  | binary | index | call =>
    obtain ⟨i, j, form, -⟩ := here
    rw [form]
    rfl
  | conditional =>
    obtain ⟨i, j, k, form, -⟩ := here
    rw [form]
    rfl
  | _ =>
    obtain ⟨i, form, -⟩ := here
    rw [form]
    rfl

theorem At.inRange (here : s.At t id) : id.index < t.size := by
  by_contra outside
  have none := t.form_eq_empty_of_size_le (not_lt.1 outside)
  cases s with
  | expression e => exact outside (Expr.At.inRange here)
  | empty => exact outside here.1
  | _ => simp [At, none] at here

theorem depth_pos (s : Stmt) : 0 < s.depth := by
  cases s <;> simp [depth, Expr.depth_pos]

theorem PartAt.settled {name : Option String} {id : Option NodeId} (here : PartAt t name id) {steps : Nat}
    (enough : 0 < steps) : id.toList.toFinset.sup (t.levels steps) ≤ 1 := by
  cases name with
  | none => simp [show id = none from here]
  | some name =>
    obtain ⟨i, rfl, nameAt⟩ := here
    simp [nameAt.settled steps enough, Expr.depth]

theorem AllAt.settled {items : List Stmt} (each : ∀ s ∈ items, ∀ {id : NodeId}, s.At t id → t.Settled s.depth id)
    (all : AllAt t items ids) (steps : Nat) (enough : depthAll items ≤ steps) :
    ids.toFinset.sup (t.levels steps) = depthAll items := by
  induction items generalizing ids with
  | nil => rw [show ids = [] from all, toFinset_nil, Finset.sup_empty, depthAll, Nat.bot_eq_zero]
  | cons s rest ih =>
    obtain ⟨i, others, rfl, here, more⟩ := all
    simp only [depthAll] at enough
    rw [toFinset_cons, Finset.sup_insert, each s (.head _) here steps (by omega),
      ih (fun item member => each item (.tail _ member)) more (by omega), depthAll]

theorem At.settled (here : s.At t id) : t.Settled s.depth id := by
  induction s generalizing id with
  | expression e => exact Expr.At.settled here
  | empty => exact .node here.inRange here.2 fun _ _ => rfl
  | debugger => exact .node here.inRange here fun _ _ => rfl
  | block items ih =>
    have ⟨ids, form, all⟩ := here
    exact .node here.inRange form (all.settled fun s member _ => ih s member)
  | ifThen test body ih | whileLoop test body ih =>
    have ⟨i, j, form, testAt, bodyAt⟩ := here
    refine .node here.inRange form fun steps enough => ?_
    simp [testAt.settled steps (by omega), ih bodyAt steps (by omega)]
  | doWhile body test ih =>
    have ⟨i, j, form, bodyAt, testAt⟩ := here
    refine .node here.inRange form fun steps enough => ?_
    simp [testAt.settled steps (by omega), ih bodyAt steps (by omega), Nat.max_comm]
  | ifElse test consequent alternate ihConsequent ihAlternate =>
    have ⟨i, j, k, form, testAt, consequentAt, alternateAt⟩ := here
    refine .node here.inRange form fun steps enough => ?_
    simp [testAt.settled steps (by omega), ihConsequent consequentAt steps (by omega),
      ihAlternate alternateAt steps (by omega)]
  | forLoop init test step body ih =>
    have ⟨i, j, k, l, form, initAt, testAt, stepAt, bodyAt⟩ := here
    refine .node here.inRange form fun steps enough => ?_
    -- A body has a level of its own, so the names in the head of the loop are no deeper.
    have some := body.depth_pos
    have first := initAt.settled (some.trans_le enough)
    have second := testAt.settled (some.trans_le enough)
    have third := stepAt.settled (some.trans_le enough)
    simp only [Form.children, toFinset_append, Finset.sup_union, toFinset_cons, toFinset_nil,
      insert_empty_eq, Finset.sup_singleton, ih bodyAt steps enough]
    omega
  | labeled label body ih =>
    have ⟨i, form, bodyAt⟩ := here
    refine .node here.inRange form fun steps enough => ?_
    simpa using ih bodyAt steps enough

/-- No statement in a store has more levels than the store has nodes. -/
theorem At.depth_le_size (here : s.At t id) : s.depth ≤ t.size :=
  here.settled.le_size

variable {t' : Tree}

theorem AllAt.imp {items : List Stmt} (all : AllAt t items ids)
    (each : ∀ s ∈ items, ∀ i, s.At t i → s.At t' i) : AllAt t' items ids := by
  induction items generalizing ids with
  | nil => exact all
  | cons s rest ih =>
    obtain ⟨i, others, same, here, more⟩ := all
    exact ⟨i, others, same, each s (.head _) i here, ih more fun item member => each item (.tail _ member)⟩

/-- A statement stays where it is as long as the nodes of statements do and the expressions stay. -/
theorem At.transfer (here : s.At t id) (size : t.size ≤ t'.size)
    (forms : ∀ i, i.index < t.size → isControl (t.form i) → t'.form i = t.form i)
    (expressions : ∀ (e : Expr) i, e.At t i → e.At t' i) : s.At t' id := by
  have control (s : Stmt) (i : NodeId) (form : Form NodeId) (here : s.At t i) (same : t.form i = form)
      (control : isControl form) : t'.form i = form :=
    (forms i here.inRange (same ▸ control)).trans same
  have part (name : Option String) (i : Option NodeId) (here : PartAt t name i) : PartAt t' name i := by
    cases name with
    | none => exact here
    | some name =>
      obtain ⟨j, same, nameAt⟩ := here
      exact ⟨j, same, expressions _ j nameAt⟩
  induction s generalizing id with
  | expression e => exact expressions e.expr id here
  | empty => exact ⟨here.1.trans_le size, control empty id _ here here.2 rfl⟩
  | debugger => exact control debugger id _ here here rfl
  | block items ih =>
    have ⟨ids, form, all⟩ := here
    exact ⟨ids, control _ id _ here form rfl, all.imp fun item member _ => ih item member⟩
  | ifThen test body ih | whileLoop test body ih =>
    have ⟨i, j, form, testAt, bodyAt⟩ := here
    exact ⟨i, j, control _ id _ here form rfl, expressions _ i testAt, ih bodyAt⟩
  | ifElse test consequent alternate ihConsequent ihAlternate =>
    have ⟨i, j, k, form, testAt, consequentAt, alternateAt⟩ := here
    exact ⟨i, j, k, control _ id _ here form rfl, expressions _ i testAt, ihConsequent consequentAt,
      ihAlternate alternateAt⟩
  | doWhile body test ih =>
    have ⟨i, j, form, bodyAt, testAt⟩ := here
    exact ⟨i, j, control _ id _ here form rfl, ih bodyAt, expressions _ j testAt⟩
  | forLoop init test step body ih =>
    have ⟨i, j, k, l, form, initAt, testAt, stepAt, bodyAt⟩ := here
    exact ⟨i, j, k, l, control _ id _ here form rfl, part init i initAt, part test j testAt, part step k stepAt,
      ih bodyAt⟩
  | labeled label body ih =>
    have ⟨i, form, bodyAt⟩ := here
    exact ⟨i, control _ id _ here form rfl, ih bodyAt⟩

end Stmt

end Condense
