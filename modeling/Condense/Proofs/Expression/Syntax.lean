import Condense.Proofs.Syntax.Store
import Mathlib.Data.Finset.Lattice.Fold
import Mathlib.Order.Interval.Finset.Nat
import Mathlib.Order.Lattice.Nat

/-!
Expressions as terms, apart from the store that holds their nodes: which term a node is the root of, and the canonical
form that two terms share exactly if they differ only in parentheses and in how chains of one associative operator are
nested.
-/

attribute [local simp] Condense.Form.children

namespace Condense

variable {t : Tree} {id : NodeId}

namespace Tree

/-- How many levels of nodes there are from a node down, as far as `steps` lead. -/
def levels (t : Tree) : Nat → NodeId → Nat
  | 0, _ => 0
  | steps + 1, id => if id.index < t.size then (t.children id).toFinset.sup (t.levels steps) + 1 else 0

theorem levels_le_succ (t : Tree) (steps : Nat) (id : NodeId) : t.levels steps id ≤ t.levels (steps + 1) id := by
  induction steps generalizing id with
  | zero => exact Nat.zero_le _
  | succ steps ih =>
    simp only [levels]
    split
    · exact Nat.succ_le_succ (Finset.sup_mono_fun fun child _ => ih child)
    · exact .refl

/-- A node has no more levels, however far the steps lead. -/
def Settled (t : Tree) (levels : Nat) (id : NodeId) : Prop :=
  ∀ steps, levels ≤ steps → t.levels steps id = levels

theorem Settled.node (inside : id.index < t.size) {f : Form NodeId} (form : t.form id = f) {levels : Nat}
    (below : ∀ steps, levels ≤ steps → f.children.toFinset.sup (t.levels steps) = levels) :
    t.Settled (levels + 1) id := by
  intro steps enough
  obtain ⟨steps, rfl⟩ := Nat.exists_eq_add_of_lt (levels.succ_pos.trans_le enough)
  rw [Tree.levels, if_pos inside, children, form, below _ (by omega)]

/-- Below a node that is no leaf stands one with a single level less. -/
theorem Settled.deepest {levels : Nat} (settled : t.Settled (levels + 1) id) :
    id.index < t.size ∧ (levels = 0 ∨ ∃ child, t.Settled levels child) := by
  have here (steps : Nat) (enough : levels ≤ steps) := settled (steps + 1) (Nat.succ_le_succ enough)
  simp only [Tree.levels] at here
  by_cases inside : id.index < t.size
  · refine ⟨inside, levels.eq_zero_or_pos.imp_right fun more => ?_⟩
    simp only [inside, if_true, Nat.add_right_cancel_iff] at here
    have some : (t.children id).toFinset.Nonempty := by
      by_contra none
      have := here levels .refl
      rw [Finset.not_nonempty_iff_eq_empty.1 none, Finset.sup_empty] at this
      exact absurd this.symm (Nat.ne_of_gt more)
    obtain ⟨child, member, most⟩ := Finset.exists_mem_eq_sup _ some (t.levels levels)
    refine ⟨child, fun steps enough => Nat.le_antisymm ?_ ?_⟩
    · exact here steps enough ▸ Finset.le_sup member
    · calc levels = t.levels levels child := (here levels .refl).symm.trans most
        _ ≤ t.levels steps child := monotone_nat_of_le_succ (t.levels_le_succ · child) enough
  · have := here levels .refl
    simp [inside] at this

/-- Each number of levels up to that of a node is the one of some node. -/
theorem Settled.exists {levels : Nat} (settled : t.Settled levels id) {fewer : Nat} (some : 0 < fewer)
    (no_more : fewer ≤ levels) : ∃ i, i.index < t.size ∧ t.Settled fewer i := by
  induction levels generalizing id with
  | zero => omega
  | succ levels ih =>
    obtain ⟨inside, deeper⟩ := settled.deepest
    by_cases all : fewer = levels + 1
    · exact ⟨id, inside, all ▸ settled⟩
    · rcases deeper with none | ⟨child, below⟩
      · omega
      · exact ih below (by omega)

/-- No node of a store has more levels than the store has nodes. -/
theorem Settled.le_size {levels : Nat} (settled : t.Settled levels id) : levels ≤ t.size := by
  have covered : Finset.Icc 1 levels ⊆ (Finset.range t.size).image fun i => t.levels levels ⟨i⟩ := by
    intro fewer member
    obtain ⟨some, no_more⟩ := Finset.mem_Icc.1 member
    obtain ⟨i, inside, there⟩ := settled.exists some no_more
    exact Finset.mem_image.2 ⟨i.index, Finset.mem_range.2 inside, there levels no_more⟩
  simpa using (Finset.card_le_card covered).trans Finset.card_image_le

end Tree

/-- An expression without operands. -/
inductive Leaf where
  | name (text : String)
  | this
  | null
  | boolean (value : Bool)
  | string (text : String)
  deriving DecidableEq

/-- Expressions over names, `this` and constants. -/
inductive Expr where
  | leaf (leaf : Leaf)
  | grouping (inner : Expr)
  | unary (op : UnaryOp) (operand : Expr)
  | update (op : UpdateOp) (isPrefix : Bool) (operand : Expr)
  | binary (op : BinaryOp) (left right : Expr)
  | conditional (condition consequent alternate : Expr)
  | member (object : Expr) (name : String)
  | index (object key : Expr)
  | call (callee : Expr) (args : List Expr) (isNew : Bool)

namespace Expr

/-- Induction over expressions, where the arguments of a call come as a list. -/
@[induction_eliminator, elab_as_elim]
theorem induct {motive : Expr → Prop} (leaf : ∀ l, motive (leaf l))
    (grouping : ∀ inner, motive inner → motive (grouping inner))
    (unary : ∀ op operand, motive operand → motive (unary op operand))
    (update : ∀ op isPrefix operand, motive operand → motive (update op isPrefix operand))
    (binary : ∀ op left right, motive left → motive right → motive (binary op left right))
    (conditional : ∀ condition consequent alternate, motive condition → motive consequent →
      motive alternate → motive (conditional condition consequent alternate))
    (member : ∀ object name, motive object → motive (member object name))
    (index : ∀ object key, motive object → motive key → motive (index object key))
    (call : ∀ callee args isNew, motive callee → (∀ arg ∈ args, motive arg) →
      motive (call callee args isNew)) (e : Expr) : motive e :=
  @Expr.rec motive (fun args => ∀ arg ∈ args, motive arg) leaf grouping unary update binary conditional
    member index call (fun _ member => absurd member List.not_mem_nil)
    (fun _ _ first rest _ member => (List.mem_cons.mp member).elim (· ▸ first) (rest _)) e

def unwrap : Expr → Expr
  | grouping inner => inner.unwrap
  | e => e

/-- Puts `op` between two expressions, in front of the chain of `op` on its right if it is associative. -/
def join (op : BinaryOp) (left : Expr) : Expr → Expr
  | binary inner first second =>
    if inner = op ∧ op.isAssociative then binary op (join op left first) second
    else binary op left (binary inner first second)
  | right => binary op left right

mutual

/-- The expression without parentheses, its chains of one associative operator nested to the left. -/
def canonical : Expr → Expr
  | leaf l => leaf l
  | grouping inner => inner.canonical
  | unary op operand => unary op operand.canonical
  | update op isPrefix operand => update op isPrefix operand.canonical
  | binary op left right => join op left.canonical right.canonical
  | conditional condition consequent alternate =>
    conditional condition.canonical consequent.canonical alternate.canonical
  | member object name => member object.canonical name
  | index object key => index object.canonical key.canonical
  | call callee args isNew => call callee.canonical (canonicalAll args) isNew

def canonicalAll : List Expr → List Expr
  | [] => []
  | e :: rest => e.canonical :: canonicalAll rest

end

end Expr

/-- Whether a node of the given form is the leaf. What a name refers to is no part of it. -/
def Leaf.Has (form : Form NodeId) : Leaf → Prop
  | name text => ∃ field type, form = .lookup text field type
  | this => form = .this
  | null => form = .constant .null
  | boolean value => form = .constant (.boolean value)
  | string text => form = .constant (.string text)

namespace Expr

variable {e : Expr}

mutual

/-- Whether the node `id` is the root of the expression. -/
def At (t : Tree) : Expr → NodeId → Prop
  | leaf l, id => l.Has (t.form id)
  | grouping inner, id => ∃ i, t.form id = .grouping i ∧ inner.At t i
  | unary op operand, id => ∃ i, t.form id = .unary op i ∧ operand.At t i
  | update op isPrefix operand, id => ∃ i, t.form id = .update op isPrefix i ∧ operand.At t i
  | binary op left right, id => ∃ i j, t.form id = .binary op i j ∧ left.At t i ∧ right.At t j
  | conditional condition consequent alternate, id =>
    ∃ i j k, t.form id = .conditional i j k ∧ condition.At t i ∧ consequent.At t j ∧ alternate.At t k
  | member object name, id => ∃ i, t.form id = .member i name false ∧ object.At t i
  | index object key, id => ∃ i j, t.form id = .index i j false ∧ object.At t i ∧ key.At t j
  | call callee args isNew, id =>
    ∃ i ids, t.form id = .call i ids isNew false ∧ callee.At t i ∧ AllAt t args ids

def AllAt (t : Tree) : List Expr → List NodeId → Prop
  | [], ids => ids = []
  | e :: rest, ids => ∃ i others, ids = i :: others ∧ e.At t i ∧ AllAt t rest others

end

mutual

def depth : Expr → Nat
  | leaf _ => 1
  | grouping inner | unary _ inner | update _ _ inner | member inner _ => inner.depth + 1
  | binary _ left right | index left right => max left.depth right.depth + 1
  | conditional condition consequent alternate =>
    max condition.depth (max consequent.depth alternate.depth) + 1
  | call callee args _ => max callee.depth (depthAll args) + 1

def depthAll : List Expr → Nat
  | [] => 0
  | e :: rest => max e.depth (depthAll rest)

end

theorem depth_pos (e : Expr) : 0 < e.depth := by
  cases e <;> simp [depth]

theorem depth_le_depthAll {args : List Expr} {arg : Expr} (member : arg ∈ args) : arg.depth ≤ depthAll args := by
  induction args with
  | nil => cases member
  | cons e rest ih =>
    simp only [depthAll]
    rcases List.mem_cons.mp member with rfl | member
    · omega
    · have := ih member
      omega

theorem At.inRange (here : e.At t id) : id.index < t.size := by
  by_contra outside
  have none := t.form_eq_empty_of_size_le (not_lt.1 outside)
  cases e with
  | leaf l => cases l <;> simp [At, Leaf.Has, none] at here
  | _ => simp [At, none] at here

theorem AllAt.settled {args : List Expr} {ids : List NodeId}
    (each : ∀ arg ∈ args, ∀ {id : NodeId}, arg.At t id → t.Settled arg.depth id) (all : AllAt t args ids) (steps : Nat)
    (enough : depthAll args ≤ steps) : ids.toFinset.sup (t.levels steps) = depthAll args := by
  induction args generalizing ids with
  | nil => rw [show ids = [] from all, List.toFinset_nil, Finset.sup_empty, depthAll, Nat.bot_eq_zero]
  | cons e rest ih =>
    obtain ⟨i, others, rfl, here, more⟩ := all
    simp only [depthAll] at enough
    rw [List.toFinset_cons, Finset.sup_insert, each e (.head _) here steps (by omega),
      ih (fun arg member => each arg (.tail _ member)) more (by omega), depthAll]

theorem At.settled (here : e.At t id) : t.Settled e.depth id := by
  induction e generalizing id with
  | leaf l =>
    cases l with
    | name text =>
      have ⟨field, type, form⟩ := here
      exact .node here.inRange form fun _ _ => rfl
    | _ => exact .node here.inRange here fun _ _ => rfl
  | grouping inner ih | unary op inner ih | update op isPrefix inner ih | member inner name ih =>
    have ⟨i, form, innerAt⟩ := here
    refine .node here.inRange form fun steps enough => ?_
    simpa using ih innerAt steps enough
  | binary op left right ihLeft ihRight | index left right ihLeft ihRight =>
    have ⟨i, j, form, leftAt, rightAt⟩ := here
    refine .node here.inRange form fun steps enough => ?_
    simp [ihLeft leftAt steps (by omega), ihRight rightAt steps (by omega)]
  | conditional condition consequent alternate ihCondition ihConsequent ihAlternate =>
    have ⟨i, j, k, form, conditionAt, consequentAt, alternateAt⟩ := here
    refine .node here.inRange form fun steps enough => ?_
    simp [ihCondition conditionAt steps (by omega), ihConsequent consequentAt steps (by omega),
      ihAlternate alternateAt steps (by omega)]
  | call callee args isNew ihCallee ihArgs =>
    have ⟨i, ids, form, calleeAt, argsAt⟩ := here
    refine .node here.inRange form fun steps enough => ?_
    have all := argsAt.settled (fun arg member _ => ihArgs arg member) steps (by omega)
    simp [ihCallee calleeAt steps (by omega), all]

/-- No expression in a store has more levels than the store has nodes. -/
theorem At.depth_le_size (here : e.At t id) : e.depth ≤ t.size :=
  here.settled.le_size

def isGrouping : Expr → Bool
  | grouping _ => true
  | _ => false

theorem At.form_ne_grouping (here : e.At t id)
    (bare : e.isGrouping = false) (i : NodeId) : t.form id ≠ .grouping i := by
  intro form
  cases e with
  | grouping inner => cases bare
  | leaf l => cases l <;> simp [At, Leaf.Has, form] at here
  | _ => simp [At, form] at here

theorem At.unwrapUpTo_of_bare (here : e.At t id)
    (bare : e.isGrouping = false) (steps : Nat) : t.unwrapUpTo steps id = id := by
  cases steps with
  | zero => rfl
  | succ steps =>
    simp only [Tree.unwrapUpTo]
    split
    · rename_i inner form
      exact absurd form (here.form_ne_grouping bare inner)
    · rfl

theorem At.unwrapUpTo_succ {steps : Nat} (here : e.At t id)
    (enough : e.depth ≤ steps + 1) : t.unwrapUpTo (steps + 1) id = t.unwrapUpTo steps id := by
  induction e generalizing id steps with
  | grouping inner ih =>
    obtain ⟨i, form, innerAt⟩ := here
    have pos := inner.depth_pos
    simp only [depth] at enough
    obtain _ | fewer := steps
    · omega
    simp only [Tree.unwrapUpTo, form]
    exact ih innerAt (by omega)
  | _ => rw [here.unwrapUpTo_of_bare rfl, here.unwrapUpTo_of_bare rfl]

/-- Unwrapping a grouping is unwrapping what stands inside. -/
theorem At.unwrapGrouping_inner {inner : Expr} {i : NodeId} (form : t.form id = .grouping i) (innerAt : inner.At t i) :
    t.unwrapGrouping id = t.unwrapGrouping i := by
  have here : (grouping inner).At t id := ⟨i, form, innerAt⟩
  have fits := here.depth_le_size
  simp only [depth] at fits
  obtain ⟨fewer, size⟩ : ∃ fewer, t.size = fewer + 1 := ⟨t.size - 1, by omega⟩
  simp only [Tree.unwrapGrouping, size]
  rw [innerAt.unwrapUpTo_succ (by omega)]
  simp only [Tree.unwrapUpTo, form]

theorem At.unwrap (here : e.At t id) : e.unwrap.At t (t.unwrapGrouping id) := by
  induction e generalizing id with
  | grouping inner ih =>
    obtain ⟨i, form, innerAt⟩ := here
    rw [unwrapGrouping_inner form innerAt]
    exact ih innerAt
  | _ => rwa [Tree.unwrapGrouping, here.unwrapUpTo_of_bare rfl]

end Expr

end Condense
