import Condense.Proofs.Meaning.Effect
import Condense.Syntax.Tree

/-!
The meaning of a tree of simple statements, at two levels of detail.
-/

namespace Condense

open Form List

/-- How closely a program is looked at: at the operators that take the place of statements and at declarations, or
at the constants that decide what runs. -/
inductive View where
  | operators
  | constants

/-- Whether an expression is taken as a whole. -/
def View.hides : View → Form NodeId → Bool
  | _, .grouping _ => false
  | .operators, .binary .comma _ _ | .operators, .binary .and _ _ | .operators, .conditional .. => false
  | .constants, .constant .empty => true
  | .constants, .constant _ | .constants, .unary .not _ => false
  | _, _ => true

/-- What runs one after the other. -/
def View.list? : View → Form NodeId → Option (List NodeId)
  | _, .program statements _ | _, .block statements none false | _, .switchCase _ statements => some statements
  | .operators, .var _ declarators => some declarators
  | _, _ => none

/-- Whether a form is that of a bound name. -/
def Form.IsBinding (form : Form NodeId) : Prop :=
  ∃ name field, form = .bindingIdentifier name field

namespace Tree

/-- Expressions whose parts in view are expressions. -/
inductive PlainExpression (view : View) (t : Tree) : NodeId → Prop
  | event {id : NodeId} (expression : (t.form id).isExpression = true)
      (hidden : view.hides (t.form id) = true) : PlainExpression view t id
  | constant {id : NodeId} {literal : Literal} (form : t.form id = .constant literal)
      (shown : view.hides (t.form id) = false) : PlainExpression view t id
  | grouping {id inner : NodeId} (form : t.form id = .grouping inner) (inside : PlainExpression view t inner) :
      PlainExpression view t id
  | negation {id operand : NodeId} (form : t.form id = .unary .not operand)
      (shown : view.hides (t.form id) = false) (inside : PlainExpression view t operand) : PlainExpression view t id
  | comma {id left right : NodeId} (form : t.form id = .binary .comma left right)
      (shown : view.hides (t.form id) = false) (first : PlainExpression view t left)
      (second : PlainExpression view t right) : PlainExpression view t id
  | conjunction {id left right : NodeId} (form : t.form id = .binary .and left right)
      (shown : view.hides (t.form id) = false) (first : PlainExpression view t left)
      (second : PlainExpression view t right) : PlainExpression view t id
  | choice {id condition consequent alternate : NodeId}
      (form : t.form id = .conditional condition consequent alternate)
      (shown : view.hides (t.form id) = false) (test : PlainExpression view t condition)
      (first : PlainExpression view t consequent) (second : PlainExpression view t alternate) :
      PlainExpression view t id

/-- Programs of expressions, declarations of names, blocks without a scope, branches, `while` loops, switches and
jumps without a label. Declarations are part of the view of operators only. -/
inductive Plain (view : View) (t : Tree) : NodeId → Prop
  | expression {id : NodeId} (inside : t.PlainExpression view id) : Plain view t id
  | empty {id : NodeId} (form : t.form id = .empty) : Plain view t id
  | list {id : NodeId} {statements : List NodeId} (form : view.list? (t.form id) = some statements)
      (inside : ∀ s ∈ statements, Plain view t s) : Plain view t id
  | bareDeclarator {id target : NodeId} (seen : view = .operators) (form : t.form id = .declarator target none)
      (plain : (t.form target).IsBinding) : Plain view t id
  | declarator {id target init : NodeId} (seen : view = .operators) (form : t.form id = .declarator target (some init))
      (plain : (t.form target).IsBinding) (inside : t.PlainExpression view init) : Plain view t id
  | branch {id condition consequent : NodeId} (form : t.form id = .ifStatement condition consequent none)
      (test : t.PlainExpression view condition) (first : Plain view t consequent) : Plain view t id
  | branches {id condition consequent alternate : NodeId}
      (form : t.form id = .ifStatement condition consequent (some alternate)) (test : t.PlainExpression view condition)
      (first : Plain view t consequent) (second : Plain view t alternate) : Plain view t id
  | loop {id condition body : NodeId} (form : t.form id = .whileLoop condition body)
      (test : t.PlainExpression view condition) (inside : Plain view t body) : Plain view t id
  | switch {id discriminant : NodeId} {cases : List NodeId} {scope : Option ScopeId}
      (form : t.form id = .switchStatement discriminant cases scope) (value : t.PlainExpression view discriminant)
      (clauses : ∀ c ∈ cases, ∃ test statements, t.form c = .switchCase test statements ∧
        ∀ id ∈ test, t.PlainExpression view id)
      (inside : ∀ c ∈ cases, Plain view t c) : Plain view t id
  | returnNothing {id : NodeId} (form : t.form id = .returnStatement none) : Plain view t id
  | returnValue {id value : NodeId} (form : t.form id = .returnStatement (some value))
      (inside : t.PlainExpression view value) : Plain view t id
  | throwValue {id value : NodeId} (form : t.form id = .throwStatement value)
      (inside : t.PlainExpression view value) : Plain view t id
  | breakLoop {id : NodeId} (form : t.form id = .breakStatement none) : Plain view t id
  | continueLoop {id : NodeId} (form : t.form id = .continueStatement none) : Plain view t id

/-- Whether an expression is plain, looked at down to the given depth. -/
def plainExpressionUpTo (view : View) (t : Tree) : Nat → NodeId → Bool
  | 0, _ => false
  | depth + 1, id =>
    let deeper := t.plainExpressionUpTo view depth
    if view.hides (t.form id) then (t.form id).isExpression
    else match t.form id with
      | .constant _ => true
      | .grouping x | .unary .not x => deeper x
      | .binary .comma x y | .binary .and x y => deeper x && deeper y
      | .conditional x y z => deeper x && deeper y && deeper z
      | _ => false

theorem plainExpression_of_upTo {view : View} {t : Tree} {depth : Nat} {id : NodeId}
    (plain : t.plainExpressionUpTo view depth id) : t.PlainExpression view id := by
  induction depth generalizing id with
  | zero => cases plain
  | succ depth ih =>
    unfold plainExpressionUpTo at plain
    dsimp only at plain
    split at plain
    · rename_i hidden
      exact .event plain hidden
    · rename_i shown
      have shown := eq_false_of_ne_true shown
      split at plain
      · exact .constant ‹_› shown
      · exact .grouping ‹_› (ih plain)
      · exact .negation ‹_› shown (ih plain)
      · rw [Bool.and_eq_true] at plain
        exact .comma ‹_› shown (ih plain.1) (ih plain.2)
      · rw [Bool.and_eq_true] at plain
        exact .conjunction ‹_› shown (ih plain.1) (ih plain.2)
      · rw [Bool.and_eq_true, Bool.and_eq_true] at plain
        exact .choice ‹_› shown (ih plain.1.1) (ih plain.1.2) (ih plain.2)
      · cases plain

/-- Whether a program without declarations is plain, looked at down to the given depth. -/
def plainUpTo (view : View) (t : Tree) : Nat → NodeId → Bool
  | 0, _ => false
  | depth + 1, id =>
    let deeper := t.plainUpTo view depth
    let value := t.plainExpressionUpTo view depth
    value id || match t.form id with
      | .empty | .returnStatement none | .breakStatement none | .continueStatement none => true
      | .program statements _ | .block statements none false => statements.all deeper
      | .ifStatement x y none => value x && deeper y
      | .ifStatement x y (some z) => value x && deeper y && deeper z
      | .whileLoop x y => value x && deeper y
      | .switchStatement x cases _ => value x && cases.all fun c => match t.form c with
        | .switchCase test statements => test.all value && statements.all deeper
        | _ => false
      | .returnStatement (some x) | .throwStatement x => value x
      | _ => false

theorem plain_of_upTo {view : View} {t : Tree} {depth : Nat} {id : NodeId}
    (plain : t.plainUpTo view depth id) : t.Plain view id := by
  induction depth generalizing id with
  | zero => cases plain
  | succ depth ih =>
    unfold plainUpTo at plain
    dsimp only at plain
    rw [Bool.or_eq_true] at plain
    rcases plain with plain | plain
    · exact .expression (plainExpression_of_upTo plain)
    have all {statements : List NodeId} (each : statements.all (t.plainUpTo view depth)) :
        ∀ s ∈ statements, t.Plain view s := fun s member => ih (all_eq_true.mp each s member)
    split at plain
    · exact .empty ‹_›
    · exact .returnNothing ‹_›
    · exact .breakLoop ‹_›
    · exact .continueLoop ‹_›
    · exact .list (by simp [‹t.form id = _›, View.list?]) (all plain)
    · exact .list (by simp [‹t.form id = _›, View.list?]) (all plain)
    · rw [Bool.and_eq_true] at plain
      exact .branch ‹_› (plainExpression_of_upTo plain.1) (ih plain.2)
    · rw [Bool.and_eq_true, Bool.and_eq_true] at plain
      exact .branches ‹_› (plainExpression_of_upTo plain.1.1) (ih plain.1.2) (ih plain.2)
    · rw [Bool.and_eq_true] at plain
      exact .loop ‹_› (plainExpression_of_upTo plain.1) (ih plain.2)
    · rename_i discriminant cases scope form
      rw [Bool.and_eq_true, all_eq_true] at plain
      have clauses (c : NodeId) (member : c ∈ cases) : ∃ test statements, t.form c = .switchCase test statements ∧
          (∀ id ∈ test, t.PlainExpression view id) ∧ ∀ s ∈ statements, t.Plain view s := by
        have clause := plain.2 c member
        split at clause
        · rename_i test statements form
          rw [Bool.and_eq_true, Option.all_eq_true] at clause
          exact ⟨test, statements, form, fun id found => plainExpression_of_upTo (clause.1 id found), all clause.2⟩
        · cases clause
      refine .switch form (plainExpression_of_upTo plain.1) (fun c member => ?_) fun c member => ?_
      · obtain ⟨test, statements, form, tests, -⟩ := clauses c member
        exact ⟨test, statements, form, tests⟩
      · obtain ⟨test, statements, form, -, inside⟩ := clauses c member
        exact .list (by simp [form, View.list?]) inside
    · exact .returnValue ‹_› (plainExpression_of_upTo plain)
    · exact .throwValue ‹_› (plainExpression_of_upTo plain)
    · cases plain

variable {V : Type}

/-- The expression at a node does what the evaluation says. -/
inductive Evaluates (view : View) (w : World V) (t : Tree) : NodeId → Evaluation V → Prop
  | event {id : NodeId} (expression : (t.form id).isExpression = true)
      (hidden : view.hides (t.form id) = true) : Evaluates view w t id (.event w id)
  | constant {id : NodeId} {literal : Literal} (form : t.form id = .constant literal)
      (shown : view.hides (t.form id) = false) : Evaluates view w t id (.constant literal)
  | grouping {id inner : NodeId} {e : Evaluation V} (form : t.form id = .grouping inner)
      (inside : Evaluates view w t inner e) : Evaluates view w t id e
  | negation {id operand : NodeId} {e : Evaluation V} (form : t.form id = .unary .not operand)
      (shown : view.hides (t.form id) = false) (inside : Evaluates view w t operand e) :
      Evaluates view w t id (.negation w e)
  | comma {id left right : NodeId} {l r : Evaluation V} (form : t.form id = .binary .comma left right)
      (shown : view.hides (t.form id) = false) (first : Evaluates view w t left l)
      (second : Evaluates view w t right r) : Evaluates view w t id (.comma l r)
  | conjunction {id left right : NodeId} {l r : Evaluation V} (form : t.form id = .binary .and left right)
      (shown : view.hides (t.form id) = false) (first : Evaluates view w t left l)
      (second : Evaluates view w t right r) : Evaluates view w t id (.conjunction w l r)
  | choice {id condition consequent alternate : NodeId} {c yes no : Evaluation V}
      (form : t.form id = .conditional condition consequent alternate)
      (shown : view.hides (t.form id) = false) (test : Evaluates view w t condition c)
      (first : Evaluates view w t consequent yes) (second : Evaluates view w t alternate no) :
      Evaluates view w t id (.choice w c yes no)

inductive Tests (view : View) (w : World V) (t : Tree) : NodeId → Option (NodeId × Evaluation V) → Prop
  | default {id : NodeId} {statements : List NodeId} (form : t.form id = .switchCase none statements) :
      Tests view w t id none
  | test {id test : NodeId} {statements : List NodeId} {e : Evaluation V}
      (form : t.form id = .switchCase (some test) statements) (inside : Evaluates view w t test e) :
      Tests view w t id (some (test, e))

/-- The statement at a node has the given effect. -/
inductive Means (view : View) (w : World V) (t : Tree) : NodeId → Effect V → Prop
  | expression {id : NodeId} {e : Evaluation V} (inside : t.Evaluates view w id e) : Means view w t id (.perform e)
  | empty {id : NodeId} (form : t.form id = .empty) : Means view w t id .skip
  | list {id : NodeId} {statements : List NodeId} {effects : List (Effect V)}
      (form : view.list? (t.form id) = some statements) (length : statements.length = effects.length)
      (inside : ∀ s e, (s, e) ∈ statements.zip effects → Means view w t s e) : Means view w t id (.sequence effects)
  | bareDeclarator {id target : NodeId} (seen : view = .operators) (form : t.form id = .declarator target none)
      (plain : (t.form target).IsBinding) : Means view w t id .skip
  | declarator {id target init : NodeId} {e : Evaluation V} (seen : view = .operators)
      (form : t.form id = .declarator target (some init)) (plain : (t.form target).IsBinding)
      (inside : t.Evaluates view w init e) : Means view w t id (.perform e)
  | branch {id condition consequent : NodeId} {c : Evaluation V} {yes : Effect V}
      (form : t.form id = .ifStatement condition consequent none) (test : t.Evaluates view w condition c)
      (first : Means view w t consequent yes) : Means view w t id (.branch w c yes .skip)
  | branches {id condition consequent alternate : NodeId} {c : Evaluation V} {yes no : Effect V}
      (form : t.form id = .ifStatement condition consequent (some alternate)) (test : t.Evaluates view w condition c)
      (first : Means view w t consequent yes) (second : Means view w t alternate no) :
      Means view w t id (.branch w c yes no)
  | loop {id condition body : NodeId} {c : Evaluation V} {e : Effect V} (form : t.form id = .whileLoop condition body)
      (test : t.Evaluates view w condition c) (inside : Means view w t body e) :
      Means view w t id (.repeatWhile w c e)
  | switch {id discriminant : NodeId} {cases : List NodeId} {scope : Option ScopeId} {d : Evaluation V}
      {clauses : List (Clause V)} (form : t.form id = .switchStatement discriminant cases scope)
      (value : t.Evaluates view w discriminant d) (length : cases.length = clauses.length)
      (tests : ∀ c k, (c, k) ∈ cases.zip clauses → t.Tests view w c k.test)
      (inside : ∀ c k, (c, k) ∈ cases.zip clauses → Means view w t c k.body) :
      Means view w t id (.switch w d clauses)
  | returnNothing {id : NodeId} (form : t.form id = .returnStatement none) :
      Means view w t id (.ending (.returned none))
  | returnValue {id value : NodeId} {e : Evaluation V} (form : t.form id = .returnStatement (some value))
      (inside : t.Evaluates view w value e) : Means view w t id (.endWith (fun v => .returned (some v)) e)
  | throwValue {id value : NodeId} {e : Evaluation V} (form : t.form id = .throwStatement value)
      (inside : t.Evaluates view w value e) : Means view w t id (.endWith .thrown e)
  | breakLoop {id : NodeId} (form : t.form id = .breakStatement none) : Means view w t id (.ending .broken)
  | continueLoop {id : NodeId} (form : t.form id = .continueStatement none) : Means view w t id (.ending .continued)

/-- The program at a node ends in the given way with the given trace. -/
def Runs (view : View) (w : World V) (t : Tree) (id : NodeId) (completion : Completion V) (trace : Trace) : Prop :=
  ∃ effect, t.Means view w id effect ∧ effect [] = (completion, trace)

variable {view : View} {w : World V} {t : Tree} {id : NodeId}

theorem PlainExpression.evaluates (w : World V) (plain : t.PlainExpression view id) : ∃ e, t.Evaluates view w id e := by
  induction plain with
  | event expression hidden => exact ⟨_, .event expression hidden⟩
  | constant form shown => exact ⟨_, .constant form shown⟩
  | grouping form _ ih =>
    obtain ⟨e, inside⟩ := ih
    exact ⟨_, .grouping form inside⟩
  | negation form shown _ ih =>
    obtain ⟨e, inside⟩ := ih
    exact ⟨_, .negation form shown inside⟩
  | comma form shown _ _ left right =>
    obtain ⟨l, first⟩ := left
    obtain ⟨r, second⟩ := right
    exact ⟨_, .comma form shown first second⟩
  | conjunction form shown _ _ left right =>
    obtain ⟨l, first⟩ := left
    obtain ⟨r, second⟩ := right
    exact ⟨_, .conjunction form shown first second⟩
  | choice form shown _ _ _ condition consequent alternate =>
    obtain ⟨c, test⟩ := condition
    obtain ⟨yes, first⟩ := consequent
    obtain ⟨no, second⟩ := alternate
    exact ⟨_, .choice form shown test first second⟩

/-- Where each member of a list is related to something, the whole list is. -/
theorem exists_zip {α β : Type} {R : α → β → Prop} (xs : List α) (each : ∀ x ∈ xs, ∃ y, R x y) :
    ∃ ys : List β, xs.length = ys.length ∧ ∀ x y, (x, y) ∈ xs.zip ys → R x y := by
  induction xs with
  | nil => exact ⟨[], rfl, by simp⟩
  | cons x xs ih =>
    obtain ⟨y, here⟩ := each x (.head _)
    obtain ⟨ys, length, rest⟩ := ih fun x member => each x (.tail _ member)
    refine ⟨y :: ys, by simp [length], fun a b member => ?_⟩
    rcases mem_cons.mp member with same | member
    · cases same
      exact here
    · exact rest a b member

theorem Plain.means (w : World V) (plain : t.Plain view id) : ∃ effect, t.Means view w id effect := by
  induction plain with
  | expression inside =>
    obtain ⟨e, inside⟩ := inside.evaluates w
    exact ⟨_, .expression inside⟩
  | empty form => exact ⟨_, .empty form⟩
  | list form _ ih =>
    obtain ⟨effects, length, inside⟩ := exists_zip _ ih
    exact ⟨_, .list form length inside⟩
  | bareDeclarator seen form plain => exact ⟨_, .bareDeclarator seen form plain⟩
  | declarator seen form plain inside =>
    obtain ⟨e, inside⟩ := inside.evaluates w
    exact ⟨_, .declarator seen form plain inside⟩
  | branch form test _ first =>
    obtain ⟨c, test⟩ := test.evaluates w
    obtain ⟨yes, first⟩ := first
    exact ⟨_, .branch form test first⟩
  | branches form test _ _ first second =>
    obtain ⟨c, test⟩ := test.evaluates w
    obtain ⟨yes, first⟩ := first
    obtain ⟨no, second⟩ := second
    exact ⟨_, .branches form test first second⟩
  | loop form test _ ih =>
    obtain ⟨c, test⟩ := test.evaluates w
    obtain ⟨e, inside⟩ := ih
    exact ⟨_, .loop form test inside⟩
  | @switch id discriminant cases scope form value clauses _ ih =>
    obtain ⟨d, value⟩ := value.evaluates w
    have each (c : NodeId) (member : c ∈ cases) :
        ∃ k : Clause V, t.Tests view w c k.test ∧ t.Means view w c k.body := by
      obtain ⟨test, statements, form, plain⟩ := clauses c member
      obtain ⟨body, inside⟩ := ih c member
      cases test with
      | none => exact ⟨⟨none, body⟩, .default form, inside⟩
      | some test =>
        obtain ⟨e, value⟩ := (plain test rfl).evaluates w
        exact ⟨⟨some (test, e), body⟩, .test form value, inside⟩
    obtain ⟨clauses, length, inside⟩ := exists_zip _ each
    exact ⟨_, .switch form value length (fun c k member => (inside c k member).1)
      fun c k member => (inside c k member).2⟩
  | returnNothing form => exact ⟨_, .returnNothing form⟩
  | returnValue form inside =>
    obtain ⟨e, inside⟩ := inside.evaluates w
    exact ⟨_, .returnValue form inside⟩
  | throwValue form inside =>
    obtain ⟨e, inside⟩ := inside.evaluates w
    exact ⟨_, .throwValue form inside⟩
  | breakLoop form => exact ⟨_, .breakLoop form⟩
  | continueLoop form => exact ⟨_, .continueLoop form⟩

theorem Evaluates.isExpression {e : Evaluation V} (evaluates : t.Evaluates view w id e) :
    (t.form id).isExpression := by
  cases evaluates <;> simp_all [Form.isExpression]

theorem not_evaluates {e : Evaluation V} (other : (t.form id).isExpression = false) : ¬ t.Evaluates view w id e :=
  fun evaluates => Bool.false_ne_true (other.symm.trans evaluates.isExpression)

theorem isExpression_of_list? {form : Form NodeId} {statements : List NodeId}
    (list : view.list? form = some statements) : form.isExpression = false := by
  unfold View.list? at list
  split at list <;> first | rfl | cases list

-- What follows tells apart forms that are known.
attribute [local simp] Form.isExpression View.list? not_evaluates

namespace Means

variable {e : Effect V} (means : t.Means view w id e)

include means

theorem of_expression (expression : (t.form id).isExpression) :
    ∃ v, t.Evaluates view w id v ∧ e = .perform v := by
  cases means with
  | expression inside => exact ⟨_, inside, rfl⟩
  | list form => cases expression.symm.trans (isExpression_of_list? form)
  | _ => simp_all

theorem of_list {statements : List NodeId} (list : view.list? (t.form id) = some statements) :
    ∃ effects, statements.length = effects.length ∧
      (∀ s e, (s, e) ∈ statements.zip effects → t.Means view w s e) ∧ e = .sequence effects := by
  cases means with
  | expression inside => exact absurd inside (not_evaluates (isExpression_of_list? list))
  | list form length inside =>
    obtain rfl := Option.some.inj (list.symm.trans form)
    exact ⟨_, length, inside, rfl⟩
  | _ => simp_all

theorem of_branch {condition consequent : NodeId} (form : t.form id = .ifStatement condition consequent none) :
    ∃ c yes, t.Evaluates view w condition c ∧ t.Means view w consequent yes ∧ e = .branch w c yes .skip := by
  cases means with
  | branch form' test first =>
    obtain ⟨rfl, rfl, -⟩ := Form.ifStatement.inj (form.symm.trans form')
    exact ⟨_, _, test, first, rfl⟩
  | _ => simp_all

theorem of_branches {condition consequent alternate : NodeId}
    (form : t.form id = .ifStatement condition consequent (some alternate)) :
    ∃ c yes no, t.Evaluates view w condition c ∧ t.Means view w consequent yes ∧ t.Means view w alternate no ∧
        e = .branch w c yes no := by
  cases means with
  | branches form' test first second =>
    obtain ⟨rfl, rfl, same⟩ := Form.ifStatement.inj (form.symm.trans form')
    cases same
    exact ⟨_, _, _, test, first, second, rfl⟩
  | _ => simp_all

theorem of_switch {discriminant : NodeId} {cases : List NodeId} {scope : Option ScopeId}
    (form : t.form id = .switchStatement discriminant cases scope) :
    ∃ d clauses, t.Evaluates view w discriminant d ∧ cases.length = clauses.length ∧
        (∀ c k, (c, k) ∈ cases.zip clauses → t.Tests view w c k.test) ∧
        (∀ c k, (c, k) ∈ cases.zip clauses → t.Means view w c k.body) ∧ e = .switch w d clauses := by
  cases means with
  | switch form' value length tests inside =>
    obtain ⟨rfl, rfl, -⟩ := switchStatement.inj (form.symm.trans form')
    exact ⟨_, _, value, length, tests, inside, rfl⟩
  | _ => simp_all

theorem of_returnValue {value : NodeId} (form : t.form id = .returnStatement (some value)) :
    ∃ v, t.Evaluates view w value v ∧ e = .endWith (fun v => .returned (some v)) v := by
  cases means with
  | returnValue form' inside =>
    obtain rfl := Option.some.inj (returnStatement.inj (form.symm.trans form'))
    exact ⟨_, inside, rfl⟩
  | _ => simp_all

theorem of_throwValue {value : NodeId} (form : t.form id = .throwStatement value) :
    ∃ v, t.Evaluates view w value v ∧ e = .endWith .thrown v := by
  cases means with
  | throwValue form' inside =>
    obtain rfl := throwStatement.inj (form.symm.trans form')
    exact ⟨_, inside, rfl⟩
  | _ => simp_all

end Means

theorem Evaluates.unique {e e' : Evaluation V} (first : t.Evaluates view w id e) (second : t.Evaluates view w id e') :
    e = e' := by
  induction first generalizing e' with
  | event _ hidden => cases second <;> simp_all [View.hides]
  | constant form shown => cases second <;> simp_all
  | grouping form _ ih =>
    cases second with
    | grouping form' inside =>
      obtain rfl := Form.grouping.inj (form.symm.trans form')
      exact ih inside
    | _ => simp_all [View.hides]
  | negation form shown _ ih =>
    cases second with
    | negation form' _ inside =>
      obtain ⟨-, rfl⟩ := unary.inj (form.symm.trans form')
      rw [ih inside]
    | _ => simp_all
  | comma form shown _ _ left right =>
    cases second with
    | comma form' _ first second =>
      obtain ⟨-, rfl, rfl⟩ := Form.binary.inj (form.symm.trans form')
      rw [left first, right second]
    | _ => simp_all
  | conjunction form shown _ _ left right =>
    cases second with
    | conjunction form' _ first second =>
      obtain ⟨-, rfl, rfl⟩ := Form.binary.inj (form.symm.trans form')
      rw [left first, right second]
    | _ => simp_all
  | choice form shown _ _ _ condition consequent alternate =>
    cases second with
    | choice form' _ test first second =>
      obtain ⟨rfl, rfl, rfl⟩ := conditional.inj (form.symm.trans form')
      rw [condition test, consequent first, alternate second]
    | _ => simp_all

theorem Tests.unique {test test' : Option (NodeId × Evaluation V)} (first : t.Tests view w id test)
    (second : t.Tests view w id test') : test = test' := by
  cases first with
  | default form => cases second <;> simp_all
  | test form inside =>
    cases second with
    | default form' => simp_all
    | test form' inside' =>
      obtain ⟨same, -⟩ := switchCase.inj (form.symm.trans form')
      cases same
      rw [inside.unique inside']

/-- Lists that a relation with one result relates to the same list are equal. -/
theorem zip_unique {α β : Type} {R R' : α → β → Prop} {xs : List α} {ys zs : List β} (length : xs.length = ys.length)
    (length' : xs.length = zs.length) (first : ∀ x y, (x, y) ∈ xs.zip ys → R x y)
    (second : ∀ x z, (x, z) ∈ xs.zip zs → R' x z) (one : ∀ x y z, R x y → R' x z → y = z) : ys = zs := by
  refine ext_getElem (length.symm.trans length') fun i here there => ?_
  have range : i < xs.length := length ▸ here
  exact one xs[i] _ _ (first _ _ (mem_iff_getElem.mpr ⟨i, by simp; omega, by simp⟩))
    (second _ _ (mem_iff_getElem.mpr ⟨i, by simp; omega, by simp⟩))

/-- A tree has at most one meaning. -/
theorem Means.unique {e e' : Effect V} (first : t.Means view w id e) (second : t.Means view w id e') : e = e' := by
  induction first generalizing e' with
  | expression inside =>
    obtain ⟨v, inside', rfl⟩ := second.of_expression inside.isExpression
    rw [inside.unique inside']
  | empty form | bareDeclarator seen form plain | returnNothing form | breakLoop form | continueLoop form =>
    cases second <;> simp_all
  | list form length _ ih =>
    obtain ⟨effects, length', inside', rfl⟩ := second.of_list form
    exact congrArg Effect.sequence (zip_unique length length' ih inside' fun s e e' ih inside => ih inside)
  | declarator seen form plain inside =>
    cases second with
    | declarator _ form' _ inside' =>
      obtain rfl := Option.some.inj (Form.declarator.inj (form.symm.trans form')).2
      rw [inside.unique inside']
    | _ => simp_all
  | branch form test _ ih =>
    obtain ⟨c, yes, test', first', rfl⟩ := second.of_branch form
    rw [test.unique test', ih first']
  | branches form test _ _ ih ih' =>
    obtain ⟨c, yes, no, test', first', second', rfl⟩ := second.of_branches form
    rw [test.unique test', ih first', ih' second']
  | loop form test _ ih =>
    cases second with
    | loop form' test' inside' =>
      obtain ⟨rfl, rfl⟩ := whileLoop.inj (form.symm.trans form')
      rw [test.unique test', ih inside']
    | _ => simp_all
  | switch form value length tests _ ih =>
    obtain ⟨d, clauses, value', length', tests', inside', rfl⟩ := second.of_switch form
    have same := zip_unique length length' (fun c k member => And.intro (tests c k member) (@ih c k member))
      (fun c k member => And.intro (tests' c k member) (inside' c k member)) fun c k k' first second =>
        Clause.ext (first.1.unique second.1) (first.2 second.2)
    rw [value.unique value', same]
  | returnValue form inside =>
    obtain ⟨v, inside', rfl⟩ := second.of_returnValue form
    rw [inside.unique inside']
  | throwValue form inside =>
    obtain ⟨v, inside', rfl⟩ := second.of_throwValue form
    rw [inside.unique inside']

end Tree

end Condense
