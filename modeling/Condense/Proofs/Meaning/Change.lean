import Condense.Proofs.Meaning.Program
import Condense.Proofs.Minify.Proper

/-!
What changes to a tree leave of its meaning.
-/

attribute [local simp] Condense.Form.children

namespace Condense

namespace View

variable {view : View} {form : Form NodeId} {statements : List NodeId}

theorem list?_subset (list : view.list? form = some statements) : statements ⊆ form.children := by
  unfold list? at list
  split at list
  all_goals simp_all [Form.children]

/-- Whether a view gives a meaning to statements of a form. -/
def knows (view : View) (form : Form NodeId) : Bool :=
  form.isExpression || (view.list? form).isSome || match view, form with
    | _, .empty | _, .ifStatement .. | _, .whileLoop .. | _, .switchStatement .. | _, .returnStatement _
    | _, .throwStatement _ | _, .breakStatement none | _, .continueStatement none | .operators, .declarator .. => true
    | _, _ => false

@[simp] theorem hides_notConcise : view.hides form.notConcise = view.hides form := by
  cases form <;> rfl

theorem list?_notConcise (list : view.list? form = some statements) : view.list? form.notConcise = some statements := by
  unfold list? at list
  split at list
  all_goals simp_all [list?, Form.notConcise]

end View

namespace Form

@[simp] theorem isExpression_notConcise {α : Type} (form : Form α) :
    form.notConcise.isExpression = form.isExpression := by
  cases form <;> rfl

end Form

namespace Tree

variable {V : Type} {view : View} {w : World V} {t t' : Tree} {root x : NodeId} {statements statements' : List NodeId}
  {t'' : Tree}

/-- From the nodes below a node to the node itself. -/
theorem Rooted.inward_induction (rooted : t.Rooted root) {motive : NodeId → Prop}
    (step : ∀ x, t.Below root x → (∀ y, t.Below x y → y ≠ x → motive y) → motive x)
    (below : t.Below root x) : motive x := by
  obtain ⟨steps, arrives⟩ := below
  -- The way up from a node gets longer with every link, and it is shorter than the store is large.
  induction room : t.size - steps using Nat.strong_induction_on generalizing x steps with
  | _ room ih =>
    refine step x ⟨steps, arrives⟩ fun y ⟨more, up⟩ different => ?_
    have longer : t.climb (more + steps) y = some root := by
      rwa [climb_add, up]
    have bound := rooted.steps_lt_size longer
    have positive : more ≠ 0 := by
      rintro rfl
      exact different (Option.some.inj up)
    exact ih (t.size - (more + steps)) (by omega) (more + steps) longer rfl

theorem Rooted.child_below (rooted : t.Rooted root) (live : t.Below root x) {child : NodeId}
    (slot : child ∈ t.children x) : t.Below x child ∧ child ≠ x := by
  have link := rooted.linked live slot
  refine ⟨.link link (.refl x), ?_⟩
  rintro rfl
  exact not_below_of_link rooted.top live link (.refl child)

theorem Rooted.deeper (rooted : t.Rooted root) (live : t.Below root x) {y z : NodeId}
    (first : t.Below x y ∧ y ≠ x) (second : t.Below y z) : t.Below x z ∧ z ≠ x := by
  refine ⟨first.1.trans second, ?_⟩
  rintro rfl
  exact first.2 (Below.antisymm rooted.top (live.trans first.1) second first.1)

/-- What a node means in one tree, it means in another. -/
structure KeepsMeaning (view : View) (w : World V) (t t' : Tree) (x : NodeId) : Prop where
  evaluates : ∀ e, t.Evaluates view w x e → t'.Evaluates view w x e
  means : ∀ e, t.Means view w x e → t'.Means view w x e
  tests : ∀ test, t.Tests view w x test → t'.Tests view w x test
  binding : (t.form x).IsBinding → (t'.form x).IsBinding

theorem KeepsMeaning.refl : KeepsMeaning view w t t x :=
  ⟨fun _ => id, fun _ => id, fun _ => id, id⟩

theorem KeepsMeaning.trans (first : KeepsMeaning view w t t' x) (second : KeepsMeaning view w t' t'' x) :
    KeepsMeaning view w t t'' x :=
  ⟨fun e old => second.evaluates e (first.evaluates e old), fun e old => second.means e (first.means e old),
    fun test old => second.tests test (first.tests test old), fun old => second.binding (first.binding old)⟩

/-- A plain program has one run, and what keeps its meaning has the same one. -/
theorem KeepsMeaning.runs (kept : KeepsMeaning view w t t' x) (plain : t.Plain view x) :
    (∃! run : Completion V × Trace, t.Runs view w x run.1 run.2) ∧
      ∀ completion trace, t'.Runs view w x completion trace ↔ t.Runs view w x completion trace := by
  obtain ⟨effect, means⟩ := plain.means w
  refine ⟨⟨effect [], ⟨effect, means, rfl⟩, ?_⟩, fun completion trace => ⟨?_, ?_⟩⟩
  · rintro run ⟨other, means', result⟩
    rw [means.unique means', result]
  · rintro ⟨other, means', result⟩
    exact ⟨effect, means, by rw [(kept.means effect means).unique means', result]⟩
  · rintro ⟨other, means', result⟩
    exact ⟨other, kept.means other means', result⟩

/-- Meanings are kept below a root if each node keeps its own wherever those below it do. Nodes that are out of
account need not keep theirs. -/
theorem Rooted.keeps (rooted : t.Rooted root) (lost : NodeId → Prop)
    (step : ∀ x, t.Below root x → ¬ lost x → (∀ y, t.Below x y → y ≠ x → ¬ lost y → KeepsMeaning view w t t' y) →
      KeepsMeaning view w t t' x) (below : t.Below root x) (counts : ¬ lost x) : KeepsMeaning view w t t' x := by
  refine rooted.inward_induction (motive := fun x => ¬ lost x → KeepsMeaning view w t t' x) ?_ below counts
  exact fun x below inside counts => step x below counts inside

/-- A whole tree keeps its meaning if each node keeps its own wherever its children do. -/
theorem Rooted.keeps_of_children (rooted : t.Rooted root)
    (step : ∀ x, t.Below root x → (∀ child ∈ t.children x, KeepsMeaning view w t t' child) → KeepsMeaning view w t t' x) :
    KeepsMeaning view w t t' root := by
  refine rooted.keeps (fun _ => False) (fun x live _ inside => ?_) (.refl root) not_false
  refine step x live fun child slot => ?_
  exact inside child (rooted.child_below live slot).1 (rooted.child_below live slot).2 not_false

section

variable (same : t'.form x = t.form x) (inside : ∀ child ∈ t.children x, KeepsMeaning view w t t' child)

include same inside

theorem Evaluates.of_form {e : Evaluation V} (old : t.Evaluates view w x e) : t'.Evaluates view w x e := by
  have deeper {child : NodeId} {e : Evaluation V} (slot : child ∈ t.children x) (old : t.Evaluates view w child e) :=
    (inside child slot).evaluates e old
  cases old with
  | event expression hidden => exact .event (same ▸ expression) (same ▸ hidden)
  | constant form shown => exact .constant (same ▸ form) (same ▸ shown)
  | grouping form inner =>
    exact .grouping (same ▸ form) (deeper (by simp [form]) inner)
  | negation form shown inner =>
    exact .negation (same ▸ form) (same ▸ shown) (deeper (by simp [form]) inner)
  | comma form shown first second =>
    exact .comma (same ▸ form) (same ▸ shown) (deeper (by simp [form]) first) (deeper (by simp [form]) second)
  | conjunction form shown first second =>
    exact .conjunction (same ▸ form) (same ▸ shown) (deeper (by simp [form]) first) (deeper (by simp [form]) second)
  | choice form shown test first second =>
    exact .choice (same ▸ form) (same ▸ shown) (deeper (by simp [form]) test) (deeper (by simp [form]) first)
      (deeper (by simp [form]) second)

theorem Means.of_form {e : Effect V} (old : t.Means view w x e) : t'.Means view w x e := by
  have deeper {child : NodeId} (slot : child ∈ t.children x) := inside child slot
  cases old with
  | expression inner => exact .expression (inner.of_form same inside)
  | empty form => exact .empty (same ▸ form)
  | list form length inner =>
    refine .list (same ▸ form) length fun s e member => ?_
    exact (deeper (View.list?_subset form (List.of_mem_zip member).1)).means e (inner s e member)
  | bareDeclarator seen form plain =>
    exact .bareDeclarator seen (same ▸ form) ((deeper (by simp [form])).binding plain)
  | declarator seen form plain inner =>
    exact .declarator seen (same ▸ form) ((deeper (by simp [form])).binding plain)
      ((deeper (by simp [form])).evaluates _ inner)
  | branch form test first =>
    exact .branch (same ▸ form) ((deeper (by simp [form])).evaluates _ test) ((deeper (by simp [form])).means _ first)
  | branches form test first second =>
    exact .branches (same ▸ form) ((deeper (by simp [form])).evaluates _ test)
      ((deeper (by simp [form])).means _ first)
      ((deeper (by simp [form])).means _ second)
  | loop form test inner =>
    exact .loop (same ▸ form) ((deeper (by simp [form])).evaluates _ test) ((deeper (by simp [form])).means _ inner)
  | switch form value length tests inner =>
    refine .switch (same ▸ form) ((deeper (by simp [form])).evaluates _ value) length
      (fun c k member => ?_) fun c k member => ?_
    all_goals have clause := deeper (show c ∈ _ by simp [children, form, Form.children, (List.of_mem_zip member).1])
    · exact clause.tests _ (tests c k member)
    · exact clause.means _ (inner c k member)
  | returnNothing form => exact .returnNothing (same ▸ form)
  | returnValue form inner =>
    exact .returnValue (same ▸ form) ((deeper (by simp [form])).evaluates _ inner)
  | throwValue form inner =>
    exact .throwValue (same ▸ form) ((deeper (by simp [form])).evaluates _ inner)
  | breakLoop form => exact .breakLoop (same ▸ form)
  | continueLoop form => exact .continueLoop (same ▸ form)

/-- A node with the same form keeps its meaning if all that it holds do. -/
theorem KeepsMeaning.of_form : KeepsMeaning view w t t' x := by
  refine ⟨fun e old => old.of_form same inside, fun e old => old.of_form same inside, fun test old => ?_,
    fun old => same ▸ old⟩
  cases old with
  | default form => exact .default (same ▸ form)
  | test form inner =>
    exact .test (same ▸ form) ((inside _ (by simp [form])).evaluates _ inner)

end

/-- Below a node all keep their meaning where all keep their forms. -/
theorem Rooted.keeps_of_forms {top : NodeId} (rooted : t.Rooted root) (below : t.Below root top)
    (same : ∀ y, t.Below top y → t'.form y = t.form y) : KeepsMeaning view w t t' top := by
  have lower : ∀ y, t.Below root y → t.Below top y → KeepsMeaning view w t t' y := fun y live => by
    refine rooted.inward_induction (motive := fun y => t.Below top y → KeepsMeaning view w t t' y) ?_ live
    intro y live inside under
    refine .of_form (same y under) fun child slot => ?_
    obtain ⟨lower, different⟩ := rooted.child_below live slot
    exact inside child lower different (under.trans lower)
  exact lower top below (.refl top)

/-- An event stays one whatever happens inside of it. -/
theorem KeepsMeaning.of_hidden (expression : (t.form x).isExpression) (hidden : view.hides (t.form x))
    (expression' : (t'.form x).isExpression) (hidden' : view.hides (t'.form x)) :
    KeepsMeaning view w t t' x := by
  have evaluates (e : Evaluation V) (old : t.Evaluates view w x e) : t'.Evaluates view w x e := by
    rw [old.unique (.event expression hidden)]
    exact .event expression' hidden'
  refine ⟨evaluates, fun e old => ?_, fun test old => ?_, fun ⟨name, field, form⟩ => ?_⟩
  · obtain ⟨v, inner, rfl⟩ := old.of_expression expression
    exact .expression (evaluates v inner)
  · cases old <;> simp_all [Form.isExpression]
  · simp [form, Form.isExpression] at expression

/-- A list keeps its meaning if what stands in it now has the effect of what stood in it. -/
theorem KeepsMeaning.of_list (list : view.list? (t.form x) = some statements)
    (list' : view.list? (t'.form x) = some statements') (tests : ∀ test, t.Tests view w x test → t'.Tests view w x test)
    (same : ∀ effects, statements.length = effects.length →
      (∀ s e, (s, e) ∈ statements.zip effects → t.Means view w s e) →
      ∃ effects', statements'.length = effects'.length ∧
        (∀ s e, (s, e) ∈ statements'.zip effects' → t'.Means view w s e) ∧
        Effect.sequence effects' = Effect.sequence effects) : KeepsMeaning view w t t' x := by
  have statement := isExpression_of_list? list
  refine ⟨fun e old => ?_, fun e old => ?_, tests, fun ⟨name, field, form⟩ => ?_⟩
  · have expression := old.isExpression
    simp [statement] at expression
  · obtain ⟨effects, length, inside, rfl⟩ := old.of_list list
    obtain ⟨effects', length', inside', equal⟩ := same effects length inside
    rw [← equal]
    exact .list list' length' inside'
  · simp [form, View.list?] at list

theorem Means.knows {e : Effect V} (means : t.Means view w x e) : view.knows (t.form x) := by
  cases means with
  | expression inside => simp [View.knows, inside.isExpression]
  | list form => simp [View.knows, form]
  | bareDeclarator seen form | declarator seen form =>
    subst seen
    simp [View.knows, form]
  | _ => simp_all [View.knows]

/-- What has no meaning keeps it. -/
theorem KeepsMeaning.of_unknown (unknown : view.knows (t.form x) = false) (nameless : ¬ (t.form x).IsBinding) :
    KeepsMeaning view w t t' x := by
  refine ⟨fun e old => ?_, fun e old => ?_, fun test old => ?_, fun name => absurd name nameless⟩
  · simp [(Means.expression old).knows] at unknown
  · simp [old.knows] at unknown
  · cases old with
    | default form | test form => simp [View.knows, form, View.list?] at unknown

/-- Blocks with a scope of their own, concise bodies and conditional comments are out of sight. -/
theorem KeepsMeaning.of_unseen (isList : (t.form x).statementList? ≠ none) (unseen : view.list? (t.form x) = none) :
    KeepsMeaning view w t t' x := by
  unfold Form.statementList? at isList
  split at isList
  all_goals
    refine .of_unknown ?_ fun ⟨name, field, form⟩ => ?_
    all_goals simp_all [View.knows, View.list?, Form.isExpression]

/-- A list has other statements, and may no longer be a concise body. -/
def Relisted (t t' : Tree) (list : NodeId) (statements : List NodeId) : Prop :=
  t'.form list = (t.form list).withStatements statements ∨
    t'.form list = ((t.form list).withStatements statements).notConcise

theorem Relisted.trans {list : NodeId} (first : t.Relisted t' list statements)
    (second : t'.Relisted t'' list statements') : t.Relisted t'' list statements' := by
  unfold Relisted
  rcases first with first | first <;> rcases second with second | second <;> rw [second, first]
  all_goals cases t.form list <;> simp [Form.withStatements, Form.notConcise]

section

variable (isList : (t.form x).statementList? = some statements) (relisted : t.Relisted t' x statements')

include isList relisted

theorem Relisted.statementList? : (t'.form x).statementList? = some statements' := by
  unfold Relisted at relisted
  cases form : t.form x <;> rw [form] at relisted isList <;> cases isList <;>
    rcases relisted with after | after <;> rw [after] <;> rfl

theorem Relisted.list? {seen : List NodeId} (list : view.list? (t.form x) = some seen) :
    seen = statements ∧ view.list? (t'.form x) = some statements' := by
  unfold Relisted at relisted
  cases form : t.form x <;> rw [form] at relisted isList list <;> cases isList
  case ccComment => simp [View.list?] at list
  case block scope concise =>
    obtain ⟨rfl, rfl, rfl⟩ : scope = none ∧ concise = false ∧ statements = seen := by
      unfold View.list? at list
      split at list <;> simp_all
    exact ⟨rfl, by rw [relisted.elim id id]; rfl⟩
  all_goals
    cases list
    exact ⟨rfl, by rw [relisted.elim id id]; rfl⟩

variable (distinct : (t.children x).Nodup)
  (inside : ∀ child ∈ t.children x, child ∉ statements → KeepsMeaning view w t t' child)

include distinct inside

theorem Relisted.tests {test : Option (NodeId × Evaluation V)} (tests : t.Tests view w x test) :
    t'.Tests view w x test := by
  unfold Relisted at relisted
  cases tests with
  | default form =>
    rw [form] at relisted
    exact .default (relisted.elim id id)
  | @test node _ _ form inner =>
    rw [form] at relisted isList
    cases isList
    have slots : t.children x = node :: statements := by simp [children, form]
    have kept := inside node (by simp [slots]) (List.nodup_cons.mp (slots ▸ distinct)).1
    exact .test (relisted.elim id id) (kept.evaluates _ inner)

theorem KeepsMeaning.of_relisted (same : ∀ effects, statements.length = effects.length →
      (∀ s e, (s, e) ∈ statements.zip effects → t.Means view w s e) →
      ∃ effects', statements'.length = effects'.length ∧
        (∀ s e, (s, e) ∈ statements'.zip effects' → t'.Means view w s e) ∧
        Effect.sequence effects' = Effect.sequence effects) : KeepsMeaning view w t t' x := by
  cases seen : view.list? (t.form x) with
  | none => exact .of_unseen (by simp [isList]) seen
  | some seen' =>
    obtain ⟨rfl, after⟩ := relisted.list? isList seen
    exact .of_list seen after (fun _ => relisted.tests isList distinct inside) same

end

/-- A proper tree that means whatever another one means. -/
structure Refines (view : View) (t t' : Tree) (root : NodeId) : Prop where
  proper : t'.Proper root
  keeps : ∀ {V : Type} (w : World V), KeepsMeaning view w t t' root

theorem Refines.refl (proper : t.Proper root) : Refines view t t root :=
  ⟨proper, fun _ => .refl⟩

theorem Refines.trans (first : Refines view t t' root) (second : Refines view t' t'' root) : Refines view t t'' root :=
  ⟨second.proper, fun w => (first.keeps w).trans (second.keeps w)⟩

end Tree

end Condense
