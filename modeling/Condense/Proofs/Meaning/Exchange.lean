import Condense.Proofs.Meaning.Change
import Condense.Proofs.Minify.Statements
import Mathlib.Data.List.Basic

/-!
Statements that take the place of others.
-/

attribute [local simp] Condense.Form.children

namespace Condense

open Form List Option

variable {β : Type} {statements : List NodeId} {list : NodeId} {α : Type}

namespace Form.Swapped

variable {old new : α} {xs ys : List α}

theorem length_eq (swapped : Swapped old new xs ys) : xs.length = ys.length := by
  obtain ⟨before, after, rfl, rfl⟩ := swapped
  simp

theorem mem (swapped : Swapped old new xs ys) : old ∈ xs := by
  obtain ⟨before, after, rfl, rfl⟩ := swapped
  simp

/-- A place is taken for a while by something that stands nowhere else. -/
theorem trans {hole : α} {zs : List α} (first : Swapped old hole xs ys) (second : Swapped hole new ys zs)
    (fresh : hole ∉ xs) : Swapped old new xs zs := by
  obtain ⟨before, after, rfl, rfl⟩ := first
  obtain ⟨before', after', same, rfl⟩ := second
  simp only [mem_append, mem_cons, not_or] at fresh
  obtain ⟨rfl, -, rfl⟩ := (append_cons_inj_of_notMem fresh.1 fresh.2.2).mp same
  exact ⟨before, after, rfl, rfl⟩

theorem eq_of_nodup {before after : List α} (swapped : Swapped old new (before ++ old :: after) ys)
    (nodup : (before ++ old :: after).Nodup) : ys = before ++ new :: after := by
  obtain ⟨before', after', same, rfl⟩ := swapped
  have fresh := (nodup_cons.mp (nodup_middle.mp nodup)).1
  simp only [mem_append, not_or] at fresh
  obtain ⟨rfl, -, rfl⟩ := (append_cons_inj_of_notMem fresh.1 fresh.2).mp same
  rfl

end Form.Swapped

namespace Form

theorem of_map {P : β → Prop} {x : Option α} {build : α → β} (each : ∀ y, P (build y)) :
    ∀ z, x.map build = some z → P z := by
  intro z made
  obtain ⟨y, -, rfl⟩ := map_eq_some_iff.mp made
  exact each y

/-- Whatever stands in the slots of a form, it is looked into or not. -/
theorem exchange_alike (view : View) {old new : NodeId} (form : Form NodeId) :
    ∀ form', form.exchange old new = some form' → form'.isExpression = form.isExpression ∧
      form'.listing? = form.listing? ∧ view.hides form' = view.hides form := by
  cases form
  all_goals
    repeat' first
      | refine of_orElse ?_ fun _ => ?_
      | refine of_map fun y => ⟨rfl, rfl, ?_⟩
      | rintro _ ⟨⟩
  all_goals first
    | cases view <;> rfl
    | cases view <;> cases ‹UnaryOp› <;> rfl
    | cases view <;> cases ‹BinaryOp› <;> rfl

end Form

/-- Where a part of a list is exchanged, the list has the new part, unless the part is the test of a clause. -/
theorem View.list?_exchange {view : View} {form : Form NodeId} {old new : NodeId} {form' : Form NodeId}
    (list : view.list? form = some statements) (exchange : form.exchange old new = some form') :
    (∃ statements', Form.Swapped old new statements statements' ∧ view.list? form' = some statements') ∨
      view.list? form' = some statements := by
  have many {build : List NodeId → Form NodeId} {statements : List NodeId}
      (seen : ∀ statements, view.list? (build statements) = some statements)
      (made : (exchangeFirst old new statements).map build = some form') :
      ∃ statements', Form.Swapped old new statements statements' ∧ view.list? form' = some statements' := by
    obtain ⟨statements', found, rfl⟩ := map_eq_some_iff.mp made
    exact ⟨statements', exchangeFirst_swapped found, seen statements'⟩
  unfold View.list? at list
  split at list <;> cases list
  case h_1 | h_2 | h_4 => exact .inl (many (fun _ => rfl) exchange)
  · rename_i test
    cases atTest : exchangeOptional old new test with
    | none =>
      simp only [Form.exchange, atTest] at exchange
      exact .inl (many (fun _ => rfl) exchange)
    | some test' =>
      simp only [Form.exchange, atTest] at exchange
      cases exchange
      exact .inr rfl

namespace Tree

variable {V : Type} {view : View} {w : World V} {t t' : Tree} {root x new old : NodeId} {e : Evaluation V}

/-- What a list with another member at one place holds there. -/
theorem mem_zip_of_swapped {old new : α} {xs ys : List α} {zs : List β} (swapped : Form.Swapped old new xs ys) {y : α}
    {z : β} (member : (y, z) ∈ ys.zip zs) : (y, z) ∈ xs.zip zs ∨ y = new ∧ (old, z) ∈ xs.zip zs := by
  obtain ⟨before, after, rfl, rfl⟩ := swapped
  induction before generalizing zs with
  | nil =>
    cases zs with
    | nil => cases member
    | cons z' zs =>
      rcases mem_cons.mp member with same | member
      · cases same
        exact .inr ⟨rfl, .head _⟩
      · exact .inl (.tail _ member)
  | cons first before ih =>
    cases zs with
    | nil => cases member
    | cons z' zs =>
      rcases mem_cons.mp member with same | member
      · cases same
        exact .inl (.head _)
      · rcases ih member with known | ⟨rfl, known⟩
        · exact .inl (.tail _ known)
        · exact .inr ⟨rfl, .tail _ known⟩

theorem exists_mem_zip {xs : List α} {ys : List β} (length : xs.length = ys.length) {x : α}
    (member : x ∈ xs) : ∃ y, (x, y) ∈ xs.zip ys := by
  obtain ⟨index, range, rfl⟩ := mem_iff_getElem.mp member
  refine ⟨ys[index], mem_iff_getElem.mpr ⟨index, ?_, ?_⟩⟩ <;> simp [← length, range]

/-- All that an expression in view holds are expressions. -/
theorem Evaluates.of_children (evaluates : t.Evaluates view w x e) (shown : view.hides (t.form x) = false)
    {child : NodeId} (slot : child ∈ t.children x) : (t.form child).isExpression := by
  cases evaluates with
  | event _ hidden => simp [hidden] at shown
  | constant form => simp [children, form] at slot
  | grouping form inner | negation form _ inner =>
    simp only [children, form, Form.children, mem_singleton] at slot
    exact slot ▸ inner.isExpression
  | comma form _ first second | conjunction form _ first second =>
    simp only [children, form, Form.children, mem_cons, not_mem_nil, or_false] at slot
    rcases slot with rfl | rfl
    · exact first.isExpression
    · exact second.isExpression
  | choice form _ test first second =>
    simp only [children, form, Form.children, mem_cons, not_mem_nil, or_false] at slot
    rcases slot with rfl | rfl | rfl
    · exact test.isExpression
    · exact first.isExpression
    · exact second.isExpression

theorem Evaluates.ne_branch
    (branch : ∃ condition consequent alternate, t.form old = .ifStatement condition consequent alternate)
    (evaluates : t.Evaluates view w x e) : x ≠ old := by
  rintro rfl
  obtain ⟨condition, consequent, alternate, form⟩ := branch
  simpa [form, Form.isExpression] using evaluates.isExpression

section

variable {form : Form NodeId} (exchange : (t.form x).exchange old new = some form)
  (after : t'.form x = form ∨ t'.form x = form.notConcise)
  (branch : ∃ condition consequent alternate, t.form old = .ifStatement condition consequent alternate)

include exchange after branch

/-- No part of an expression in view is an `if`, and what is out of view stays there. -/
theorem Evaluates.of_exchange (evaluates : t.Evaluates view w x e) : t'.Evaluates view w x e := by
  have alike := Form.exchange_alike view _ form exchange
  cases hidden : view.hides (t.form x) with
  | true =>
    rw [evaluates.unique (.event evaluates.isExpression hidden)]
    refine .event ?_ ?_ <;> rcases after with same | same <;> simp [same, alike, evaluates.isExpression, hidden]
  | false =>
    obtain ⟨before, rest, slots, -⟩ := exchange_swapped exchange
    have expression := evaluates.of_children hidden (show old ∈ _ by simp [children, slots, -Form.children])
    obtain ⟨condition, consequent, alternate, branch⟩ := branch
    simp [branch, Form.isExpression] at expression

section

variable (inside : ∀ child ∈ t.children x, KeepsMeaning view w t t' child)
  (same : ∀ e, t.Means view w old e → t'.Means view w new e)

include inside same

theorem Means.of_exchange {e : Effect V} (means : t.Means view w x e) : t'.Means view w x e := by
  have notBinding {child : NodeId} (binding : (t.form child).IsBinding) : child ≠ old := by
    rintro rfl
    obtain ⟨condition, consequent, alternate, form⟩ := branch
    obtain ⟨name, field, binding⟩ := binding
    simp [form] at binding
  have notClause {child : NodeId} {test : Option (NodeId × Evaluation V)} (tests : t.Tests view w child test) :
      child ≠ old := by
    rintro rfl
    obtain ⟨condition, consequent, alternate, form⟩ := branch
    cases tests <;> simp_all
  have deeper {child : NodeId} (slot : child ∈ t.children x) := inside child slot
  cases means with
  | expression inner => exact .expression (inner.of_exchange exchange after branch)
  | empty before | returnNothing before | breakLoop before | continueLoop before =>
    simp [before, Form.exchange, exchangeOptional] at exchange
  | list list length inner =>
    rcases View.list?_exchange list exchange with ⟨statements', swapped, list'⟩ | list'
    · have length' := swapped.length_eq.symm.trans length
      refine .list (after.elim (fun same => same ▸ list') fun same => same ▸ View.list?_notConcise list') length'
        fun s e member => ?_
      rcases mem_zip_of_swapped swapped member with member | ⟨rfl, member⟩
      · exact (deeper (View.list?_subset list (of_mem_zip member).1)).means e (inner s e member)
      · exact same e (inner old e member)
    · refine .list (after.elim (fun same => same ▸ list') fun same => same ▸ View.list?_notConcise list') length
        fun s e member => ?_
      exact (deeper (View.list?_subset list (of_mem_zip member).1)).means e (inner s e member)
  | bareDeclarator seen before plain =>
    simp [before, Form.exchange, exchangeOne, exchangeOptional, notBinding plain] at exchange
  | declarator seen before plain inner =>
    simp [before, Form.exchange, exchangeOne, exchangeOptional, notBinding plain, inner.ne_branch branch] at exchange
  | branch before test first =>
    simp [before, Form.exchange, exchangeOne, exchangeOptional, test.ne_branch branch] at exchange
    obtain ⟨rfl, rfl⟩ := exchange
    exact .branch (after.elim id id) ((deeper (by simp [before])).evaluates _ test) (same _ first)
  | @branches _ condition consequent alternate _ _ _ before test first second =>
    have test' := (deeper (by simp [before])).evaluates _ test
    have first' := deeper (by simp [before]) |>.means _ first
    by_cases here : consequent = old
    · simp [before, Form.exchange, exchangeOne, test.ne_branch branch, here] at exchange
      subst here exchange
      exact .branches (after.elim id id) test' (same _ first)
        ((deeper (by simp [before])).means _ second)
    · simp [before, Form.exchange, exchangeOne, exchangeOptional, test.ne_branch branch, here] at exchange
      obtain ⟨rfl, rfl⟩ := exchange
      exact .branches (after.elim id id) test' first' (same _ second)
  | loop before test inner =>
    simp [before, Form.exchange, exchangeOne, test.ne_branch branch] at exchange
    obtain ⟨rfl, rfl⟩ := exchange
    exact .loop (after.elim id id) ((deeper (by simp [before])).evaluates _ test) (same _ inner)
  | switch before value length tests inner =>
    simp [before, Form.exchange, exchangeOne, value.ne_branch branch] at exchange
    obtain ⟨cases', found, -⟩ := exchange
    obtain ⟨k, member⟩ := exists_mem_zip length (Form.Swapped.mem (exchangeFirst_swapped found))
    exact absurd rfl (notClause (tests old k member))
  | returnValue before inner | throwValue before inner =>
    simp [before, Form.exchange, exchangeOne, exchangeOptional, inner.ne_branch branch] at exchange

/-- A node keeps its meaning where something with the same meaning takes the place of an `if` that it holds. -/
theorem KeepsMeaning.of_exchange : KeepsMeaning view w t t' x := by
  refine ⟨fun e means => means.of_exchange exchange after branch,
    fun e means => means.of_exchange exchange after branch inside same, fun test tests => ?_, fun binding => ?_⟩
  · cases tests with
    | default before =>
      simp [before, Form.exchange, exchangeOptional] at exchange
      obtain ⟨statements', -, rfl⟩ := exchange
      exact .default (after.elim id id)
    | test before inner =>
      simp [before, Form.exchange, exchangeOptional, exchangeOne, inner.ne_branch branch] at exchange
      obtain ⟨statements', -, rfl⟩ := exchange
      exact .test (after.elim id id) ((inside _ (by simp [before])).evaluates _ inner)
  · obtain ⟨name, field, before⟩ := binding
    simp [before, Form.exchange] at exchange

end

end

theorem removeAt?_relisted {removed : NodeId} {index : Nat} (done : t.removeAt? list index = some (removed, t')) :
    ∃ statements, (t.form list).statementList? = some statements ∧ t.Relisted t' list (statements.eraseIdx index) := by
  unfold removeAt? at done
  simp only [bind_eq_bind, bind_eq_some_iff] at done
  obtain ⟨statements, isList, _, _, done⟩ := done
  obtain ⟨-, rfl⟩ := Prod.mk.inj (Option.some.inj done)
  refine ⟨statements, isList, .inr ?_⟩
  simp [modifyForm_form, index_lt_of_statementList? isList]

theorem setStatements_relisted (statements : List NodeId)
    (isList : (t.form list).statementList? ≠ none) : t.Relisted (t.setStatements list statements) list statements := by
  obtain ⟨old, isList⟩ := ne_none_iff_exists'.mp isList
  obtain ⟨single, result⟩ := setStatements_eq statements isList
  have inside := index_lt_of_statementList? isList
  have changed := t.relink_form old statements inside list
  have same : (t.relink list old statements).size = t.size := by simp [relink, adopt_size, release_size]
  rw [Relisted, result]
  cases single with
  | false => exact .inr (by simp [modifyForm_form, same, inside, changed])
  | true => exact .inl (by simp [changed])

theorem replaceChild?_relisted (isList : (t.form list).statementList? = some statements) (member : old ∈ statements)
    (distinct : (t.children list).Nodup) (done : t.replaceChild? list old new = some t') :
    ∃ statements', Form.Swapped old new statements statements' ∧ t.Relisted t' list statements' := by
  obtain ⟨form, exchange, after⟩ := replaceChild?_cases done
  have many {build : List NodeId → Form NodeId} (made : (exchangeFirst old new statements).map build = some form) :
      ∃ statements', Form.Swapped old new statements statements' ∧ form = build statements' := by
    obtain ⟨statements', found, rfl⟩ := map_eq_some_iff.mp made
    exact ⟨statements', exchangeFirst_swapped found, rfl⟩
  have relisted : ∃ statements', Form.Swapped old new statements statements' ∧
      form = (t.form list).withStatements statements' := by
    cases before : t.form list <;> rw [before] at isList exchange <;> cases isList
    case switchCase test =>
      have slots : t.children list = test.toList ++ statements := by simp [children, before]
      have elsewhere : exchangeOptional old new test = none := by
        rw [exchangeOptional_eq_none]
        exact fun here => disjoint_of_nodup_append (slots ▸ distinct) here member
      simp only [Form.exchange, elsewhere] at exchange
      exact many exchange
    all_goals exact many exchange
  obtain ⟨statements', swapped, rfl⟩ := relisted
  exact ⟨statements', swapped, after⟩

/-- A tree keeps its meaning where something with the same meaning takes the place of an `if`. The new statement
may be built of new nodes. -/
theorem Rooted.keeps_replaced {grown : Tree} {id parent : NodeId} (rooted : t.Rooted root) (live : t.Below root id)
    (branch : ∃ condition consequent alternate, t.form id = .ifStatement condition consequent alternate)
    (forms : ∀ x, x.index < t.size → grown.form x = t.form x) (link : t.parent? id = some parent)
    (exchanged : grown.Exchanged t' parent id new) (done : grown.replace? id new = some t')
    (same : (∀ y, t.Below id y → KeepsMeaning view w t t' y) → ∀ e, t.Means view w id e → t'.Means view w new e) :
    KeepsMeaning view w t t' root := by
  have others (x : NodeId) (inside : t.Below root x) (other : x ≠ parent) : t'.form x = t.form x := by
    rw [exchanged.forms x other, forms x (rooted.index_lt inside)]
  have below (y : NodeId) (under : t.Below id y) : KeepsMeaning view w t t' y := by
    refine rooted.keeps_of_forms (live.trans under) fun z lower => ?_
    refine others z ((live.trans under).trans lower) ?_
    rintro rfl
    exact not_below_of_link rooted.top live link (under.trans lower)
  refine rooted.keeps_of_children fun x reached children => ?_
  by_cases here : x = parent
  · subst here
    have done : grown.replaceChild? x id new = some t' := by simpa [replace?, exchanged.link] using done
    obtain ⟨form, exchange, after⟩ := replaceChild?_cases done
    rw [forms x (rooted.index_lt reached)] at exchange
    exact .of_exchange exchange after branch children (same below)
  · exact .of_form (others x reached here) children

/-- A child of an `if` may take its place, or a new node that is built from parts of it, if it has the same meaning. -/
theorem Proper.replace_refines {grown : Tree} {id : NodeId} (proper : t.Proper root) (live : t.Below root id)
    (branch : ∃ condition consequent alternate, t.form id = .ifStatement condition consequent alternate)
    (made : grown = t ∧ new ∈ t.children id ∨ ∃ parts, t.Built grown parts new ∧ Combine.Parts t id parts)
    (same : ∀ {V : Type} (w : World V) (t' : Tree), (∀ x, t.size ≤ x.index → t'.form x = grown.form x) →
      (∀ y, t.Below id y → KeepsMeaning view w t t' y) → ∀ e, t.Means view w id e → t'.Means view w new e) :
    Refines view t (grown.replaceIfHeld id new) root := by
  obtain ⟨t', parent, link, above, done, exchanged, proper', forms, -⟩ := Combine.exists_exchanged proper live branch made
  rw [Tree.replaceIfHeld, done]
  refine ⟨proper', fun w => proper.rooted.keeps_replaced live branch forms link exchanged done ?_⟩
  refine same w t' fun x fresh => exchanged.forms x ?_
  rintro rfl
  exact not_lt.mpr fresh (proper.rooted.index_lt above)

end Tree

end Condense
