import Condense.Proofs.Minify.FixedPoint

/-!
Sums of strings and names keep their values when literals are folded.
-/

attribute [local simp] Condense.Form.children

namespace Condense

variable {text tail : String} {form : Form NodeId} {left right first middle : NodeId}

/-- A value that can be added: a string, or anything else. -/
inductive Summand (V : Type) where
  | string (text : String)
  | other (value : V)

/-- How values that are no strings are written, and what two of them add up to. -/
structure Addition (V : Type) where
  text : V → String
  plus : V → V → Summand V

namespace Addition

variable {V : Type} (a : Addition V)

def written : Summand V → String
  | .string text => text
  | .other value => a.text value

/-- The sum of two values: what they are written as, if one of them is a string. -/
def sum : Summand V → Summand V → Summand V
  | .other x, .other y => a.plus x y
  | x, y => .string (a.written x ++ a.written y)

/-- Strings that are added one after the other may be put together first. -/
theorem sum_tail (x : Summand V) (text tail : String) :
    a.sum (a.sum x (.string text)) (.string tail) = a.sum x (.string (text ++ tail)) := by
  cases x <;> simp only [sum, written, String.append_assoc]

end Addition

/-- A sum, or an expression in parentheses. -/
def Form.IsSum (form : Form NodeId) : Prop :=
  (∃ inner, form = .grouping inner) ∨ ∃ left right, form = .binary .add left right

namespace Tree

variable {V : Type} {a : Addition V} {env : NodeId → Summand V} {t t' : Tree} {root id : NodeId} {v : Summand V}

/-- The value of an expression that is made of names, strings, parentheses and sums. -/
inductive AddsUp (t : Tree) (a : Addition V) (env : NodeId → Summand V) : NodeId → Summand V → Prop
  | name {id : NodeId} {name : String} {field : Option FieldId} {how : ReferenceType}
      (form : t.form id = .lookup name field how) : AddsUp t a env id (env id)
  | string {id : NodeId} {text : String} (form : t.form id = .constant (.string text)) :
      AddsUp t a env id (.string text)
  | grouping {id inner : NodeId} {v : Summand V} (form : t.form id = .grouping inner) (value : AddsUp t a env inner v) :
      AddsUp t a env id v
  | sum {id left right : NodeId} {x y : Summand V} (form : t.form id = .binary .add left right)
      (first : AddsUp t a env left x) (second : AddsUp t a env right y) : AddsUp t a env id (a.sum x y)

namespace AddsUp

variable (value : t.AddsUp a env id v)

include value

theorem unique {w : Summand V} (again : t.AddsUp a env id w) : w = v := by
  induction value generalizing w with
  | name form | string form => cases again <;> simp_all
  | grouping form _ ih =>
    cases again with
    | grouping form' value => exact ih (Form.grouping.inj (form'.symm.trans form) ▸ value)
    | _ => simp_all
  | sum form _ _ ihFirst ihSecond =>
    cases again with
    | sum form' first second =>
      obtain ⟨-, rfl, rfl⟩ := Form.binary.inj (form'.symm.trans form)
      rw [ihFirst first, ihSecond second]
    | _ => simp_all

theorem unwrapUpTo (steps : Nat) : t.AddsUp a env (t.unwrapUpTo steps id) v := by
  induction steps generalizing id with
  | zero => exact value
  | succ steps ih =>
    unfold Tree.unwrapUpTo
    split
    · rename_i inner form
      cases value with
      | grouping form' value => exact ih (Form.grouping.inj (form'.symm.trans form) ▸ value)
      | _ => simp_all
    · exact value

theorem unwrapGrouping : t.AddsUp a env (t.unwrapGrouping id) v :=
  value.unwrapUpTo t.size

/-- The only literals are strings, and they are their own values. -/
theorem literal {literal : Literal} (found : t.constant? id = some literal) :
    ∃ text, literal = .string text ∧ v = .string text := by
  have inner := value.unwrapGrouping
  unfold constant? at found
  split at found
  · rename_i form
    cases found
    cases inner with
    | @string _ text form' => exact ⟨text, Form.constant.inj (form.symm.trans form'), rfl⟩
    | _ => simp_all
  · cases found

theorem of_constant? (found : t.constant? id = some (.string text)) : v = .string text := by
  obtain ⟨text', same, rfl⟩ := value.literal found
  rw [Literal.string.inj same]

/-- A value carries over to another tree along nodes of the same form, down to such as it is known of. -/
theorem transfer {P : NodeId → Prop} (here : P id)
    (step : ∀ x w, P x → t.AddsUp a env x w →
      t'.AddsUp a env x w ∨ t'.form x = t.form x ∧ ∀ child ∈ t.children x, P child) : t'.AddsUp a env id v := by
  induction value with
  | name form =>
    rcases step _ _ here (.name form) with known | ⟨same, -⟩
    · exact known
    · exact .name (same.trans form)
  | string form =>
    rcases step _ _ here (.string form) with known | ⟨same, -⟩
    · exact known
    · exact .string (same.trans form)
  | grouping form value ih =>
    rcases step _ _ here (.grouping form value) with known | ⟨same, inner⟩
    · exact known
    · exact .grouping (same.trans form) (ih (inner _ (by simp [form])))
  | sum form first second ihFirst ihSecond =>
    rcases step _ _ here (.sum form first second) with known | ⟨same, inner⟩
    · exact known
    · exact .sum (same.trans form) (ihFirst (inner _ (by simp [form]))) (ihSecond (inner _ (by simp [form])))

/-- What is not changed below a node leaves it its value. -/
theorem kept (rooted : t.Rooted root) (live : t.Below root id)
    (same : ∀ x, t.Below id x → t'.form x = t.form x) : t'.AddsUp a env id v := by
  refine value.transfer (P := t.Below id) (.refl id) fun x _ below _ => .inr ⟨same x below, fun child slot => ?_⟩
  exact .link (rooted.linked (live.trans below) slot) below

end AddsUp

end Tree

namespace Literals

open Condense.Tree

variable {V : Type} {a : Addition V} {env : NodeId → Summand V} {t t' : Tree} {root id e : NodeId} {v : Summand V}
  {settings : Settings}

theorem fold?_addsUp (found : fold? settings t id = some form) (value : t.AddsUp a env id v)
    (now : t'.form id = form) : t'.AddsUp a env id v := by
  cases value with
  | sum here first second =>
    simp only [fold?, here] at found
    split at found
    · obtain ⟨literal, folded, rfl⟩ := Option.map_eq_some_iff.1 found
      unfold foldBinary? at folded
      split at folded
      · rename_i x y number _
        obtain ⟨text, other, -⟩ := first.literal number
        cases other
      · rename_i head tail left right
        split at folded
        · cases folded
          rw [first.of_constant? left, second.of_constant? right]
          exact .string now
        · cases folded
      · cases folded
    · cases found
  | _ => simp_all [fold?]

theorem Joins.addsUp (proper : t.Proper root)
    (below : t.Below root id) (joins : Joins t id left right first middle text tail) (value : t.AddsUp a env id v) :
    (joined t id first middle (text ++ tail)).AddsUp a env id v := by
  have form := joins.form proper below
  cases value with
  | sum here outer last =>
    obtain ⟨-, rfl, rfl⟩ := Form.binary.inj (joins.sum.symm.trans here)
    cases outer.unwrapGrouping with
    | sum here' inner string =>
      obtain ⟨-, rfl, rfl⟩ := Form.binary.inj (joins.inner.symm.trans here')
      have link := joins.linked proper below (show first ∈ [first, middle] by simp)
      have live : t.Below root first := .link link (below.trans (joins.lower proper below))
      rw [last.of_constant? joins.tail, string.of_constant? joins.text, a.sum_tail]
      refine .sum (by rw [form, if_pos rfl]) (inner.kept proper.rooted live fun x => joins.first_same proper below) ?_
      exact .string (by rw [form, if_neg (joins.ne proper below), if_pos rfl])
    | _ => simp_all [joins.inner]
  | _ => simp_all [joins.sum]

theorem foldNode_addsUp (settings : Settings) (proper : t.Proper root) (below : t.Below root id)
    (value : t.AddsUp a env id v) : (foldNode settings t id).tree.AddsUp a env id v := by
  unfold foldNode
  split
  · rename_i form found
    refine fold?_addsUp found value ?_
    rw [setForm_form, if_pos ⟨rfl, proper.rooted.index_lt below⟩]
  · split
    · refine Changed.ofOption_keeps (P := fun t' => t'.AddsUp a env id v) value fun t' done => ?_
      obtain ⟨left, right, first, middle, text, tail, joins, rfl⟩ := joinTail?_eq_some.1 done
      exact joins.addsUp proper below value
    · exact value

/-- A node of the tree that is no summand and stands in no parentheses. -/
structure Whole (t : Tree) (root e : NodeId) : Prop where
  live : t.Below root e
  apart : ∀ holder, t.parent? e = some holder → ¬ (t.form holder).IsSum

/-- A literal in parentheses is no whole expression. -/
theorem Whole.eq_of_constant? {c : NodeId} {literal : Literal} (whole : Whole t root e) (held : t.Held)
    (found : t.constant? c = some literal) (below : t.Below c e) : e = c := by
  rcases below.cases with same | ⟨holder, link, above⟩
  · exact same
  · rcases isWrapping_of_constant? held found above with ⟨literal, form⟩ | ⟨inner, form⟩
    · have slot := held e holder link
      simp [children, form] at slot
    · exact absurd (.inl ⟨inner, form⟩) (whole.apart holder link)

/-- What is in parentheses is no whole expression. -/
theorem Whole.below_unwrapGrouping {c : NodeId} (whole : Whole t root e) (proper : t.Proper root)
    (live : t.Below root c) (below : t.Below c e) (other : e ≠ c) :
    t.Below (t.unwrapGrouping c) e ∧ e ≠ t.unwrapGrouping c := by
  have inner (steps : Nat) (c : NodeId) (live : t.Below root c) (below : t.Below c e) (other : e ≠ c) :
      t.Below (t.unwrapUpTo steps c) e ∧ e ≠ t.unwrapUpTo steps c := by
    induction steps generalizing c with
    | zero => exact ⟨below, other⟩
    | succ steps ih =>
      unfold unwrapUpTo
      split
      · rename_i expression form
        obtain ⟨child, slot, under⟩ := (proper.held.below_cases below).resolve_left other
        have link := proper.rooted.linked live slot
        obtain rfl : child = expression := by simpa [children, form] using slot
        refine ih child (.link link live) under ?_
        rintro rfl
        exact whole.apart c link (.inl ⟨e, form⟩)
      · exact ⟨below, other⟩
  exact inner t.size c live below other

section

variable (whole : Whole t root e) (proper : t.Proper root) (below : t.Below root id)

include whole proper below

/-- Nothing whole that adds up is lost when an operator is folded. -/
theorem Whole.eq_of_fold? (found : fold? settings t id = some form)
    (value : t.AddsUp a env e v) (under : t.Below id e) : e = id := by
  rcases proper.held.below_cases under with same | ⟨child, slot, beneath⟩
  · exact same
  have link := proper.rooted.linked below slot
  have here {literal : Literal} (constant : t.constant? child = some literal) :
      e = child ∧ ∃ text, literal = .string text := by
    obtain rfl := whole.eq_of_constant? proper.held constant beneath
    obtain ⟨text, string, -⟩ := value.literal constant
    exact ⟨rfl, text, string⟩
  unfold fold? at found
  split at found
  · rename_i op operand form
    obtain rfl : child = operand := by simpa [children, form] using slot
    split at found
    · obtain ⟨literal, constant, found⟩ := Option.bind_eq_some_iff.1 found
      obtain ⟨-, text, rfl⟩ := here constant
      cases op <;> simp [foldUnary?] at found
    · cases found
  · rename_i op left right form
    have slot : child = left ∨ child = right := by simpa [children, form] using slot
    split at found
    · obtain ⟨literal, folded, -⟩ := Option.map_eq_some_iff.1 found
      unfold foldBinary? at folded
      split at folded
      · rename_i first second
        rcases slot with rfl | rfl
        · obtain ⟨-, text, other⟩ := here first
          cases other
        · obtain ⟨-, text, other⟩ := here second
          cases other
      · rename_i first second
        split at folded
        · rename_i allowed
          simp only [Bool.and_eq_true, beq_iff_eq] at allowed
          have same : e = child := by
            rcases slot with rfl | rfl
            · exact (here first).1
            · exact (here second).1
          exact absurd (.inr ⟨left, right, allowed.1 ▸ form⟩) (whole.apart id (same ▸ link))
        · cases folded
      · cases folded
    · cases found
  · rename_i digits form
    simp [children, form] at slot
  · cases found

/-- Where two strings are put together, only parts of the first summand can be whole. -/
theorem Whole.of_joins (joins : Joins t id left right first middle text tail) (under : t.Below id e) :
    e = id ∨ t.Below first e ∧ e ≠ first := by
  rcases proper.held.below_cases under with same | ⟨child, slot, beneath⟩
  · exact .inl same
  have link := proper.rooted.linked below slot
  have outer : (t.form id).IsSum := .inr ⟨left, right, joins.sum⟩
  have inner : (t.form (t.unwrapGrouping left)).IsSum := .inr ⟨first, middle, joins.inner⟩
  have slot : child = left ∨ child = right := by simpa [children, joins.sum] using slot
  rcases slot with rfl | rfl
  · have strict : e ≠ child := by
      rintro rfl
      exact whole.apart id link outer
    obtain ⟨beneath, other⟩ := whole.below_unwrapGrouping proper (.link link below) beneath strict
    obtain ⟨summand, slot, deep⟩ := (proper.held.below_cases beneath).resolve_left other
    have linked := proper.rooted.linked (below.trans (joins.lower proper below)) slot
    have apart : e ≠ summand := by
      rintro rfl
      exact whole.apart _ linked inner
    have slot : summand = first ∨ summand = middle := by simpa [children, joins.inner] using slot
    rcases slot with rfl | rfl
    · exact .inr ⟨deep, apart⟩
    · exact absurd (whole.eq_of_constant? proper.held joins.text deep) apart
  · have same := whole.eq_of_constant? proper.held joins.tail beneath
    exact absurd outer (whole.apart id (same ▸ link))

end

/-- A holder that is still in the tree and has not changed holds what it held. -/
theorem Whole.of_holder {holder : NodeId} (proper : t.Proper root) (proper' : t'.Proper root) (whole : Whole t root e)
    (live : t.Below root holder) (link : t'.parent? e = some holder) (same : t'.form holder = t.form holder) :
    ¬ (t'.form holder).IsSum := by
  have slot := proper'.held e holder link
  rw [children, same] at slot
  rw [same]
  exact whole.apart holder (proper.rooted.linked live slot)

/-- What is beside a folded node, or above it, stays whole, and so does the node itself. -/
theorem Folds.whole (proper : t.Proper root) (folds : Folds t t' root id) (whole : Whole t root e)
    (beside : t.Below id e → e = id) : Whole t' root e := by
  have live := folds.others e whole.live beside
  refine ⟨live, fun holder link => ?_⟩
  have above := folds.shrinks _ _ (Below.link link (.refl holder))
  have outside : ¬ t.Below id holder := by
    intro under
    obtain rfl := beside (under.trans above)
    have same := Below.antisymm proper.rooted.top whole.live under above
    exact not_below_of_link folds.proper.rooted.top live link (same ▸ .refl e)
  have upper : t'.Below root holder := live.holder link (ne_of_link link folds.proper.rooted.top)
  exact whole.of_holder proper folds.proper (folds.shrinks _ _ upper) link (folds.outside holder outside)

theorem Joins.whole (proper : t.Proper root)
    (below : t.Below root id) (joins : Joins t id left right first middle text tail) (whole : Whole t root e)
    (under : t.Below first e) (other : e ≠ first) : Whole (joined t id first middle (text ++ tail)) root e := by
  have folds := joins.folds proper below
  have same (x : NodeId) (under : t.Below first x) := joins.first_same proper below under
  have live (x : NodeId) (under : t.Below first x) : (joined t id first middle (text ++ tail)).Below root x := by
    refine under.induct ?_ fun x p link above ih => ?_
    · refine folds.proper.rooted.below_child (folds.others id below fun _ => rfl) ?_
      simp [children, joins.form proper below]
    · refine folds.proper.rooted.below_child ih ?_
      rw [children, same p above]
      exact proper.held x p link
  refine ⟨live e under, fun holder link => ?_⟩
  obtain ⟨p, link', above⟩ := under.cases.resolve_left other
  have held : e ∈ (joined t id first middle (text ++ tail)).children p := by
    rw [children, same p above]
    exact proper.held e p link'
  have link'' := folds.proper.rooted.linked (live p above) held
  obtain rfl := Option.some.inj (link''.symm.trans link)
  exact whole.of_holder proper folds.proper (folds.shrinks _ _ (live p above)) link (same p above)

/-- A step keeps what is whole, and the value it has. -/
theorem foldNode_keeps (settings : Settings) (proper : t.Proper root) (below : t.Below root id)
    (whole : Whole t root e) (value : t.AddsUp a env e v) :
    Whole (foldNode settings t id).tree root e ∧ (foldNode settings t id).tree.AddsUp a env e v := by
  have folds := foldNode_folds proper below settings
  by_cases beside : t.Below id e → e = id
  · refine ⟨folds.whole proper whole beside, value.transfer
      (P := fun x => t.Below root x ∧ (t.Below id x → x = id)) ⟨whole.live, beside⟩ ?_⟩
    rintro x w ⟨live, beside⟩ value
    by_cases here : x = id
    · subst here
      exact .inl (foldNode_addsUp settings proper below value)
    · refine .inr ⟨folds.outside x fun under => here (beside under), fun child slot => ?_⟩
      have link := proper.rooted.linked live slot
      exact ⟨.link link live, fun under => by_contra fun other => here (beside (under.holder link other))⟩
  · obtain ⟨under, other⟩ := Classical.not_imp.1 beside
    unfold foldNode
    split
    · rename_i form found
      exact absurd (whole.eq_of_fold? proper below found value under) other
    · split
      · refine Changed.ofOption_keeps (P := fun t' => Whole t' root e ∧ t'.AddsUp a env e v) ⟨whole, value⟩
          fun t' done => ?_
        obtain ⟨left, right, first, middle, text, tail, joins, rfl⟩ := joinTail?_eq_some.1 done
        obtain ⟨under, strict⟩ := (whole.of_joins proper below joins under).resolve_left other
        exact ⟨joins.whole proper below whole under strict, value.kept proper.rooted whole.live fun x beneath =>
          joins.first_same proper below (under.trans beneath)⟩
      · exact ⟨whole, value⟩

/-- Spelling a truth value differently changes no sum. -/
theorem negateDigit_addsUp (inside : id.index < t.size) (value : t.AddsUp a env e v) :
    (negateDigit t id).tree.AddsUp a env e v := by
  by_cases truth : IsTruth (t.form id)
  · obtain ⟨digit, -, form⟩ := negateDigit_form inside truth
    refine value.transfer (P := fun _ => True) trivial fun x w _ value => .inr ⟨?_, fun _ _ => trivial⟩
    rw [form, if_neg, if_neg]
    · rintro rfl
      have empty : t.form ⟨t.size⟩ = .empty := t.form_eq_empty_of_size_le .refl
      cases value <;> simp_all
    · rintro rfl
      obtain ⟨b, form⟩ := truth
      cases value <;> simp_all
  · rwa [negateDigit_idle truth]

theorem run_keeps (settings : Settings) (proper : t.Proper root) (whole : Whole t root e)
    (value : t.AddsUp a env e v) : (run settings root t).tree.AddsUp a env e v := by
  have folded := foldAll_induction settings proper (P := fun _ t => Whole t root e ∧ t.AddsUp a env e v)
    ⟨whole, value⟩ fun _ _ _ proper below _ holds => foldNode_keeps settings proper below holds.1 holds.2
  rw [run_tree]
  generalize foldAll settings root t = t at folded
  obtain ⟨proper, -, value⟩ := folded
  split
  · exact (negateAll_induction proper (P := fun _ t => t.AddsUp a env e v) value fun id _ t proper below value =>
      negateDigit_addsUp (proper.rooted.index_lt below) value).2
  · exact value

end Literals

/-- Folding literals keeps the value of every whole expression of a tree that is made of names, strings, parentheses
and sums, whatever names stand for and however values that are no strings are written and added. -/
theorem literals_keep_sums {V : Type} (a : Addition V) (env : NodeId → Summand V) (options : Settings) {t : Tree}
    {root e : NodeId} {v : Summand V} (proper : t.Proper root) (live : t.Below root e)
    (whole : ∀ holder, t.parent? e = some holder → ¬ (t.form holder).IsSum) (value : t.AddsUp a env e v) :
    ∀ w, (Literals.run options root t).tree.AddsUp a env e w ↔ w = v := by
  have kept := Literals.run_keeps options proper ⟨live, whole⟩ value
  exact fun w => ⟨kept.unique, fun same => same ▸ kept⟩

def Form.summands? : Form NodeId → Option (NodeId × NodeId)
  | .binary .add left right => some (left, right)
  | _ => none

theorem Form.eq_of_summands? (found : form.summands? = some (left, right)) : form = .binary .add left right := by
  unfold summands? at found
  split at found
  · cases found
    rfl
  · cases found

def Form.text? : Form NodeId → Option String
  | .constant (.string text) => some text
  | _ => none

theorem Form.eq_of_text? (found : form.text? = some text) : form = .constant (.string text) := by
  unfold text? at found
  split at found
  · rw [Option.some.inj found]
  · cases found

set_option maxRecDepth 100000 in
/-- Two strings behind a name that stands for a number. -/
theorem literals_keep_sums_tail :
    let parsed := parse "x+'a'+'b'" {}
    let folded := (Literals.run {} parsed.root parsed.tree).tree
    (parsed.tree.form ⟨4⟩).summands? = some (⟨2⟩, ⟨3⟩) ∧ (folded.form ⟨4⟩).summands? = some (⟨0⟩, ⟨1⟩) ∧
      ∀ w, folded.AddsUp ⟨fun _ => "1", fun m n => .other (m + n)⟩ (fun _ => .other 1) ⟨4⟩ w ↔ w = .string "1ab" := by
  have facts :
      let parsed := parse "x+'a'+'b'" {}
      let folded := (Literals.run {} parsed.root parsed.tree).tree
      ⟨4⟩ ∈ parsed.tree.children parsed.root ∧ (parsed.tree.form ⟨4⟩).summands? = some (⟨2⟩, ⟨3⟩) ∧
        (parsed.tree.form ⟨2⟩).summands? = some (⟨0⟩, ⟨1⟩) ∧ (parsed.tree.form ⟨0⟩).reference? = some ⟨0⟩ ∧
        (parsed.tree.form ⟨1⟩).text? = some "a" ∧ (parsed.tree.form ⟨3⟩).text? = some "b" ∧
        (folded.form ⟨4⟩).summands? = some (⟨0⟩, ⟨1⟩) := by
    decide +kernel
  have proper := parse_proper "x+'a'+'b'" {}
  -- nothing below is evaluated any more
  generalize parse "x+'a'+'b'" {} = parsed at facts proper ⊢
  obtain ⟨slot, outer, inner, name, first, second, joined⟩ := facts
  have link := (proper.rooted.tidy _ (.refl _)).linked _ slot
  obtain ⟨x, how, form⟩ := Form.lookup_of_reference? name
  refine ⟨outer, joined, literals_keep_sums _ _ {} proper (.link link (.refl _)) (fun holder link' => ?_) ?_⟩
  · obtain rfl := Option.some.inj (link.symm.trans link')
    obtain ⟨statements, scope, program⟩ := proper.program
    simp [program, Form.IsSum]
  · exact .sum (Form.eq_of_summands? outer) (.sum (Form.eq_of_summands? inner) (.name form) (.string (Form.eq_of_text? first)))
      (.string (Form.eq_of_text? second))

end Condense
