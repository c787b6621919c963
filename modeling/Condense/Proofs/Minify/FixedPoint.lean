import Condense.Proofs.Minify.BigInt
import Condense.Proofs.Minify.Passes

/-!
Folding of literals is done after one run.
-/

attribute [local simp] Condense.Form.children

namespace Condense

open List

variable {t : Tree} {id x : NodeId} {text : String}

namespace Literals

open Condense.Tree

/-- Whether nothing is done to a node. -/
structure Still (settings : Settings) (t : Tree) (id : NodeId) : Prop where
  folded : fold? settings t id = none
  joined : (settings.evalLiteralExpressions && settings.allows .combineAdjacentStrings) = true → joinTail? t id = none

theorem Still.foldNode {settings : Settings} (still : Still settings t id) :
    foldNode settings t id = { tree := t } := by
  rw [Literals.foldNode, still.folded]
  dsimp only
  split
  · rename_i allowed
    rw [still.joined allowed]
    rfl
  · rfl

/-- Nothing is done to a node that is no operator and no big integer. -/
theorem Still.of_leaf (settings : Settings) {literal : Literal}
    (leaf : t.form id = .constant literal) : Still settings t id :=
  ⟨by simp [fold?, leaf], fun _ => by simp [joinTail?, leaf]⟩

theorem constant?_of_form {literal : Literal} (form : t.form id = .constant literal) :
    t.constant? id = some literal := by
  have bare : t.unwrapGrouping id = id := by
    unfold unwrapGrouping
    cases t.size with
    | zero => rfl
    | succ size => rw [unwrapUpTo, form]
  rw [constant?, bare, form]

/-- A node has the form it had, or it was a truth value and is a negation. -/
def Respelled (t t' : Tree) (id : NodeId) : Prop :=
  t'.form id = t.form id ∨ (∃ b, t.form id = .constant (.boolean b)) ∧ ∃ digit, t'.form id = .unary .not digit

section

variable {t' : Tree} {root : NodeId} (rooted : t.Rooted root) (grown : t.size ≤ t'.size) (live : t.Below root id)
  (same : ∀ y, t.Below id y → Respelled t t' y)

include rooted grown live same

theorem unwrapGrouping_respelled : t'.unwrapGrouping id = t.unwrapGrouping id := by
  have steps (n : Nat) (x : NodeId) (below : t.Below id x) : t'.unwrapUpTo n x = t.unwrapUpTo n x := by
    induction n generalizing x with
    | zero => rfl
    | succ n ih =>
      rw [unwrapUpTo, unwrapUpTo]
      rcases same x below with same | ⟨⟨b, was⟩, digit, now⟩
      · rw [same]
        split
        · rename_i inner form
          have slot : inner ∈ t.children x := by simp [form]
          exact ih inner (.link (rooted.linked (live.trans below) slot) below)
        · rfl
      · rw [was, now]
  have more (n : Nat) : t.unwrapUpTo (t.size + n) id = t.unwrapGrouping id := by
    induction n with
    | zero => rfl
    | succ n ih =>
      obtain ⟨climbs, arrives⟩ := live
      have enough : t.size ≤ t.size + n + climbs := by omega
      exact (rooted.unwrapUpTo_succ arrives enough).trans ih
  rw [unwrapGrouping, steps _ id (.refl id), show t'.size = t.size + (t'.size - t.size) by omega]
  exact more _

/-- A literal stays one, unless it was a truth value. -/
theorem constant?_respelled :
    t'.constant? id = t.constant? id ∨ (∃ b, t.constant? id = some (.boolean b)) ∧ t'.constant? id = none := by
  unfold constant?
  rw [unwrapGrouping_respelled rooted grown live same]
  rcases same _ (unwrapGrouping_below rooted live) with same | ⟨⟨b, was⟩, digit, now⟩
  · exact .inl (by rw [same])
  · exact .inr ⟨⟨b, by rw [was]⟩, by rw [now]⟩

theorem constant?_string (string : t'.constant? id = some (.string text)) : t.constant? id = some (.string text) := by
  rcases constant?_respelled rooted grown live same with same | ⟨-, none⟩
  · exact same ▸ string
  · rw [none] at string
    cases string

theorem Joins.of_respelled (here : t'.form id = t.form id) {left right first middle : NodeId} {tail : String}
    (joins : Joins t' id left right first middle text tail) : Joins t id left right first middle text tail := by
  have sum : t.form id = .binary .add left right := here ▸ joins.sum
  have linked := (rooted.tidy id live).linked
  have under (child : NodeId) (slot : child ∈ t.children id) : t.Below id child := .link (linked child slot) (.refl id)
  have toLeft := under left (by simp [sum])
  have toRight := under right (by simp [sum])
  have operand := unwrapGrouping_respelled rooted grown (live.trans toLeft) fun y below => same y (toLeft.trans below)
  have deep := toLeft.trans (unwrapGrouping_below rooted (live.trans toLeft))
  have inner : t.form (t.unwrapGrouping left) = .binary .add first middle := by
    rcases same _ deep with same | ⟨-, digit, now⟩
    · rw [← same, ← operand, joins.inner]
    · rw [← operand, joins.inner] at now
      cases now
  have link := (rooted.tidy _ (live.trans deep)).linked middle (by simp [inner])
  have toMiddle : t.Below id middle := .link link deep
  exact ⟨sum,
    constant?_string rooted grown (live.trans toRight) (fun y below => same y (toRight.trans below)) joins.tail, inner,
    constant?_string rooted grown (live.trans toMiddle) (fun y below => same y (toMiddle.trans below)) joins.text⟩

/-- Where nothing is done to a node, nothing is done to it after truth values below it are spelled differently. -/
theorem Still.respelled {settings : Settings} (here : t'.form id = t.form id) (still : Still settings t id) :
    Still settings t' id := by
  have linked := (rooted.tidy id live).linked
  have operand (child : NodeId) (slot : child ∈ t.children id) :=
    constant?_respelled rooted grown (.link (linked child slot) live) fun y below =>
      same y (Below.trans (.link (linked child slot) (.refl id)) below)
  constructor
  · have before := still.folded
    unfold fold? at before ⊢
    rw [here]
    cases form : t.form id <;> rw [form] at before <;> try rfl
    case unary op inner =>
      rcases operand inner (by simp [form]) with same | ⟨-, none⟩
      · simpa only [same] using before
      · simp [none]
    case binary op left right =>
      have first := operand left (by simp [form])
      have second := operand right (by simp [form])
      rcases first with same | ⟨-, none⟩
      · rcases second with same' | ⟨-, none'⟩
        · simpa only [same, same'] using before
        · simp [none', foldBinary?]
      · simp [none, foldBinary?]
    case bigInt digits => exact before
  · intro allowed
    have apart := still.joined allowed
    refine joinTail?_eq_none fun left right first middle text tail joins => ?_
    have before := joins.of_respelled rooted grown live same here
    rw [joinTail?_eq_some.2 ⟨left, right, first, middle, text, tail, before, rfl⟩] at apart
    cases apart

end

variable {t t' : Tree} {root id : NodeId} {settings : Settings}

/-- What is folded to is not folded again. -/
theorem fold?_still {form : Form NodeId} (found : fold? settings t id = some form) (now : t'.form id = form) :
    Still settings t' id := by
  unfold fold? at found
  split at found
  · split at found
    · obtain ⟨x, -, found⟩ := Option.bind_eq_some_iff.1 found
      obtain ⟨literal, -, rfl⟩ := Option.map_eq_some_iff.1 found
      exact .of_leaf settings now
    · cases found
  · split at found
    · obtain ⟨literal, -, rfl⟩ := Option.map_eq_some_iff.1 found
      exact .of_leaf settings now
    · cases found
  · dsimp only at found
    split at found
    · cases found
      refine ⟨?_, fun _ => by simp [joinTail?, now]⟩
      simp [fold?, now, normalBigInt_again]
    · cases found
  · cases found

section

variable (proper : t.Proper root) (folds : Folds t t' root id)

include proper folds

/-- What was below a folded node and is still in the tree is still below it. -/
theorem Folds.below (different : id ≠ root) (live : t'.Below root x) (under : t.Below id x) : t'.Below id x := by
  refine live.induct (motive := fun x => t.Below id x → t'.Below id x) ?_ ?_ under
  · intro under
    exact absurd (under.eq_of_top proper.rooted.top).symm different
  · intro x p link above ih under
    by_cases inner : t.Below id p
    · exact .link link (ih inner)
    have slot : x ∈ t.children p := by
      rw [children, ← folds.outside p inner]
      exact folds.proper.held x p link
    have link' := proper.rooted.linked (folds.shrinks _ _ above) slot
    by_cases same : x = id
    · exact same ▸ .refl x
    · exact absurd (under.holder link' same) inner

theorem Folds.still (live : t'.Below root x) (still : Still settings t x)
    (same : ∀ y, t.Below x y → t'.form y = t.form y) : Still settings t' x :=
  still.respelled proper.rooted folds.size.ge (folds.shrinks _ _ live)
    (fun y below => .inl (same y below)) (same x (.refl x))

end

section

variable {left right first middle : NodeId} {tail : String} (proper : t.Proper root) (below : t.Below root id)
  (joins : Joins t id left right first middle text tail)

/-- The tree with both strings in one. -/
abbrev Joins.result (_ : Joins t id left right first middle text tail) : Tree :=
  joined t id first middle (text ++ tail)

include proper below joins

theorem Joins.folds : Folds t joins.result root id :=
  folds_joinTail? proper below (joinTail?_eq_some.2 ⟨left, right, first, middle, text, tail, joins, rfl⟩)

theorem Joins.linked {child : NodeId} (slot : child ∈ [first, middle]) :
    t.parent? child = some (t.unwrapGrouping left) := by
  refine (proper.rooted.tidy _ (below.trans (joins.lower proper below))).linked child ?_
  simpa [children, joins.inner] using slot

theorem Joins.apart : first ≠ middle := by
  have distinct := (proper.rooted.tidy _ (below.trans (joins.lower proper below))).distinct
  simpa [children, joins.inner] using distinct

/-- The first summand is not above the strings. -/
theorem Joins.not_above : ¬ t.Below first middle := by
  intro beneath
  have slots : t.children (t.unwrapGrouping left) = [first, middle] := by
    simp [children, joins.inner]
  exact joins.apart proper below (proper.rooted.siblings_apart (below.trans (joins.lower proper below))
    (by simp [slots]) (by simp [slots]) beneath (.refl middle))

theorem Joins.form (x : NodeId) : joins.result.form x =
    if x = id then .binary .add first middle else if x = middle then .constant (.string (text ++ tail))
    else t.form x := by
  have inside := t.index_lt_of_parent? (joins.linked proper below (show middle ∈ [first, middle] by simp))
  rw [result, joined, setForm_form, setForm_form, setForm_size]
  simp only [inside, proper.rooted.index_lt below, and_true]

theorem Joins.ne : middle ≠ id := by
  rintro rfl
  exact not_below_of_link proper.rooted.top below (joins.linked proper below (by simp)) (joins.lower proper below)

theorem Joins.first_same {y : NodeId} (under : t.Below first y) : joins.result.form y = t.form y := by
  have link := joins.linked proper below (show first ∈ [first, middle] by simp)
  have live : t.Below root first := .link link (below.trans (joins.lower proper below))
  rw [joins.form proper below, if_neg, if_neg]
  · rintro rfl
    exact joins.not_above proper below under
  · rintro rfl
    exact not_below_of_link proper.rooted.top live link (under.trans (joins.lower proper below))

/-- A sum with both strings in one is not joined again: its first summand was the first summand of a sum with a
string before, and that was not joined. -/
theorem Joins.still (allowed : (settings.evalLiteralExpressions && settings.allows .combineAdjacentStrings))
    (settled : Still settings t (t.unwrapGrouping left)) : Still settings joins.result id := by
  have lower := below.trans (joins.lower proper below)
  have link := joins.linked proper below (show first ∈ [first, middle] by simp)
  have live : t.Below root first := .link link lower
  have grown := Nat.le_of_eq (joins.folds proper below).size.symm
  have same (y : NodeId) (under : t.Below first y) : Respelled t joins.result y :=
    .inl (joins.first_same proper below under)
  have sum : joins.result.form id = .binary .add first middle := by
    rw [joins.form proper below, if_pos rfl]
  have string : joins.result.constant? middle = some (.string (text ++ tail)) := by
    refine constant?_of_form ?_
    rw [joins.form proper below, if_neg (joins.ne proper below), if_pos rfl]
  simp only [Bool.and_eq_true] at allowed
  constructor
  · simp only [fold?, sum, allowed.1, if_true, string, Option.map_eq_none_iff]
    cases constant : joins.result.constant? first with
    | none => rfl
    | some literal =>
      cases literal with
      | string head =>
        have before := constant?_string proper.rooted grown live same constant
        have idle := settled.folded
        simp [fold?, joins.inner, allowed, before, joins.text, foldBinary?] at idle
      | _ => rfl
  · intro _
    refine joinTail?_eq_none fun left' right' first' middle' text' tail' again => ?_
    obtain ⟨-, rfl, rfl⟩ : BinaryOp.add = .add ∧ first = left' ∧ middle = right' := by
      simpa using sum.symm.trans again.sum
    have operand := unwrapGrouping_respelled proper.rooted grown live same
    have deep := unwrapGrouping_below proper.rooted live
    have inner : t.form (t.unwrapGrouping first) = .binary .add first' middle' := by
      rw [← joins.first_same proper below deep, ← operand, again.inner]
    have link' := (proper.rooted.tidy _ (live.trans deep)).linked middle' (by simp [inner])
    have under : t.Below first middle' := .link link' deep
    have before : Joins t (t.unwrapGrouping left) first middle first' middle' text' text :=
      ⟨joins.inner, joins.text, inner, constant?_string proper.rooted grown (live.trans under)
        (fun y beneath => same y (under.trans beneath)) again.text⟩
    have idle := settled.joined (by simp [allowed])
    rw [joinTail?_eq_some.2 ⟨_, _, _, _, _, _, before, rfl⟩] at idle
    cases idle

theorem Joins.inner_ne : t.unwrapGrouping left ≠ id := by
  intro same
  have link := (proper.rooted.tidy id below).linked left (by simp [joins.sum])
  have live : t.Below root left := .link link below
  exact not_below_of_link proper.rooted.top live link (same ▸ unwrapGrouping_below proper.rooted live)

/-- Other nodes stay settled: those between the two sums are out of the tree. -/
theorem Joins.still_other (live : joins.result.Below root x) (other : x ≠ id) (still : Still settings t x)
    (above : ¬ t.Below x id) : Still settings joins.result x := by
  have folds := joins.folds proper below
  have form := joins.form proper below
  have leaf : Still settings joins.result middle := by
    apply Still.of_leaf
    rw [form, if_neg (joins.ne proper below), if_pos rfl]
  have lower : t.Below id middle := .link (joins.linked proper below (by simp)) (joins.lower proper below)
  by_cases beneath : t.Below x middle
  · have under : t.Below id x := (beneath.linear lower).resolve_left above
    have stays := folds.below proper (proper.ne_root (by simp [joins.sum, Form.IsProgram])) live under
    obtain ⟨child, slot, hangs⟩ := (folds.proper.held.below_cases stays).resolve_left other
    have hung := folds.shrinks _ _ hangs
    simp only [children, form, if_true, Form.children, mem_cons, not_mem_nil, or_false] at slot
    rcases slot with rfl | rfl
    · exact absurd (hung.trans beneath) (joins.not_above proper below)
    · rwa [← Below.antisymm proper.rooted.top (below.trans lower) hung beneath]
  · refine folds.still proper live still fun y inside => ?_
    rw [form, if_neg, if_neg]
    · rintro rfl
      exact beneath inside
    · rintro rfl
      exact above inside

end

/-- What one step leaves in the tree is settled, if what it leaves alone was. -/
theorem foldNode_still (proper : t.Proper root) (below : t.Below root id)
    (settled : ∀ x, t.Below root x → t.Below id x → x ≠ id → Still settings t x)
    (live : (foldNode settings t id).tree.Below root x) (before : x ≠ id → Still settings t x ∧ ¬ t.Below x id) :
    Still settings (foldNode settings t id).tree x := by
  have folds := foldNode_folds proper below settings
  unfold foldNode at live folds ⊢
  cases found : fold? settings t id with
  | some form =>
    rw [found] at live folds
    dsimp only at live folds ⊢
    by_cases here : x = id
    · subst here
      refine fold?_still found ?_
      rw [setForm_form, if_pos ⟨rfl, proper.rooted.index_lt below⟩]
    · obtain ⟨still, above⟩ := before here
      refine folds.still proper live still fun y under => ?_
      rw [setForm_form, if_neg]
      rintro ⟨rfl, -⟩
      exact above under
  | none =>
    rw [found] at live folds
    dsimp only at live folds ⊢
    split at live
    · rename_i allowed
      rw [if_pos allowed] at folds ⊢
      cases done : joinTail? t id with
      | none =>
        by_cases here : x = id
        · exact here ▸ ⟨found, fun _ => done⟩
        · exact (before here).1
      | some t' =>
        rw [done] at live folds
        obtain ⟨left, right, first, middle, text, tail, joins, rfl⟩ := joinTail?_eq_some.1 done
        by_cases here : x = id
        · have lower := joins.lower proper below
          subst here
          exact joins.still proper below allowed (settled _ (below.trans lower) lower (joins.inner_ne proper below))
        · obtain ⟨still, above⟩ := before here
          exact joins.still_other proper below live here still above
    · rename_i forbidden
      rw [if_neg forbidden]
      by_cases here : x = id
      · exact here ▸ ⟨found, fun allowed => absurd allowed forbidden⟩
      · exact (before here).1

/-- Whether a node is a truth value. -/
def IsTruth (form : Form NodeId) : Prop :=
  ∃ b, form = .constant (.boolean b)

theorem negateDigit_idle (other : ¬ IsTruth (t.form id)) : negateDigit t id = { tree := t } := by
  unfold negateDigit
  split
  · rename_i value form
    exact absurd ⟨value, form⟩ other
  · rfl

/-- A truth value becomes the negation of a new number, and the rest stays. -/
theorem negateDigit_form (inside : id.index < t.size) (truth : IsTruth (t.form id)) :
    ∃ digit, (negateDigit t id).tree.size = t.size + 1 ∧ ∀ x, (negateDigit t id).tree.form x =
      if x = id then .unary .not ⟨t.size⟩ else if x = ⟨t.size⟩ then .constant (.number digit) else t.form x := by
  obtain ⟨value, form⟩ := truth
  refine ⟨if value then 0.0 else 1.0, ?_, fun x => ?_⟩
  · simp [negateDigit, form]
  · simp only [negateDigit, form, alloc_id, setForm_form, alloc_form, alloc_size]
    rw [if_congr (and_iff_left (Nat.lt_succ_of_lt inside)) rfl rfl]

section

variable (proper : t.Proper root) (below : t.Below root id) (truth : IsTruth (t.form id))

include proper below truth

/-- The new number is all that comes into the tree. -/
theorem negateDigit_live (live : (negateDigit t id).tree.Below root x) : t.Below root x ∨ x = ⟨t.size⟩ := by
  obtain ⟨digit, -, form⟩ := negateDigit_form (proper.rooted.index_lt below) truth
  have proper' := (negateDigit_proper proper below).1
  refine live.induct (.inl (.refl root)) fun x p link _ ih => ?_
  have slot := proper'.held x p link
  rw [children, form] at slot
  split at slot
  · exact .inr (mem_singleton.1 slot)
  split at slot
  · cases slot
  · rename_i old
    exact .inl (proper.rooted.below_child (ih.resolve_right old) slot)

/-- What was settled stays so, and the node is no truth value any more. -/
theorem negateDigit_still (live : (negateDigit t id).tree.Below root x)
    (still : t.Below root x → Still settings t x) : Still settings (negateDigit t id).tree x ∧
      (x = id ∨ (t.Below root x → ¬ IsTruth (t.form x)) → ¬ IsTruth ((negateDigit t id).tree.form x)) := by
  obtain ⟨digit, size, form⟩ := negateDigit_form (proper.rooted.index_lt below) truth
  have fresh (y : NodeId) (live : t.Below root y) : y ≠ ⟨t.size⟩ := ne_of_fresh (proper.rooted.index_lt live) .refl
  have number : (negateDigit t id).tree.form ⟨t.size⟩ = .constant (.number digit) := by
    rw [form, if_neg (fresh id below).symm, if_pos rfl]
  rcases negateDigit_live proper below truth live with old | rfl
  · by_cases here : x = id
    · have negation : (negateDigit t id).tree.form x = .unary .not ⟨t.size⟩ := by rw [form, if_pos here]
      refine ⟨⟨?_, fun _ => by simp [joinTail?, negation]⟩, fun _ => by simp [IsTruth, negation]⟩
      simp [fold?, negation, constant?_of_form number, foldUnary?]
    have kept : (negateDigit t id).tree.form x = t.form x := by rw [form, if_neg here, if_neg (fresh x old)]
    refine ⟨(still old).respelled proper.rooted (by omega) old (fun y under => ?_) kept, fun before => ?_⟩
    · by_cases changed : y = id
      · exact .inr ⟨changed ▸ truth, ⟨t.size⟩, by rw [form, if_pos changed]⟩
      · exact .inl (by rw [form, if_neg changed, if_neg (fresh y (old.trans under))])
    · rw [kept]
      exact before.resolve_left here old
  · exact ⟨.of_leaf settings number, fun _ => by simp [IsTruth, number]⟩

end

/-- After operands and operators are folded, nothing is left to fold. -/
theorem foldAll_still (settings : Settings) (proper : t.Proper root)
    (live : (foldAll settings root t).Below root x) : Still settings (foldAll settings root t) x := by
  -- What is done is settled, and no node that is done is above one that is still ahead.
  refine ((foldAll_induction settings proper (P := fun rest t' => ∀ x, t'.Below root x → x ∉ rest →
    Still settings t' x ∧ ∀ y ∈ rest, ¬ t'.Below x y) ?_ ?_).2 x live not_mem_nil).1
  · intro x live absent
    exact absurd (mem_reverse.2 (proper.rooted.mem_descendants (fun child id _ => proper.held child id) live)) absent
  · intro id rest t' proper below ahead done x live absent
    have folds := foldNode_folds proper below settings
    have passed (x : NodeId) (live : t'.Below root x) (other : x ≠ id) (absent : x ∉ rest) :=
      done x live fun member => (mem_cons.1 member).elim other absent
    refine ⟨foldNode_still proper below (fun y live beneath other => ?_) live fun other => ?_,
      fun y member beneath => ?_⟩
    · exact (passed y live other fun member => ahead y member beneath).1
    · obtain ⟨still, apart⟩ := passed x (folds.shrinks _ _ live) other absent
      exact ⟨still, apart id (.head _)⟩
    · have beneath := folds.shrinks x y beneath
      by_cases here : x = id
      · exact ahead y member (here ▸ beneath)
      · exact (passed x (folds.shrinks _ _ live) here absent).2 y (.tail _ member) beneath

theorem negateAll_still (proper : t.Proper root) (still : ∀ x, t.Below root x → Still settings t x)
    (live : (negateAll root t).Below root x) :
    Still settings (negateAll root t) x ∧ ¬ IsTruth ((negateAll root t).form x) := by
  refine And.imp_right (fun spelled => spelled not_mem_nil) ((negateAll_induction proper
    (P := fun rest t' => ∀ x, t'.Below root x → Still settings t' x ∧ (x ∉ rest → ¬ IsTruth (t'.form x))) ?_ ?_).2 x live)
  · refine fun x live => ⟨still x live, fun absent => ?_⟩
    exact absurd (proper.rooted.mem_descendants (fun child id _ => proper.held child id) live) absent
  · intro id rest t' proper below settled x live
    have passed (absent : x ∉ rest) (live : t'.Below root x) (here : x ≠ id) : ¬ IsTruth (t'.form x) :=
      (settled x live).2 fun member => (mem_cons.1 member).elim here absent
    by_cases truth : IsTruth (t'.form id)
    · obtain ⟨still, spelled⟩ := negateDigit_still proper below truth live fun old => (settled x old).1
      refine ⟨still, fun absent => spelled ?_⟩
      by_cases here : x = id
      · exact .inl here
      · exact .inr fun old => passed absent old here
    · rw [negateDigit_idle truth] at live ⊢
      refine ⟨(settled x live).1, fun absent => ?_⟩
      by_cases here : x = id
      · exact here ▸ truth
      · exact passed absent live here

theorem run_still (settings : Settings) (proper : t.Proper root)
    (live : (run settings root t).tree.Below root x) : Still settings (run settings root t).tree x ∧
      (settings.allows .booleanLiteralsToNot → ¬ IsTruth ((run settings root t).tree.form x)) := by
  have still (x : NodeId) := foldAll_still settings proper (x := x)
  have proper := foldAll_proper settings proper
  rw [run_tree] at live ⊢
  generalize foldAll settings root t = t at still proper live
  split at live
  · rename_i allowed
    rw [if_pos allowed]
    obtain ⟨still, spelled⟩ := negateAll_still proper still live
    exact ⟨still, fun _ => spelled⟩
  · rename_i forbidden
    rw [if_neg forbidden]
    exact ⟨still x live, fun allowed => absurd allowed forbidden⟩

/-- A second run over a tree finds nothing to do. -/
theorem run_again (settings : Settings) (proper : t.Proper root) :
    run settings root (run settings root t).tree = { tree := (run settings root t).tree } := by
  have still (x : NodeId) := run_still settings proper (x := x)
  have rooted := (run_proper settings proper).rooted
  generalize (run settings root t).tree = t at still rooted
  have folded : Changed.each (t.descendants root).reverse (foldNode settings) t = { tree := t } :=
    Changed.each_unchanged fun id member =>
      (still id (rooted.below_of_mem_descendants (mem_reverse.1 member))).1.foldNode
  unfold run
  rw [folded]
  unfold Changed.andThen
  dsimp only
  split
  · rename_i allowed
    rw [Changed.each_unchanged fun id member =>
      negateDigit_idle ((still id (rooted.below_of_mem_descendants member)).2 allowed)]
    rfl
  · rfl

end Literals

/-- Folding the literals of a parsed text once is enough: a second run makes no change and leaves every node as it is. -/
theorem literals_run_again (source : String) (settings options : Settings) :
    let parsed := parse source settings
    let tree := (Literals.run options parsed.root parsed.tree).tree
    Literals.run options parsed.root tree = { tree, changes := 0 } :=
  Literals.run_again options (parse_proper source settings)

end Condense
