import Condense.Proofs.Minify.Passes

/-!
Combination is done after one run.
-/

attribute [local simp] Condense.Form.children

namespace Condense

open List

variable {t t' : Tree} {root id x a : NodeId} {form form' : Form NodeId} {settings : Settings} {α : Type}
  {list : NodeId}

namespace Form

theorem listing?_withStatements (form : Form α) (statements : List α) :
    (form.withStatements statements).listing? = form.listing? := by
  cases form <;> rfl

theorem listing?_notConcise (form : Form α) : form.notConcise.listing? = form.listing? := by
  cases form <;> rfl

theorem listing?_of_isConcise {form : Form α} (concise : form.isConcise) : form.listing? = some false := by
  cases form with
  | block => rfl
  | _ => cases concise

end Form

namespace Tree

theorem Rooted.mem_ancestors (rooted : t.Rooted root) (live : t.Below root x) :
    a ∈ t.ancestors x ↔ t.Below a x ∧ a ≠ x := by
  rw [ancestors, mem_ancestorsUpTo]
  constructor
  · rintro ⟨n, -, arrives⟩
    refine ⟨⟨n + 1, arrives⟩, ?_⟩
    rintro rfl
    exact not_climb_self rooted.top live n arrives
  · rintro ⟨⟨steps, arrives⟩, other⟩
    obtain ⟨n, rfl⟩ : ∃ n, steps = n + 1 := by
      cases steps with
      | zero => exact absurd (Option.some.inj arrives).symm other
      | succ n => exact ⟨n, rfl⟩
    refine ⟨n, ?_, arrives⟩
    rcases live.linear ⟨n + 1, arrives⟩ with ⟨m, further⟩ | above
    · have whole : t.climb (n + 1 + m) x = some root := by
        rwa [climb_add, arrives]
      have := rooted.steps_lt_size whole
      omega
    · rw [← above.eq_of_top rooted.top] at arrives
      have := rooted.steps_lt_size arrives
      omega

theorem Rooted.isLive (rooted : t.Rooted root) (live : t.Below root x) : t.isLive root x := by
  simp only [Tree.isLive, Bool.or_eq_true, beq_iff_eq, contains_iff_mem, rooted.mem_ancestors live]
  exact or_iff_not_imp_left.mpr fun other => ⟨live, Ne.symm other⟩

/-- Whether a node stands in a conditional comment. -/
def Sealed (t : Tree) (x : NodeId) : Prop :=
  ∃ comment, t.Below comment x ∧ comment ≠ x ∧ (t.form comment).listing? = some true

theorem Rooted.isInConditionalComment_iff (rooted : t.Rooted root) (live : t.Below root x) :
    t.isInConditionalComment x ↔ t.Sealed x := by
  simp only [isInConditionalComment, any_eq_true, rooted.mem_ancestors live, Sealed, and_assoc]
  refine exists_congr fun a => and_congr_right fun _ => and_congr_right fun _ => ?_
  cases t.form a <;> simp [Form.listing?]

theorem Proper.mem_editableLists (proper : t.Proper root) :
    x ∈ t.editableLists root ↔ t.Below root x ∧ (t.form x).listing? = some false ∧ (t.form x).isConcise = false ∧
      ¬ t.Sealed x := by
  have reached : x ∈ t.descendants root ↔ t.Below root x :=
    ⟨proper.rooted.below_of_mem_descendants, proper.rooted.mem_descendants fun child id _ => proper.held child id⟩
  rw [editableLists, mem_filter, reached]
  refine and_congr_right fun live => ?_
  rw [Bool.and_eq_true, Bool.not_eq_true', ← Bool.not_eq_true, proper.rooted.isInConditionalComment_iff live,
    ← and_assoc (c := ¬ t.Sealed x)]
  cases t.form x <;> simp [Form.listing?, Form.isConcise]

/-- Whoever holds a node that is in a comment is in it too, unless it is the comment itself. -/
theorem Sealed.holder {p : NodeId} (inside : t.Sealed x) (link : t.parent? x = some p)
    (regular : (t.form p).listing? ≠ some true) : t.Sealed p := by
  obtain ⟨comment, below, other, form⟩ := inside
  refine ⟨comment, below.holder link (Ne.symm other), ?_, form⟩
  rintro rfl
  exact regular form

theorem Sealed.exposed (inside : t.Sealed x) (exposed : t.Exposed id x) : t.Sealed id := by
  induction exposed with
  | refl => exact inside
  | link link regular _ ih => exact ih (inside.holder link regular)

end Tree

namespace Combine

open Condense.Tree

/-- Whether two neighbours are joined. -/
def joinable (settings : Settings) : Form NodeId → Form NodeId → Bool
  | .var kind _, .var kind' _ => kind == kind' && settings.allows .combineVarStatements
  | form, form' => isPlain form && isPlain form' && settings.allows .combineExpressionStatements

theorem joinable_of_isPlain (plain : isPlain form') :
    joinable settings form form' = (isPlain form && settings.allows .combineExpressionStatements) := by
  unfold joinable
  split
  · cases plain
  · rw [plain, Bool.and_true]

theorem join?_eq_none_iff {first second : NodeId} {index : Nat} :
    join? settings t list index first second = none ↔ joinable settings (t.form first) (t.form second) = false := by
  dsimp only [join?, joinable]
  split
  · rename_i form form'
    split <;> simp_all [isPlain, Form.isExpression]
  · split <;> simp_all

/-- Whether no two neighbours among the first statements of a list are joined. -/
def ApartUpTo (settings : Settings) (t : Tree) (list : NodeId) (bound : Nat) : Prop :=
  ∀ i < bound, ∀ first second, (t.statements list)[i]? = some first → (t.statements list)[i + 1]? = some second →
    joinable settings (t.form first) (t.form second) = false

/-- Whether nothing is done to a node. -/
structure Still (settings : Settings) (t : Tree) (id : NodeId) : Prop where
  kept : replacement? settings t id = none
  apart : (t.form id).listing? = some false → ∀ bound, ApartUpTo settings t id bound

theorem ApartUpTo.of_length {bound : Nat} (apart : ApartUpTo settings t list bound)
    (all : (t.statements list).length ≤ bound + 1) (more : Nat) : ApartUpTo settings t list more := by
  intro i _ first second found found'
  obtain ⟨range, -⟩ := List.getElem?_eq_some_iff.mp found'
  exact apart i (by omega) first second found found'

theorem ApartUpTo.joinFrom (apart : ∀ bound, ApartUpTo settings t list bound) (rounds index : Nat) :
    Combine.joinFrom settings list rounds index t = { tree := t } := by
  induction rounds generalizing index with
  | zero => rfl
  | succ rounds ih =>
    unfold Combine.joinFrom
    split
    · rename_i first second found found'
      rw [join?_eq_none_iff.mpr (apart (index + 1) index (Nat.lt_succ_self index) first second found found')]
      exact ih (index + 1)
    · rfl

theorem replacement?_eq_none (other : ∀ condition yes no, t.form id ≠ .ifStatement condition yes no) :
    replacement? settings t id = none := by
  unfold replacement?
  split
  · rename_i condition consequent alternate form
    exact absurd form (other condition consequent alternate)
  · rfl

theorem Still.of_inert (inert : Inert (t.form id)) : Still settings t id :=
  ⟨replacement?_eq_none inert.2, fun list => by simp [inert.1] at list⟩

theorem Still.of_list (isList : (t.form id).listing? = some false) (apart : ∀ bound, ApartUpTo settings t id bound) :
    Still settings t id := by
  refine ⟨replacement?_eq_none fun condition yes no form => ?_, fun _ => apart⟩
  simp [form, Form.listing?] at isList

section

variable {span span' : Span} {condition yes no : NodeId} (same : t'.form yes = t.form yes)

include same

theorem conjunction?_isSome :
    (conjunction? settings t' span' condition yes).isSome = (conjunction? settings t span condition yes).isSome := by
  unfold conjunction?
  rw [same]
  split <;> rfl

theorem choice?_isSome (same' : t'.form no = t.form no) :
    (choice? settings t' span' condition yes no).isSome = (choice? settings t span condition yes no).isSome := by
  unfold choice?
  rw [same, same']
  split
  · split <;> rfl
  · split
    · split <;> rfl
    · rfl

end

/-- What is done to a node depends on the forms below it. -/
theorem Still.congr (rooted : t.Rooted root) (live : t.Below root id) (same : ∀ z, t.Below id z → t'.form z = t.form z)
    (still : Still settings t id) : Still settings t' id := by
  have here := same id (.refl id)
  have under {child : NodeId} (slot : child ∈ t.children id) := (rooted.child_below live slot).1
  refine ⟨?_, fun list bound i bounded first second found found' => ?_⟩
  · have deeper {child : NodeId} (slot : child ∈ t.children id) : t'.singleStatement? child = t.singleStatement? child ∧
        ∀ only, t.singleStatement? child = some only → t'.form only = t.form only := by
      refine ⟨by rw [singleStatement?, same child (under slot), ← singleStatement?], fun only single => same only ?_⟩
      exact (under slot).trans (singleStatement?_exposed rooted (live.trans (under slot)) single).beneath
    suffices same : (replacement? settings t' id).isSome = (replacement? settings t id).isSome by
      rw [← Option.not_isSome_iff_eq_none, same, Option.not_isSome_iff_eq_none]
      exact still.kept
    unfold replacement?
    rw [here]
    cases form : t.form id with
    | ifStatement condition consequent alternate =>
      have slots : t.children id = condition :: consequent :: alternate.toList := by simp [children, form]
      obtain ⟨single, only⟩ := deeper (show consequent ∈ t.children id by simp [slots])
      dsimp only
      rw [same consequent (under (by simp [slots])), same condition (under (by simp [slots])), single]
      split
      · split <;> rfl
      · cases chosen : t.singleStatement? consequent with
        | none => rfl
        | some yes =>
          cases alternate with
          | none => exact conjunction?_isSome (only yes chosen)
          | some alternate =>
            obtain ⟨single', only'⟩ := deeper (show alternate ∈ t.children id by simp [slots])
            simp only [Option.bind_eq_bind, Option.bind_some]
            rw [single']
            cases chosen' : t.singleStatement? alternate with
            | none => rfl
            | some no => exact choice?_isSome (only yes chosen) (only' no chosen')
    | _ => rfl
  · have sameAt {s : NodeId} {n : Nat} (found : (t.statements id)[n]? = some s) : t'.form s = t.form s :=
      same s (under ((t.statements_sublist id).subset (mem_of_getElem? found)))
    rw [Tree.statements, here, ← Tree.statements] at found found'
    rw [here] at list
    rw [sameAt found, sameAt found']
    exact still.apart list bound i bounded first second found found'

/-- What an edit for the sake of a node does to a tree: links change only below the node and outside of comments, the
node that holds it has another child in its place, and what else changes are children of the node. -/
structure Edit (t t' : Tree) (root id : NodeId) : Prop where
  proper : t'.Proper root
  size : t.size ≤ t'.size
  self : t'.parent? id = none ∨ t'.parent? id = t.parent? id
  links : ∀ x, x.index < t.size → t'.parent? x = t.parent? x ∨ t.Exposed id x
  forms : ∀ x, x.index < t.size → x ≠ id → t'.form x ≠ t.form x →
    t.parent? id = some x ∧ (t'.children x).length = (t.children x).length ∨ t.parent? x = some id ∧ Inert (t'.form x)
  listing : ∀ x, x.index < t.size → (t'.form x).listing? = (t.form x).listing?
  inert : ∀ x, t.size ≤ x.index → Inert (t'.form x)

section

variable {first second joined : NodeId} {before after : List NodeId} (proper : t.Proper root)
  (below : t.Below root list) (joins : Joins t t' root list first second before after joined)

include proper below joins

/-- Only a declaration that takes over those behind it is changed. -/
theorem Joins.forms (range : x.index < t.size) (other : x ≠ list) : t'.form x = t.form x ∨
    t.parent? x = some list ∧ ∃ kind ds ds', t.form x = .var kind ds ∧ t'.form x = .var kind ds' := by
  rcases joins.unites with ⟨-, -, fresh, forms⟩ | ⟨rfl, kind, head, tail, form, -, forms⟩
  · exact .inl ((forms x other).trans (if_neg (ne_of_fresh range fresh)))
  · rw [forms x other]
    split
    · rename_i here
      have slot := (sublist_of_list joins.isList).subset (show joined ∈ _ by simp)
      exact .inr ⟨here ▸ proper.rooted.linked below slot, kind, head, head ++ tail, here ▸ form, rfl⟩
    · exact .inl rfl

theorem Joins.edit (regular : (t.form list).listing? ≠ some true) : Edit t t' root list where
  proper := joins.proper
  size := joins.size
  self := (joins.links regular list (proper.rooted.index_lt below)).elim .inr fun moved => absurd rfl moved.2
  links x range := (joins.links regular x range).imp_right And.left
  forms x range other changed := by
    obtain ⟨link, kind, ds, ds', -, form⟩ := (joins.forms proper below range other).resolve_left changed
    exact .inr ⟨link, by simp [form, Inert, Form.listing?]⟩
  listing x range := by
    by_cases here : x = list
    · rw [here]
      rcases joins.relisted with same | same <;>
        simp only [same, Form.listing?_notConcise, Form.listing?_withStatements]
    · rcases joins.forms proper below range here with same | ⟨-, kind, ds, ds', form, form'⟩
      · rw [same]
      · rw [form, form']
        rfl
  inert x outside := by
    have other : x ≠ list := by
      rintro rfl
      exact absurd outside (Nat.not_le_of_lt (proper.rooted.index_lt below))
    rcases joins.unites with ⟨-, -, -, forms⟩ | ⟨-, kind, head, tail, -, -, forms⟩ <;> rw [forms x other] <;> split
    all_goals first
      | exact inert_of_size_le outside
      | simp [Inert, Form.listing?]

/-- What the first statement was not joined with is not joined with both. -/
theorem Joins.apart (apart : ApartUpTo settings t list before.length) : ApartUpTo settings t' list before.length := by
  have statements := statements_eq joins.isList
  have statements' := statements_eq (joins.relisted.statementList? joins.isList)
  have alike {s : NodeId} (member : s ∈ t.statements list) (form : Form NodeId) :
      joinable settings (t'.form s) form = joinable settings (t.form s) form ∧
        joinable settings form (t'.form s) = joinable settings form (t.form s) := by
    obtain ⟨lower, other⟩ := proper.rooted.child_below below ((t.statements_sublist list).subset member)
    rcases joins.forms proper below (proper.rooted.index_lt (below.trans lower)) other with same | ⟨-, kind, ds, ds', old, new⟩
    · rw [same]
      exact ⟨rfl, rfl⟩
    · rw [old, new]
      constructor <;> cases form <;> rfl
  have alikeJoined (form : Form NodeId) : joinable settings form (t'.form joined) = joinable settings form (t.form first) := by
    rcases joins.unites with ⟨plain, -, fresh, forms⟩ | ⟨rfl, -⟩
    · rw [forms joined, if_pos rfl, joinable_of_isPlain plain, joinable_of_isPlain rfl]
      rintro rfl
      exact absurd fresh (Nat.not_le_of_lt (proper.rooted.index_lt below))
    · exact (alike (by simp [statements]) form).2
  intro i range a b found found'
  rw [statements'] at found found'
  rw [getElem?_append_left range] at found
  have here : (t.statements list)[i]? = some a := by rw [statements, getElem?_append_left range, found]
  rw [(alike (mem_of_getElem? here) _).1]
  rcases Nat.lt_or_ge (i + 1) before.length with inner | beyond
  · rw [getElem?_append_left inner] at found'
    have there : (t.statements list)[i + 1]? = some b := by rw [statements, getElem?_append_left inner, found']
    rw [(alike (mem_of_getElem? there) _).2]
    exact apart i range a b here there
  · have last : i + 1 = before.length := by omega
    rw [last, getElem?_append_right .refl, Nat.sub_self] at found'
    cases found'
    rw [alikeJoined]
    exact apart i range a first here (by simp [statements, last])

end

/-- An `if` stays and nothing changes, or it is out of the tree afterwards. -/
theorem convertIf_cases (settings : Settings) (proper : t.Proper root) (live : t.Below root id) :
    replacement? settings t id = none ∧ (convertIf settings t id).tree = t ∨
      (t.form id).listing? = none ∧ Edit t (convertIf settings t id).tree root id ∧
        ¬ (convertIf settings t id).tree.Below root id := by
  unfold convertIf
  split
  · rename_i new grown found
    obtain ⟨branch, made, inert⟩ := (replacement?_replaces found).cases proper live
    have form := branch
    obtain ⟨condition, consequent, alternate, form⟩ := form
    obtain ⟨t', parent, link, above, done, exchanged, proper', forms, links⟩ := exists_exchanged proper live branch made
    have holder := proper.rooted.index_lt above
    have other : id ≠ new ∧ t.size ≤ grown.size := by
      rcases made with ⟨rfl, slot⟩ | ⟨parts, built, -⟩
      · exact ⟨(proper.rooted.child_below live slot).2.symm, .refl⟩
      · refine ⟨?_, built.size⟩
        rintro rfl
        exact absurd built.fresh (Nat.not_le_of_lt (proper.rooted.index_lt live))
    have out : t'.parent? id = none := by rw [exchanged.parent?, if_neg other.1, if_pos rfl]
    have slots : grown.children parent = t.children parent := by rw [children, forms parent holder]; rfl
    rw [show (Changed.ofOption grown (grown.replace? id new)).tree = t' by rw [done]; rfl]
    refine .inr ⟨by simp [form, Form.listing?], ⟨proper', exchanged.size ▸ other.2, .inl out, links,
      fun x range _ changed => ?_, fun x range => ?_, fun x outside => ?_⟩, fun below => ?_⟩
    · by_cases here : x = parent
      · exact .inl ⟨here ▸ link, by rw [here, ← slots, exchanged.swapped.length_eq]⟩
      · exact absurd ((exchanged.forms x here).trans (forms x range)) changed
    · by_cases here : x = parent
      · obtain ⟨form', exchange, after⟩ := replaceChild?_cases (by simpa [replace?, exchanged.link] using done)
        have kept := (Form.exchange_alike .operators _ form' exchange).2.1
        rw [forms parent holder] at kept
        rw [here]
        rcases after with same | same
        · rw [same, kept]
        · rw [same, Form.listing?_notConcise, kept]
      · rw [exchanged.forms x here, forms x range]
    · rw [exchanged.forms x (ne_of_fresh holder outside).symm]
      exact inert x outside
    · exact proper.ne_root (by simp [form, Form.IsProgram]) (below.eq_of_top out)
  · rename_i kept
    exact .inl ⟨kept, rfl⟩

section

variable (proper : t.Proper root) (live : t.Below root id) (edit : Edit t t' root id)

include proper edit

/-- What is outside of a node has nothing new above it. -/
theorem Edit.above_outside (range : x.index < t.size) (outside : ¬ t.Below id x) (below : t'.Below a x) : t.Below a x := by
  refine below.induct (motive := fun x => x.index < t.size → ¬ t.Below id x → t.Below a x) (fun _ _ => .refl a) ?_ range
    outside
  intro x p link _ ih range outside
  rcases edit.links x range with same | exposed
  · have link : t.parent? x = some p := same ▸ link
    refine .link link (ih ?_ fun above => outside (.link link above))
    by_contra beyond
    have slot := proper.held x p link
    rw [t.children_eq_nil_of_size_le (not_lt.1 beyond)] at slot
    cases slot
  · exact absurd exposed.beneath outside

include live

theorem Edit.above_self (below : t'.Below a id) : t.Below a id := by
  rcases below.cases with same | ⟨p, link, above⟩
  · exact same ▸ .refl id
  · have link : t.parent? id = some p := by
      rcases edit.self with none | same
      · rw [none] at link
        cases link
      · exact same ▸ link
    have holder : t.Below root p := live.holder link (ne_of_link link proper.rooted.top)
    exact .link link (edit.above_outside proper (proper.rooted.index_lt holder)
      (not_below_of_link proper.rooted.top live link) above)

/-- What is in the tree afterwards and is no new node was in it before. -/
theorem Edit.live_before (range : x.index < t.size) (below : t'.Below root x) : t.Below root x := by
  by_cases under : t.Below id x
  · exact live.trans under
  · exact edit.above_outside proper range under below

end

/-- What is known of a tree when a run from `start` has yet to look at `rest`. -/
structure Sweep (settings : Settings) (start t : Tree) (root : NodeId) (rest : List NodeId) : Prop where
  proper : t.Proper root
  size : start.size ≤ t.size
  ahead : ∀ y ∈ rest, start.Below root y
  order : rest.Pairwise fun a b => ¬ start.Below a b
  above : ∀ y ∈ rest, ∀ a, t.Below a y → start.Below a y
  listing : ∀ x, x.index < start.size → (t.form x).listing? = (start.form x).listing?
  single : ∀ y ∈ rest, (start.form y).isConcise = true → (t.children y).length ≤ 1
  closed : ∀ x, start.Sealed x → t.parent? x = start.parent? x
  done : ∀ x, t.Below root x → x ∉ rest → (∀ y ∈ rest, ¬ t.Below x y) ∧ (¬ start.Sealed x → Still settings t x)

section

variable {start : Tree} {rest : List NodeId}

theorem index_lt_of_above {y : NodeId} (whole : start.Proper root) (live : start.Below root y) (above : start.Below a y) :
    a.index < start.size := by
  rcases live.linear above with inside | top
  · exact whole.rooted.index_lt inside
  · exact top.eq_of_top whole.rooted.top ▸ whole.rooted.index_lt (.refl root)

theorem Sweep.sealed (sweep : Sweep settings start t root rest) (inside : start.Sealed x) : t.Sealed x := by
  obtain ⟨comment, below, other, form⟩ := inside
  have kept : t.Below comment x := by
    refine below.induct (motive := fun x => comment ≠ x → t.Below comment x) (fun other => absurd rfl other) ?_ other
    intro x p link above ih other
    refine .link ((sweep.closed x ⟨comment, .link link above, other, form⟩).trans link) ?_
    by_cases here : comment = p
    · exact here ▸ .refl comment
    · exact ih here
  have range : comment.index < start.size := index_lt_of_form fun empty => by cases empty ▸ form
  exact ⟨comment, kept, other, (sweep.listing comment range).trans form⟩

variable (whole : start.Proper root) (sweep : Sweep settings start t root (id :: rest))

include sweep

theorem Sweep.outside {y : NodeId} (member : y ∈ rest) : ¬ t.Below id y := fun below =>
  (pairwise_cons.mp sweep.order).1 y member (sweep.above y (.tail _ member) id below)

/-- A node is settled when nothing is left to do to it. -/
theorem Sweep.drop (still : t.Below root id → ¬ start.Sealed id → Still settings t id) :
    Sweep settings start t root rest where
  proper := sweep.proper
  size := sweep.size
  ahead y member := sweep.ahead y (.tail _ member)
  order := (pairwise_cons.mp sweep.order).2
  above y member := sweep.above y (.tail _ member)
  listing := sweep.listing
  single y member := sweep.single y (.tail _ member)
  closed := sweep.closed
  done x below settled := by
    by_cases here : x = id
    · subst here
      exact ⟨fun y member => sweep.outside member, still below⟩
    · have before := sweep.done x below (by simp [here, settled])
      exact ⟨fun y member => before.1 y (.tail _ member), before.2⟩

include whole

theorem Sweep.sealed_before (inside : t.Sealed id) : start.Sealed id := by
  obtain ⟨comment, below, other, form⟩ := inside
  have above := sweep.above id (.head _) comment below
  have range := index_lt_of_above whole (sweep.ahead id (.head _)) above
  exact ⟨comment, above, other, (sweep.listing comment range).symm.trans form⟩

/-- An edit for the sake of the node at hand leaves all that is settled as it is. -/
theorem Sweep.edit (live : t.Below root id) (editable : ¬ start.Sealed id) (strict : (start.form id).isConcise = false)
    (edit : Edit t t' root id) : Sweep settings start t' root (id :: rest) := by
  have shrinks (y : NodeId) (member : y ∈ id :: rest) (a : NodeId) (below : t'.Below a y) : t.Below a y := by
    rcases mem_cons.mp member with rfl | member
    · exact edit.above_self sweep.proper live below
    · have range := (whole.rooted.index_lt (sweep.ahead y (.tail _ member))).trans_le sweep.size
      exact edit.above_outside sweep.proper range (sweep.outside member) below
  refine ⟨edit.proper, sweep.size.trans edit.size, sweep.ahead, sweep.order,
    fun y member a below => sweep.above y member a (shrinks y member a below),
    fun x range => (edit.listing x (range.trans_le sweep.size)).trans (sweep.listing x range), ?_, ?_, ?_⟩
  · intro y member concise
    have other : y ≠ id := by
      rintro rfl
      simp [concise] at strict
    have range := (whole.rooted.index_lt (sweep.ahead y member)).trans_le sweep.size
    have before := sweep.single y member concise
    by_cases same : t'.form y = t.form y
    · rwa [children, same, ← children]
    · rcases edit.forms y range other same with ⟨-, length⟩ | ⟨link, -⟩
      · rwa [length]
      · exact absurd (.link link (.refl id)) (sweep.outside ((mem_cons.mp member).resolve_left other))
  · intro x inside
    have before := sweep.closed x inside
    rcases Nat.lt_or_ge x.index t.size with range | outside
    · rcases edit.links x range with same | exposed
      · exact same.trans before
      · exact absurd (sweep.sealed_before whole ((sweep.sealed inside).exposed exposed)) editable
    · obtain ⟨comment, below, other, -⟩ := inside
      obtain ⟨p, link, -⟩ := below.cases.resolve_left other.symm
      rw [t.parent?_eq_none_of_size_le outside, link] at before
      cases before
  · intro x below settled
    rcases Nat.lt_or_ge x.index t.size with range | fresh
    · have below := edit.live_before sweep.proper live range below
      obtain ⟨apart, still⟩ := sweep.done x below settled
      refine ⟨fun y member above => apart y member (shrinks y member x above), fun free => ?_⟩
      -- Only declarations change below what is settled, and nothing but the node at hand is above them.
      by_cases inert : Inert (t'.form x)
      · exact .of_inert inert
      refine (still free).congr sweep.proper.rooted below fun z under => by_contra fun changed => ?_
      have notUnder := apart id (.head _)
      have other : z ≠ id := by
        rintro rfl
        exact notUnder under
      rcases edit.forms z (sweep.proper.rooted.index_lt (below.trans under)) other changed with ⟨link, -⟩ | ⟨link, leaf⟩
      · exact notUnder (.link link under)
      · refine notUnder (under.holder link ?_)
        rintro rfl
        exact inert leaf
    · refine ⟨fun y member above => ?_, fun _ => .of_inert (edit.inert x fresh)⟩
      have range := index_lt_of_above whole (sweep.ahead y member) (sweep.above y member x (shrinks y member x above))
      exact absurd (range.trans_le sweep.size) (Nat.not_lt_of_le fresh)

theorem Sweep.joinFrom (editable : ¬ start.Sealed id) (strict : (start.form id).isConcise = false) (rounds index : Nat)
    (isList : (t.form id).listing? = some false) (live : t.Below root id) (apart : ApartUpTo settings t id index)
    (enough : (t.statements id).length ≤ rounds + index + 1) :
    Sweep settings start (Combine.joinFrom settings id rounds index t).tree root rest := by
  induction rounds generalizing index t with
  | zero => exact sweep.drop fun _ _ => .of_list isList (apart.of_length (by omega))
  | succ rounds ih =>
    unfold Combine.joinFrom
    split
    · rename_i first second found found'
      split
      · rename_i t' joined
        obtain ⟨before, after, joined, rfl, joins⟩ := join?_joins sweep.proper live found found' joined
        have edit := joins.edit sweep.proper live (by simp [isList])
        refine ih (sweep.edit whole live editable strict edit) before.length ?_ joins.live
          (joins.apart sweep.proper live apart) ?_
        · rw [edit.listing id (sweep.proper.rooted.index_lt live), isList]
        · rw [statements_eq (joins.relisted.statementList? joins.isList)]
          rw [statements_eq joins.isList] at enough
          simp only [length_append, length_cons] at enough ⊢
          omega
      · rename_i none
        refine ih sweep (index + 1) isList live (fun i range a b here there => ?_) (by omega)
        rcases Nat.lt_succ_iff_lt_or_eq.mp range with inner | rfl
        · exact apart i inner a b here there
        · rw [found] at here
          rw [found'] at there
          cases here
          cases there
          exact join?_eq_none_iff.mp none
    · rename_i none
      refine sweep.drop fun _ _ => .of_list isList (apart.of_length ?_)
      by_contra more
      exact none _ _ (getElem?_eq_getElem (by omega)) (getElem?_eq_getElem (by omega))

end

theorem ApartUpTo.of_children (few : (t.children id).length ≤ 1) (bound : Nat) : ApartUpTo settings t id bound :=
  (show ApartUpTo settings t id 0 from nofun).of_length ((t.statements_sublist id).length_le.trans few) bound

section

variable (whole : t.Proper root) (single : ∀ y, (t.form y).isConcise = true → (t.children y).length ≤ 1)

include whole single

theorem run_sweep (enabled : settings.minifyCode) : Sweep settings t (run settings root t).tree root [] := by
  unfold run
  rw [if_pos enabled]
  refine Changed.each_induction (P := fun rest t' => Sweep settings t t' root rest) ?_ fun id rest t' sweep => ?_
  · refine ⟨whole, .refl, fun y member => whole.rooted.below_of_mem_descendants (mem_reverse.mp member),
      pairwise_reverse.mpr whole.rooted.descendants_pairwise, fun _ _ _ below => below, fun _ _ => rfl,
      fun y _ => single y, fun _ _ => rfl, fun x below settled => absurd ?_ settled⟩
    exact mem_reverse.mpr (whole.rooted.mem_descendants (fun child id _ => whole.held child id) below)
  · have present := sweep.ahead id (.head _)
    have kept := sweep.listing id (whole.rooted.index_lt present)
    split
    · rename_i dead
      refine sweep.drop fun live => ?_
      simp [sweep.proper.rooted.isLive live] at dead
    rename_i alive
    have live : t'.Below root id := below_of_isLive (by simpa using alive)
    split
    · rename_i listed
      obtain ⟨-, isList, strict, editable⟩ := whole.mem_editableLists.mp (contains_iff_mem.mp listed)
      exact sweep.joinFrom whole editable strict _ 0 (kept.trans isList) live nofun (by omega)
    rename_i unlisted
    rw [contains_iff_mem, whole.mem_editableLists, not_and, not_and, not_and] at unlisted
    split
    · rename_i inside
      refine sweep.drop fun _ free => absurd ?_ free
      exact sweep.sealed_before whole ((sweep.proper.rooted.isInConditionalComment_iff live).mp inside)
    rename_i outside
    have free : ¬ t.Sealed id := fun inside =>
      outside ((sweep.proper.rooted.isInConditionalComment_iff live).mpr (sweep.sealed inside))
    rcases convertIf_cases settings sweep.proper live with ⟨none, same⟩ | ⟨other, edit, dead⟩
    · rw [same]
      refine sweep.drop fun _ _ => ⟨none, fun isList => ?_⟩
      refine ApartUpTo.of_children (sweep.single id (.head _) ?_)
      by_contra strict
      exact unlisted present (kept.symm.trans isList) (by simpa using strict) free
    · have strict : (t.form id).isConcise = false := by
        by_contra concise
        rw [kept, Form.listing?_of_isConcise (by simpa using concise)] at other
        cases other
      exact (sweep.edit whole live free strict edit).drop fun below => absurd below dead

theorem run_again : run settings root (run settings root t).tree = { tree := (run settings root t).tree } := by
  by_cases enabled : settings.minifyCode
  · have sweep := run_sweep whole single enabled
    generalize (run settings root t).tree = t' at sweep
    have rooted := sweep.proper.rooted
    unfold run
    rw [if_pos enabled]
    refine Changed.each_unchanged fun id member => ?_
    have live := rooted.below_of_mem_descendants (mem_reverse.mp member)
    rw [if_neg (by simp [rooted.isLive live])]
    split
    · rename_i listed
      obtain ⟨-, isList, -, editable⟩ := sweep.proper.mem_editableLists.mp (contains_iff_mem.mp listed)
      have still := (sweep.done id live not_mem_nil).2 fun inside => editable (sweep.sealed inside)
      exact ApartUpTo.joinFrom (still.apart isList) _ 0
    · split
      · rfl
      · rename_i outside
        have still := (sweep.done id live not_mem_nil).2 fun inside =>
          outside ((rooted.isInConditionalComment_iff live).mpr (sweep.sealed inside))
        rw [convertIf, still.kept]
  · unfold run
    rw [if_neg enabled, if_neg enabled]

end

end Combine

theorem parse_single (source : String) (settings : Settings) (id : NodeId)
    (concise : ((parse source settings).tree.form id).isConcise) :
    ((parse source settings).tree.children id).length ≤ 1 := by
  have agrees : ((parseChunk source "input" settings {} {}).2.1).Agrees (parse source settings).tree :=
    resolveNames_agrees ..
  rw [agrees.view Form.isConcise fun _ _ _ => rfl] at concise
  rw [Tree.children, agrees.view Form.children fun _ _ _ => rfl]
  have writes : Tree.Writes true {} (parseChunk source "input" settings {} {}).2.1 :=
    parseChunk_writes _ _ _ _ _ _ fun none => absurd none.symm Bool.false_ne_true
  cases form : (parseChunk source "input" settings {} {}).2.1.form id with
  | block statements scope isConcise =>
    rcases writes id with same | written
    · rw [form] at same
      cases same
    · rw [form] at written concise
      exact written concise
  | _ =>
    rw [form] at concise
    cases concise

/-- Combining the statements of a parsed text once is enough: a second run makes no change and leaves every node as it
is. -/
theorem combine_run_again (source : String) (settings options : Settings) :
    let parsed := parse source settings
    let tree := (Combine.run options parsed.root parsed.tree).tree
    Combine.run options parsed.root tree = { tree, changes := 0 } :=
  Combine.run_again (parse_proper source settings) (parse_single source settings)

end Condense
