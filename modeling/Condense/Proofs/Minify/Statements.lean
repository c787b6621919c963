import Condense.Minify.Combine
import Condense.Minify.DeadCode
import Condense.Minify.Debug
import Condense.Proofs.Minify.Proper
import Mathlib.Data.List.Pairwise

/-!
What the passes over statements make of a tree.
-/

attribute [local simp] Condense.Form.children

namespace Condense

open List Condense.Tree

variable {t t' : Tree} {root id : NodeId}
variable {list first second : NodeId}

namespace Debug

theorem removeFrom_proper (settings : Settings) (list : NodeId) (proper : t.Proper root) :
    (removeFrom settings t list).tree.Proper root := by
  refine Changed.each_keeps (P := fun t => t.Proper root) proper fun t id proper => ?_
  split
  · exact proper.removeStatement id
  · exact proper

theorem blankBody_proper (settings : Settings) (proper : t.Proper root) :
    (blankBody settings t id).tree.Proper root := by
  unfold blankBody
  split
  · split
    · exact proper.replaceByLeaf (t.span id) rfl
    · exact proper
  · exact proper

theorem run_proper (settings : Settings) (proper : t.Proper root) : (run settings root t).tree.Proper root := by
  refine Changed.each_keeps (P := fun t => t.Proper root) ?_ fun t id proper => blankBody_proper settings proper
  refine Changed.each_keeps (P := fun t => t.Proper root) proper fun t list proper => ?_
  split
  · exact removeFrom_proper settings list proper
  · exact proper

end Debug

namespace DeadCode

/-- Only declarators change, and a list around them stays in the tree. -/
structure Strips (t t' : Tree) (root list : NodeId) : Prop where
  proper : t'.Proper root
  live : t'.Below root list
  forms : ∀ x, t'.form x = t.form x ∨ ∃ target init, t.form x = .declarator target init

theorem Strips.form_list (strips : Strips t t' root list)
    (isList : (t.form list).statementList? ≠ none) : t'.form list = t.form list := by
  refine (strips.forms list).resolve_right ?_
  rintro ⟨target, init, other⟩
  exact isList (by simp [other, Form.statementList?])

theorem Strips.trans {t'' : Tree} (first : Strips t t' root list) (second : Strips t' t'' root list) :
    Strips t t'' root list := by
  refine ⟨second.proper, second.live, fun x => ?_⟩
  rcases first.forms x with same | declarator
  · rw [← same]
    exact second.forms x
  · exact .inr declarator

variable (proper : t.Proper root) (live : t.Below root list)

include proper live

theorem Strips.refl : Strips t t root list :=
  ⟨proper, live, fun _ => .inl rfl⟩

theorem stripInit_strips {declarator : NodeId} (below : t.Below list declarator) (different : declarator ≠ list) :
    Strips t (stripInit t declarator) root list := by
  unfold stripInit
  split
  · rename_i target init form
    split
    · have under : t.Below root declarator := live.trans below
      have offered : t.Offered root declarator (Form.declarator target (none : Option NodeId)).children := by
        refine proper.rooted.offered_sublist under (.refl declarator) ?_
        simp [children, form]
      refine ⟨proper.setForm under offered (proper.ne_root (by simp [form, Form.IsProgram])), ?_, fun x => ?_⟩
      · refine .setForm proper.rooted under offered live fun beneath => ?_
        exact absurd (Below.antisymm proper.rooted.top under beneath below) different
      · rw [setForm_form]
        split
        · rename_i here
          exact .inr ⟨target, some init, here.1 ▸ form⟩
        · exact .inl rfl
    · exact .refl proper live
  · exact .refl proper live

theorem stripInits_strips (isList : (t.form list).statementList? ≠ none) (slot : id ∈ t.children list) :
    Strips t (stripInits t id) root list := by
  unfold stripInits
  split
  · rename_i declarators form
    have fold (ds : List NodeId) (t' : Tree) (sub : ds ⊆ declarators) (strips : Strips t t' root list) :
        Strips t (ds.foldl stripInit t') root list := by
      induction ds generalizing t' with
      | nil => exact strips
      | cons d rest ih =>
        -- The list and the statement are no declarators, so they still hold what they held.
        have list' : t'.form list = t.form list := strips.form_list isList
        have form' : t'.form id = .var .var declarators := by
          rw [(strips.forms id).resolve_right (by simp [form]), form]
        have tidy := strips.proper.rooted.tidy
        have link := (tidy list strips.live).linked id (by rw [children, list']; exact slot)
        have live' : t'.Below root id := .link link strips.live
        have link' := (tidy id live').linked d (by simpa [children, form'] using sub (.head _))
        refine ih (stripInit t' d) (fun x member => sub (.tail _ member)) (strips.trans ?_)
        refine stripInit_strips strips.proper strips.live (.link link' (.link link (.refl list))) ?_
        rintro rfl
        exact not_below_of_link strips.proper.rooted.top strips.live link' (.link link (.refl d))
    exact fold declarators t (List.Subset.refl _) (.refl proper live)
  · exact .refl proper live

theorem keep_strips (unreachable : Bool) (ids : List NodeId) (isList : (t.form list).statementList? ≠ none)
    (sub : ids ⊆ t.children list) :
    Strips t (keep unreachable ids t).2 root list ∧ (keep unreachable ids t).1.Sublist ids := by
  induction ids generalizing t unreachable with
  | nil => exact ⟨.refl proper live, nil_sublist _⟩
  | cons id rest ih =>
    have sub' : rest ⊆ t.children list := fun x member => sub (.tail _ member)
    dsimp only [keep]
    split
    · obtain ⟨strips, sublist⟩ := ih proper live unreachable isList sub'
      exact ⟨strips, sublist.cons id⟩
    · have strips : Strips t (if unreachable then stripInits t id else t) root list := by
        split
        · exact stripInits_strips proper live isList (sub (.head _))
        · exact .refl proper live
      generalize (if unreachable then stripInits t id else t) = t' at strips
      have list' : t'.form list = t.form list := strips.form_list isList
      obtain ⟨further, sublist⟩ := ih strips.proper strips.live (unreachable || (t.form id).isJump)
        (list' ▸ isList) (by rw [children, list']; exact sub')
      exact ⟨strips.trans further, sublist.cons_cons id⟩

end DeadCode

/-- Whether a form is a list of statements, and if it is one, whether it is a conditional comment. -/
def Form.listing? {α : Type} : Form α → Option Bool
  | .ccComment _ => some true
  | .program .. | .block .. | .switchCase .. => some false
  | _ => none

/-- Whether a node is `top` or below it and no conditional comment is on the way. -/
inductive Tree.Exposed (t : Tree) (top : NodeId) : NodeId → Prop
  | refl : t.Exposed top top
  | link {x p : NodeId} (link : t.parent? x = some p) (regular : (t.form p).listing? ≠ some true)
      (above : t.Exposed top p) : t.Exposed top x

theorem Tree.Exposed.beneath {top x : NodeId} (exposed : t.Exposed top x) : t.Below top x := by
  induction exposed with
  | refl => exact .refl top
  | link link _ _ ih => exact .link link ih

theorem Tree.Exposed.trans {a b c : NodeId} (upper : t.Exposed a b) (lower : t.Exposed b c) : t.Exposed a c := by
  induction lower with
  | refl => exact upper
  | link link regular _ ih => exact .link link regular ih

namespace Combine

/-- Different nodes below a node, none of them above another and none of them inside a comment. -/
structure Parts (t : Tree) (id : NodeId) (parts : List NodeId) : Prop where
  distinct : parts.Nodup
  inner : ∀ part ∈ parts, t.Exposed id part ∧ part ≠ id
  apart : ∀ part ∈ parts, ∀ other ∈ parts, t.Below part other → part = other

section

variable (rooted : t.Rooted root) (below : t.Below root id)

include rooted below

/-- One node below each of some children of a node. -/
theorem parts_of_children (regular : (t.form id).listing? ≠ some true) {tops parts : List NodeId}
    (sublist : tops.Sublist (t.children id)) (under : List.Forall₂ t.Exposed tops parts) : Parts t id parts := by
  have tidy := rooted.tidy id below
  have origin {tops parts : List NodeId} (under : List.Forall₂ t.Exposed tops parts) (part : NodeId)
      (member : part ∈ parts) : ∃ top ∈ tops, t.Exposed top part := by
    induction under with
    | nil => cases member
    | cons first _ ih =>
      rcases mem_cons.mp member with rfl | member
      · exact ⟨_, .head _, first⟩
      · obtain ⟨top, member, under⟩ := ih member
        exact ⟨top, .tail _ member, under⟩
  have separate : parts.Pairwise fun a b => ¬ t.Below a b ∧ ¬ t.Below b a := by
    induction under with
    | nil => exact .nil
    | @cons top part tops parts first rest ih =>
      refine pairwise_cons.mpr ⟨fun other member => ?_, ih ((sublist_cons_self _ _).trans sublist)⟩
      obtain ⟨top', member, under⟩ := origin rest other member
      have different : top ≠ top' := fun same =>
        (nodup_cons.mp (tidy.distinct.sublist sublist)).1 (same ▸ member)
      have slots := sublist.subset
      refine ⟨fun beneath => different ?_, fun beneath => different ?_⟩
      · exact rooted.siblings_apart below (slots (.head _)) (slots (.tail _ member))
          (first.beneath.trans beneath) under.beneath
      · exact rooted.siblings_apart below (slots (.head _)) (slots (.tail _ member)) first.beneath
          (under.beneath.trans beneath)
  refine ⟨separate.imp ?_, fun part member => ?_, fun part member other member' beneath => ?_⟩
  · rintro a b apart rfl
    exact apart.1 (.refl a)
  · obtain ⟨top, slot, under⟩ := origin under part member
    have link := tidy.linked top (sublist.subset slot)
    refine ⟨(Exposed.link link regular .refl).trans under, ?_⟩
    rintro rfl
    exact not_below_of_link rooted.top (.link link below) link under.beneath
  · have symmetric : Std.Symm fun a b => ¬ t.Below a b ∧ ¬ t.Below b a := ⟨fun _ _ => And.symm⟩
    by_contra different
    exact (separate.forall member member' different).1 beneath

theorem singleStatement?_exposed {only : NodeId} (single : t.singleStatement? id = some only) : t.Exposed id only := by
  unfold singleStatement? at single
  split at single
  · rename_i statement form
    obtain rfl := Option.some.inj single
    exact .link ((rooted.tidy id below).linked statement (by simp [form])) (by simp [form, Form.listing?]) .refl
  · cases single
  · cases single
    exact .refl

end

/-- A form that combination leaves alone wherever it stands. -/
def Inert (form : Form NodeId) : Prop :=
  form.listing? = none ∧ ∀ condition consequent alternate, form ≠ .ifStatement condition consequent alternate

theorem inert_of_size_le {x : NodeId} (outside : t.size ≤ x.index) : Inert (t.form x) := by
  simp [t.form_eq_empty_of_size_le outside, Inert, Form.listing?]

/-- What takes the place of an `if`, and the tree that holds it. -/
inductive Replaces (t : Tree) (id : NodeId) : NodeId → Tree → Prop
  | condition {condition consequent : NodeId} (form : t.form id = .ifStatement condition consequent none)
      (empty : isEmptyStatement (t.form consequent) = true) : Replaces t id condition t
  | conjunction {condition consequent yes : NodeId} (form : t.form id = .ifStatement condition consequent none)
      (single : t.singleStatement? consequent = some yes) (plain : isPlain (t.form yes) = true) :
      Replaces t id ⟨t.size⟩ (t.alloc (.binary .and condition yes) (t.span id)).2
  | choice {condition consequent alternate yes no : NodeId}
      (form : t.form id = .ifStatement condition consequent (some alternate))
      (single : t.singleStatement? consequent = some yes) (single' : t.singleStatement? alternate = some no)
      (plain : isPlain (t.form yes) = true) (plain' : isPlain (t.form no) = true) :
      Replaces t id ⟨t.size⟩ (t.alloc (.conditional condition yes no) (t.span id)).2
  | returns {condition consequent alternate yes no value value' : NodeId}
      (form : t.form id = .ifStatement condition consequent (some alternate))
      (single : t.singleStatement? consequent = some yes) (single' : t.singleStatement? alternate = some no)
      (returned : t.form yes = .returnStatement (some value)) (returned' : t.form no = .returnStatement (some value')) :
      Replaces t id ⟨(t.alloc (.conditional condition value value') (t.span id)).2.size⟩
        ((t.alloc (.conditional condition value value') (t.span id)).2.alloc (.returnStatement (some ⟨t.size⟩))
          (t.span id)).2

theorem form_of_returnedValue? {form : Form NodeId} {value : NodeId} (found : returnedValue? form = some value) :
    form = .returnStatement (some value) := by
  unfold returnedValue? at found
  split at found
  · rw [found]
  · cases found

theorem replacement?_replaces {settings : Settings} {new : NodeId}
    (found : replacement? settings t id = some (new, t')) : Replaces t id new t' := by
  unfold replacement? at found
  split at found
  · rename_i condition consequent alternate form
    split at found
    · rename_i simple
      simp only [Bool.and_eq_true, Option.isNone_iff_eq_none] at simple
      obtain ⟨⟨rfl, empty⟩, -⟩ := simple
      split at found
      · cases found
        exact .condition form empty
      · cases found
    · obtain ⟨yes, single, found⟩ := Option.bind_eq_some_iff.mp found
      cases alternate with
      | none =>
        have found : conjunction? settings t (t.span id) condition yes = some (new, t') := found
        unfold conjunction? at found
        split at found
        · rename_i allowed
          cases found
          exact .conjunction form single (Bool.and_eq_true_iff.mp allowed).2
        · cases found
      | some alternate =>
        obtain ⟨no, single', found⟩ := Option.bind_eq_some_iff.mp found
        unfold choice? at found
        split at found
        · rename_i plain
          split at found
          · cases found
            obtain ⟨plain, plain'⟩ := Bool.and_eq_true_iff.mp plain
            exact .choice form single single' plain plain'
          · cases found
        · split at found
          · rename_i returned returned'
            split at found
            · cases found
              exact .returns form single single' (form_of_returnedValue? returned) (form_of_returnedValue? returned')
            · cases found
          · cases found
  · cases found

/-- An `if` is replaced by one of its children or by a node that is built from parts of them. -/
theorem Replaces.cases {new : NodeId} (proper : t.Proper root) (below : t.Below root id)
    (replaces : Replaces t id new t') :
    (∃ condition consequent alternate, t.form id = .ifStatement condition consequent alternate) ∧
      (t' = t ∧ new ∈ t.children id ∨ ∃ parts, t.Built t' parts new ∧ Parts t id parts) ∧
      ∀ x, t.size ≤ x.index → Inert (t'.form x) := by
  have unused (x : NodeId) (outside : t.size ≤ x.index) : Inert (t.form x) := inert_of_size_le outside
  have allocated {s : Tree} (form : Form NodeId) (inert : Inert form) (span : Span)
      (before : ∀ x, t.size ≤ x.index → Inert (s.form x)) (x : NodeId) (outside : t.size ≤ x.index) :
      Inert ((s.alloc form span).2.form x) := by
    rw [alloc_form]
    split
    · exact inert
    · exact before x outside
  have built (regular : (t.form id).listing? ≠ some true) (form : Form NodeId)
      (under : List.Forall₂ t.Exposed (t.children id) form.children) :
      t.Built (t.alloc form (t.span id)).2 form.children ⟨t.size⟩ ∧ Parts t id form.children := by
    have parts := parts_of_children proper.rooted below regular (List.Sublist.refl _) under
    exact ⟨.alloc proper.held form _ parts.distinct fun part member =>
      proper.rooted.index_lt (below.trans (parts.inner part member).1.beneath), parts⟩
  have exposed {child only : NodeId} (slot : child ∈ t.children id) (single : t.singleStatement? child = some only) :
      t.Exposed child only :=
    singleStatement?_exposed proper.rooted (proper.rooted.below_child below slot) single
  have value {child only value : NodeId} (slot : child ∈ t.children id) (single : t.singleStatement? child = some only)
      (form : t.form only = .returnStatement (some value)) : t.Exposed child value := by
    have under := exposed slot single
    have live := (proper.rooted.below_child below slot).trans under.beneath
    exact .link (proper.rooted.linked live (by simp [form])) (by simp [form, Form.listing?]) under
  have parts {condition consequent alternate yes no : NodeId}
      (form : t.form id = .ifStatement condition consequent (some alternate)) (first : t.Exposed consequent yes)
      (second : t.Exposed alternate no) := by
    refine built (by simp [form, Form.listing?]) (.conditional condition yes no) ?_
    simpa [children, form] using ⟨Exposed.refl, first, second⟩
  cases replaces with
  | condition form _ => exact ⟨⟨_, _, _, form⟩, .inl ⟨rfl, by simp [form]⟩, unused⟩
  | @conjunction condition consequent yes form single _ =>
    have first := exposed (by simp [form]) single
    have made := built (by simp [form, Form.listing?]) (.binary .and condition yes)
      (by simpa [children, form] using ⟨Exposed.refl, first⟩)
    exact ⟨⟨_, _, _, form⟩, .inr ⟨_, made⟩, allocated _ (by simp [Inert, Form.listing?]) _ unused⟩
  | choice form single single' _ _ =>
    have made := parts form (exposed (by simp [form]) single) (exposed (by simp [form]) single')
    exact ⟨⟨_, _, _, form⟩, .inr ⟨_, made⟩, allocated _ (by simp [Inert, Form.listing?]) _ unused⟩
  | returns form single single' returned returned' =>
    obtain ⟨built, separate⟩ := parts form (value (by simp [form]) single returned) (value (by simp [form]) single' returned')
    exact ⟨⟨_, _, _, form⟩, .inr ⟨_, built.around _ rfl, separate⟩, allocated _ (by simp [Inert, Form.listing?]) _
      (allocated _ (by simp [Inert, Form.listing?]) _ unused)⟩

/-- What takes the place of an `if` leaves a proper tree, and only links of nodes that no comment hides below the `if`
change. -/
theorem exists_exchanged {grown : Tree} {new : NodeId} (proper : t.Proper root) (live : t.Below root id)
    (branch : ∃ condition consequent alternate, t.form id = .ifStatement condition consequent alternate)
    (made : grown = t ∧ new ∈ t.children id ∨ ∃ parts, t.Built grown parts new ∧ Parts t id parts) :
    ∃ t' parent, t.parent? id = some parent ∧ t.Below root parent ∧ grown.replace? id new = some t' ∧
      grown.Exchanged t' parent id new ∧ t'.Proper root ∧ (∀ x, x.index < t.size → grown.form x = t.form x) ∧
      ∀ x, x.index < t.size → t'.parent? x = t.parent? x ∨ t.Exposed id x := by
  obtain ⟨condition, consequent, alternate, form⟩ := branch
  obtain ⟨parent, link, above⟩ := live.cases.resolve_left (proper.ne_root (by simp [form, Form.IsProgram]))
  have links {t' : Tree} (exchanged : grown.Exchanged t' parent id new) (x : NodeId)
      (kept : x ≠ new → grown.parent? x = t.parent? x ∨ t.Exposed id x) (moved : x = new → t.Exposed id x) :
      t'.parent? x = t.parent? x ∨ t.Exposed id x := by
    rw [exchanged.parent?]
    split
    · rename_i here
      exact .inr (moved here)
    rename_i other
    split
    · rename_i here
      exact .inr (here ▸ .refl)
    · exact kept other
  rcases made with ⟨rfl, slot⟩ | ⟨parts, built, separate⟩
  · have inner := proper.rooted.linked live slot
    obtain ⟨t', done, exchanged⟩ := replace?_exchanged proper.held link (grown.index_lt_of_parent? inner)
      fun holder held => by
        rw [← Option.some.inj (inner.symm.trans held), form]
        rfl
    refine ⟨t', parent, link, above, done, exchanged, ⟨exchanged.rooted_inner proper.held proper.rooted live inner,
      exchanged.held proper.held, exchanged.isProgram proper.program⟩, fun _ _ => rfl, fun x _ => ?_⟩
    refine links exchanged x (fun _ => .inl rfl) ?_
    rintro rfl
    exact .link inner (by simp [form, Form.listing?]) .refl
  · have link' : grown.parent? id = some parent := by
      rw [built.kept id (proper.rooted.index_lt live) fun member => (separate.inner id member).2 rfl, link]
    obtain ⟨t', done, exchanged⟩ := replace?_exchanged built.held link' built.inside fun holder held => by
      rw [built.top] at held
      cases held
    have inner (part : NodeId) (member : part ∈ parts) := And.imp_left Exposed.beneath (separate.inner part member)
    refine ⟨t', parent, link, above, done, exchanged, ⟨built.rooted exchanged proper.rooted live inner separate.apart,
      exchanged.held built.held, exchanged.isProgram ?_⟩, built.forms, fun x range => links exchanged x (fun _ => ?_) ?_⟩
    · rw [built.forms root proper.rooted.inside]
      exact proper.program
    · by_cases member : x ∈ parts
      · exact .inr (separate.inner x member).1
      · exact .inl (built.kept x range member)
    · exact fun same => absurd same (ne_of_fresh range built.fresh)

theorem joinVars_proper {kind : DeclarationKind} {head tail : List NodeId} (proper : t.Proper root)
    (below : t.Below root first) (loose : t.Rooted second) (apart : second ≠ root)
    (form : t.form first = .var kind head) (form' : t.form second = .var kind tail) :
    (t.setForm first (.var kind (head ++ tail))).Proper root ∧
      ∀ x, t.Below root x → (t.Below first x → x = first) →
        (t.setForm first (.var kind (head ++ tail))).Below root x := by
  have slots : t.children first = head := by simp [children, form]
  have slots' : t.children second = tail := by simp [children, form']
  have tidy := proper.rooted.tidy first below
  have tidy' := loose.tidy second (.refl second)
  have under {part : NodeId} (member : part ∈ head) : t.Below root part :=
    proper.rooted.below_child below (slots ▸ member)
  have under' {part : NodeId} (member : part ∈ tail) : t.Below second part :=
    loose.below_child (.refl second) (slots' ▸ member)
  -- The declarators of the second hang in another tree than those of the first.
  have separate {x : NodeId} (live : t.Below root x) : ¬ t.Below second x := fun beneath =>
    apart (proper.rooted.apart loose live beneath).symm
  have offered : t.Offered root first (Form.var kind (head ++ tail)).children := by
    refine ⟨?_, fun part member => ?_, fun part member other member' beneath => ?_⟩
    · refine nodup_append.mpr ⟨slots ▸ tidy.distinct, slots' ▸ tidy'.distinct, ?_⟩
      rintro part member other member' rfl
      exact separate (under member) (under' member')
    · rcases mem_append.mp member with member | member
      · exact (proper.rooted.offered_sublist below (.refl first) (List.Sublist.refl _)).free part (slots ▸ member)
      · exact .inr ⟨second, apart, loose, under' member⟩
    · rcases mem_append.mp member with member | member <;> rcases mem_append.mp member' with member' | member'
      · exact proper.rooted.siblings_apart below (slots ▸ member) (slots ▸ member') beneath (.refl other)
      · exact absurd (under' member') (separate ((under member).trans beneath))
      · exact absurd ((under' member).trans beneath) (separate (under member'))
      · exact loose.siblings_apart (.refl second) (slots' ▸ member) (slots' ▸ member') beneath (.refl other)
  refine ⟨proper.setForm below offered (proper.ne_root (by simp [form, Form.IsProgram])), fun x live other => ?_⟩
  exact .setForm proper.rooted below offered live fun beneath => .inl (other beneath)

theorem removeAt?_of_getElem? {statement : NodeId} {index : Nat}
    (found : (t.statements list)[index]? = some statement) : ∃ t', t.removeAt? list index = some (statement, t') := by
  unfold removeAt?
  cases here : (t.form list).statementList? with
  | none => simp [statements, here] at found
  | some statements =>
    rw [statements_eq here] at found
    simp [found]

end Combine

end Condense
