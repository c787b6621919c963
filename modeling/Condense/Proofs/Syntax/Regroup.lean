import Condense.Proofs.Syntax.Edits

/-!
A node of a tree that gets another form.
-/

namespace Condense

variable {part x list : NodeId}

namespace Tree

variable {t t' : Tree} {root id : NodeId} {parts : List NodeId}

/-- Nodes that a node of a tree may take as its children. -/
structure Offered (t : Tree) (root id : NodeId) (parts : List NodeId) : Prop where
  distinct : parts.Nodup
  free : ∀ part ∈ parts, t.Below id part ∧ part ≠ id ∨ ∃ top, top ≠ root ∧ t.Rooted top ∧ t.Below top part
  apart : ∀ part ∈ parts, ∀ other ∈ parts, t.Below part other → part = other

/-- A node may take children of a node below it. -/
theorem Rooted.offered_sublist {holder : NodeId} (rooted : t.Rooted root) (below : t.Below root id)
    (lower : t.Below id holder) (sublist : parts.Sublist (t.children holder)) : t.Offered root id parts where
  distinct := (rooted.tidy holder (below.trans lower)).distinct.sublist sublist
  free part member := by
    have link := rooted.linked (below.trans lower) (sublist.subset member)
    refine .inl ⟨.link link lower, ?_⟩
    rintro rfl
    exact not_below_of_link rooted.top below link lower
  apart part member other member' beneath :=
    rooted.siblings_apart (below.trans lower) (sublist.subset member) (sublist.subset member') beneath (.refl other)

section

variable (rooted : t.Rooted root) (below : t.Below root id) (offered : t.Offered root id parts)

include rooted below offered

theorem Offered.inside (member : part ∈ parts) : part.index < t.size := by
  rcases offered.free part member with ⟨under, -⟩ | ⟨top, -, other, under⟩
  · exact rooted.index_lt (below.trans under)
  · exact other.index_lt under

omit below in
/-- A part that is in the tree is below the node that takes it. -/
theorem Offered.under (member : part ∈ parts) (live : t.Below root part) : t.Below id part ∧ part ≠ id := by
  rcases offered.free part member with inner | ⟨top, different, other, under⟩
  · exact inner
  · exact absurd (rooted.apart other live under).symm different

theorem Offered.ne_root (member : part ∈ parts) : part ≠ root := by
  rintro rfl
  obtain ⟨under, different⟩ := offered.under rooted member (.refl part)
  exact different (under.eq_of_top rooted.top)

/-- No part is above the node that takes it. -/
theorem Offered.not_above (member : part ∈ parts) : ¬ t.Below part id := by
  intro beneath
  rcases offered.free part member with ⟨under, different⟩ | ⟨top, different, other, under⟩
  · exact different (Below.antisymm rooted.top (below.trans under) beneath under)
  · exact different (rooted.apart other below (under.trans beneath)).symm

/-- What is held by a node below a part is no part. -/
theorem Offered.not_mem_of_link {child : NodeId} (member : part ∈ parts) (under : t.Below part x)
    (link : t.parent? child = some x) : child ∉ parts := by
  intro again
  obtain rfl := offered.apart part member child again (.link link under)
  rcases offered.free part member with ⟨inner, -⟩ | ⟨top, -, other, lower⟩
  · exact not_below_of_link rooted.top (below.trans inner) link under
  · exact not_below_of_link other.top lower link under

end

section

variable {form : Form NodeId} (rooted : t.Rooted root) (below : t.Below root id)
  (offered : t.Offered root id form.children)

include rooted below offered

theorem Offered.setForm_parent?_eq (x : NodeId) :
    (t.setForm id form).parent? x =
      if x ∈ form.children then some id else if t.parent? x = some id ∧ x ∈ t.children id then none
      else t.parent? x := by
  rw [setForm_parent?]
  by_cases member : x ∈ form.children
  · simp [member, offered.inside rooted below member]
  · by_cases slot : x ∈ t.children id
    · simp [member, slot, rooted.linked below slot]
    · simp [member, slot]

theorem Rooted.setForm (held : t.Held) : (t.setForm id form).Rooted root := by
  have inside := rooted.index_lt below
  refine .of_closed (held.setForm inside form) ?_ (by simpa using rooted.inside)
    (fun x => (t.Below root x ∧ (t.Below id x → x = id ∨ ∃ part ∈ form.children, t.Below part x)) ∨
      ∃ part ∈ form.children, ¬ t.Below root part ∧ t.Below part x) (.inl ⟨.refl root, fun beneath => ?_⟩) ?_ ?_
  · rw [offered.setForm_parent?_eq rooted below, if_neg fun member => offered.ne_root rooted below member rfl]
    simp [rooted.top]
  · exact .inl (beneath.eq_of_top rooted.top)
  · intro x good child slot
    rw [setForm_children] at slot
    rw [offered.setForm_parent?_eq rooted below]
    by_cases here : x = id
    · rw [if_pos ⟨here, inside⟩] at slot
      rw [if_pos slot, here]
      refine ⟨rfl, ?_⟩
      by_cases live : t.Below root child
      · exact .inl ⟨live, fun _ => .inr ⟨child, slot, .refl child⟩⟩
      · exact .inr ⟨child, slot, live, .refl child⟩
    · rw [if_neg fun same => here same.1] at slot
      have link : t.parent? child = some x := by
        rcases good with ⟨live, -⟩ | ⟨part, member, loose, under⟩
        · exact rooted.linked live slot
        · rcases offered.free part member with ⟨inner, -⟩ | ⟨top, -, other, lower⟩
          · exact absurd (below.trans inner) loose
          · exact other.linked (lower.trans under) slot
      have stays : child ∉ form.children := by
        rcases good with ⟨live, inner⟩ | ⟨part, member, -, under⟩
        · intro member
          obtain ⟨under, different⟩ := offered.under rooted member (.link link live)
          obtain ⟨part, member', under⟩ := (inner (under.holder link different)).resolve_left here
          exact offered.not_mem_of_link rooted below member' under link member
        · exact offered.not_mem_of_link rooted below member under link
      rw [if_neg stays, if_neg fun old => here (Option.some.inj (link.symm.trans old.1)), link]
      refine ⟨rfl, ?_⟩
      rcases good with ⟨live, inner⟩ | ⟨part, member, loose, under⟩
      · refine .inl ⟨.link link live, fun beneath => ?_⟩
        by_cases same : child = id
        · exact .inl same
        obtain ⟨part, member, under⟩ := (inner (beneath.holder link same)).resolve_left here
        exact .inr ⟨part, member, .link link under⟩
      · exact .inr ⟨part, member, loose, .link link under⟩
  · intro x good
    rw [setForm_children]
    split
    · exact offered.distinct
    · rcases good with ⟨live, -⟩ | ⟨part, member, loose, under⟩
      · exact (rooted.tidy x live).distinct
      · rcases offered.free part member with ⟨inner, -⟩ | ⟨top, -, other, lower⟩
        · exact absurd (below.trans inner) loose
        · exact (other.tidy x (lower.trans under)).distinct

/-- What is not below the node, or below one of its new children, stays in the tree. -/
theorem Below.setForm (live : t.Below root x) (inner : t.Below id x → x = id ∨ ∃ part ∈ form.children, t.Below part x) :
    (t.setForm id form).Below root x := by
  have node : (t.setForm id form).Below root id := by
    refine below.kept fun y _ beneath _ => ?_
    rw [offered.setForm_parent?_eq rooted below, if_neg fun member => offered.not_above rooted below member beneath,
      if_neg]
    rintro ⟨link, -⟩
    exact not_below_of_link rooted.top (.link link below) link beneath
  refine Below.induct (motive := fun x => (t.Below id x → x = id ∨ ∃ part ∈ form.children, t.Below part x) →
    (t.setForm id form).Below root x) (fun _ => .refl root) ?_ live inner
  intro x p link live ih inner
  by_cases here : x = id
  · exact here ▸ node
  by_cases member : x ∈ form.children
  · refine .link ?_ node
    rw [offered.setForm_parent?_eq rooted below, if_pos member]
  -- What is left is held as before, by a node to which the same applies.
  have deeper (beneath : t.Below id x) : ∃ part ∈ form.children, t.Below part p := by
    obtain ⟨part, member', under⟩ := (inner beneath).resolve_left here
    exact ⟨part, member', under.holder link fun same => member (same ▸ member')⟩
  refine .link ?_ (ih fun beneath => .inr (deeper (.link link beneath)))
  rw [offered.setForm_parent?_eq rooted below, if_neg member, if_neg, link]
  rintro ⟨same, -⟩
  obtain rfl := Option.some.inj (link.symm.trans same)
  obtain ⟨part, member', beneath⟩ := deeper (.link link (.refl p))
  exact offered.not_above rooted below member' beneath

end

/-- Where a node takes only what was below it, nothing comes to be below anything new. -/
theorem Below.of_setForm {form : Form NodeId} (inner : ∀ part ∈ form.children, t.Below id part) {top : NodeId}
    (below : (t.setForm id form).Below top x) : t.Below top x := by
  refine below.induct (.refl top) fun x p link _ above => ?_
  rw [setForm_parent?] at link
  split at link
  · rename_i taken
    rw [← Option.some.inj link] at above
    exact above.trans (inner x taken.1)
  split at link
  · cases link
  · exact .link link above

def relink (t : Tree) (list : NodeId) (old new : List NodeId) : Tree :=
  ((t.release (old.filter fun id => !new.contains id)).adopt list new).modifyForm list (·.withStatements new)

theorem setStatements_eq {old : List NodeId} (new : List NodeId)
    (here : (t.form list).statementList? = some old) : ∃ single : Bool, t.setStatements list new =
      if single then t.relink list old new else (t.relink list old new).modifyForm list Form.notConcise := by
  rw [setStatements, here]
  exact ⟨_, rfl⟩

theorem relink_form (old new : List NodeId) (inside : list.index < t.size) (x : NodeId) :
    (t.relink list old new).form x = if x = list then (t.form list).withStatements new else t.form x := by
  simp [relink, modifyForm_form, adopt_size, release_size, adopt_form, release_form, inside]

/-- Other statements are another form. -/
theorem setStatements_sameLinks {old : List NodeId} (new : List NodeId) (tidy : t.Tidy list)
    (here : (t.form list).statementList? = some old) :
    (t.setForm list ((t.form list).withStatements new)).SameLinks (t.setStatements list new) := by
  obtain ⟨before, children, changed⟩ := Form.withStatements_children here
  have children : t.children list = before ++ old := children
  have inside := index_lt_of_statementList? here
  have base : (t.setForm list ((t.form list).withStatements new)).SameLinks (t.relink list old new) := by
    refine ⟨?_, fun x => ?_, fun x => ?_⟩
    · simp [relink, adopt_size, release_size]
    · rw [setForm_children, Tree.children, relink_form old new inside]
      simp only [inside, and_true]
      split <;> rfl
    · simp only [relink, modifyForm_parent?, adopt_parent?, release_size, release_parent?, setForm_parent?, changed,
        children, List.mem_filter, List.contains_eq_mem, Bool.not_eq_true', decide_eq_false_iff_not, List.mem_append]
      by_cases head : x ∈ before
      · have slot : x ∈ t.children list := children ▸ List.mem_append_left _ head
        have link := tidy.linked x slot
        have other : x ∉ old := List.disjoint_of_nodup_append (children ▸ tidy.distinct) head
        simp [head, link, t.index_lt_of_parent? link, other]
      · simp [head]
  obtain ⟨single, result⟩ := setStatements_eq new here
  rw [result]
  cases single with
  | false => exact base.trans (.modifyForm _ list (Form.notConcise_children _))
  | true => exact base

theorem setStatements_form_of_ne (list : NodeId) (new : List NodeId) (other : x ≠ list) :
    (t.setStatements list new).form x = t.form x := by
  cases here : (t.form list).statementList? with
  | none =>
    rw [setStatements, here]
  | some old =>
    obtain ⟨single, result⟩ := setStatements_eq new here
    have kept := t.relink_form old new (index_lt_of_statementList? here) x
    rw [if_neg other] at kept
    rw [result]
    cases single with
    | false => simpa [modifyForm_form, other] using kept
    | true => exact kept

theorem setStatements_program (new : List NodeId) (program : (t.form list).IsProgram) :
    ((t.setStatements list new).form list).IsProgram := by
  cases here : (t.form list).statementList? with
  | none =>
    unfold setStatements
    rwa [here]
  | some old =>
    obtain ⟨single, result⟩ := setStatements_eq new here
    have inside := index_lt_of_statementList? here
    have changed := t.relink_form old new inside list
    have same : (t.relink list old new).size = t.size := by simp [relink, adopt_size, release_size]
    rw [result]
    cases single with
    | false =>
      simp only [Bool.false_eq_true, if_false, modifyForm_form, same, inside, and_self, if_true, changed]
      exact (program.withStatements new).notConcise
    | true =>
      simp only [if_true, changed]
      exact program.withStatements new

end Tree

end Condense
