import Condense.Proofs.Ownership.Invariant
import Condense.Proofs.Syntax.Exchange

/-!
What the edits of a store do to slots and links, and why a proper tree stays one.
-/

namespace Condense

open List Option

variable {x : NodeId}

namespace Form

variable {α : Type} {form : Form α}

theorem withStatements_of_none (noList : form.statementList? = none) (new : List α) : form.withStatements new = form := by
  cases form <;> first | rfl | cases noList

/-- A statement list is the end of the children. -/
theorem withStatements_children {statements : List α} (list : form.statementList? = some statements) :
    ∃ before, form.children = before ++ statements ∧ ∀ new, (form.withStatements new).children = before ++ new := by
  cases form with
  | program | block | ccComment =>
    cases list
    exact ⟨[], rfl, fun _ => rfl⟩
  | switchCase test _ =>
    cases list
    exact ⟨test.toList, rfl, fun _ => rfl⟩
  | _ => cases list

@[simp] theorem notConcise_children (form : Form α) : form.notConcise.children = form.children := by
  cases form <;> rfl

def IsProgram (form : Form α) : Prop :=
  ∃ statements scope, form = .program statements scope

theorem IsProgram.withStatements (program : form.IsProgram) (new : List α) : (form.withStatements new).IsProgram := by
  obtain ⟨statements, scope, rfl⟩ := program
  exact ⟨new, scope, rfl⟩

theorem IsProgram.notConcise (program : form.IsProgram) : form.notConcise.IsProgram := by
  obtain ⟨statements, scope, rfl⟩ := program
  exact ⟨statements, scope, rfl⟩

theorem IsProgram.exchange [DecidableEq α] {form' : Form α} {old new : α} (program : form.IsProgram)
    (done : form.exchange old new = some form') : form'.IsProgram := by
  obtain ⟨statements, scope, rfl⟩ := program
  obtain ⟨statements, -, rfl⟩ := map_eq_some_iff.mp done
  exact ⟨statements, scope, rfl⟩

end Form

namespace Tree

variable {t t' : Tree} {root : NodeId}

theorem Held.setForm (held : t.Held) {id : NodeId} (inside : id.index < t.size) (form : Form NodeId) :
    (t.setForm id form).Held := by
  intro child parent link
  rw [setForm_parent?] at link
  rw [setForm_children]
  by_cases here : parent = id
  · rw [if_pos ⟨here, inside⟩]
    split at link
    · rename_i taken
      exact taken.1
    split at link
    · cases link
    · rename_i kept
      by_contra missing
      exact kept ⟨here ▸ held child parent link, missing⟩
  · rw [if_neg fun same => here same.1]
    split at link
    · exact absurd (Option.some.inj link).symm here
    split at link
    · cases link
    · exact held child parent link

/-- A set of nodes that is closed under slots, all of them linked back and none twice, is a tree. -/
theorem Rooted.of_closed (held : t.Held) (top : t.parent? root = none) (inside : root.index < t.size)
    (good : NodeId → Prop) (start : good root)
    (linked : ∀ x, good x → ∀ child ∈ t.children x, t.parent? child = some x ∧ good child)
    (distinct : ∀ x, good x → (t.children x).Nodup) : t.Rooted root := by
  refine ⟨top, inside, fun x below => ?_⟩
  have reached : good x := below.induct start fun x p link _ ih => (linked p ih x (held x p link)).2
  exact ⟨fun child slot => (linked x reached child slot).1, distinct x reached⟩

/-- Edits elsewhere leave a tree alone. -/
theorem Rooted.frame (rooted : t.Rooted root) (held : t'.Held) (size : t.size ≤ t'.size)
    (same : ∀ x, t.Below root x → t'.children x = t.children x ∧ t'.parent? x = t.parent? x) : t'.Rooted root := by
  refine .of_closed held ?_ (rooted.inside.trans_le size) (t.Below root) (.refl root) ?_ ?_
  · rw [(same root (.refl root)).2, rooted.top]
  · intro x below child slot
    rw [(same x below).1] at slot
    have lower := rooted.below_child below slot
    rw [(same child lower).2]
    exact ⟨rooted.linked below slot, lower⟩
  · intro x below
    rw [(same x below).1]
    exact (rooted.tidy x below).distinct

/-- What is cut off is a tree of its own. -/
theorem Rooted.cut {parent cut : NodeId} (rooted : t.Rooted root) (below : t.Below root cut)
    (link : t.parent? cut = some parent) (held : t'.Held) (size : t'.size = t.size) (top : t'.parent? cut = none)
    (others : ∀ x, x ≠ parent → t'.children x = t.children x)
    (kept : ∀ x p, t.parent? x = some p → x ≠ cut → t'.parent? x = some p) : t'.Rooted cut := by
  have notAbove : ¬ t.Below cut parent := not_below_of_link rooted.top below link
  have tidy {x : NodeId} (under : t.Below cut x) : t'.children x = t.children x ∧ t.Tidy x :=
    ⟨others x fun here => notAbove (here ▸ under), rooted.tidy x (below.trans under)⟩
  refine .of_closed held top (size ▸ rooted.index_lt below) (t.Below cut) (.refl cut) ?_ ?_
  · intro x under child slot
    rw [(tidy under).1] at slot
    have link' := (tidy under).2.linked child slot
    refine ⟨kept child x link' ?_, .link link' under⟩
    rintro rfl
    exact notAbove (Option.some.inj (link'.symm.trans link) ▸ under)
  · intro x under
    rw [(tidy under).1]
    exact (tidy under).2.distinct

/-- A node stays below the root if the links above it stay. -/
theorem Below.kept (below : t.Below root x)
    (same : ∀ y, t.Below root y → t.Below y x → y ≠ root → t'.parent? y = t.parent? y) : t'.Below root x := by
  refine Below.induct (motive := fun x => (∀ y, t.Below root y → t.Below y x → y ≠ root →
    t'.parent? y = t.parent? y) → t'.Below root x) (fun _ => .refl root) ?_ below same
  intro x p link above ih same
  by_cases here : x = root
  · rw [here]
    exact .refl root
  · refine .link ((same x (.link link above) (.refl x) here).trans link) (ih fun y upper beneath => ?_)
    exact same y upper (beneath.trans (.link link (.refl p)))

/-- Two trees whose roots have no holders have no node in common. -/
theorem Rooted.apart {other : NodeId} (rooted : t.Rooted root) (second : t.Rooted other)
    (below : t.Below root x) (under : t.Below other x) : root = other := by
  rcases below.linear under with beneath | beneath
  · exact (beneath.eq_of_top second.top).symm
  · exact beneath.eq_of_top rooted.top

theorem Rooted.alloc (rooted : t.Rooted root) (held : t.Held) {form : Form NodeId} (span : Span)
    (apart : ∀ child ∈ form.children, ¬ t.Below root child) : (t.alloc form span).2.Rooted root := by
  refine rooted.frame (held.alloc form span) (by simp) fun x below => ⟨?_, ?_⟩
  · rw [alloc_children, if_neg (ne_of_fresh (rooted.index_lt below) .refl)]
  · rw [alloc_parent?, if_neg fun taken => apart x taken.1 below]

/-- A new node is the root of a tree if its children are. -/
theorem Held.rooted_alloc (held : t.Held) {form : Form NodeId} (span : Span) (distinct : form.children.Nodup)
    (loose : ∀ child ∈ form.children, t.Rooted child) : (t.alloc form span).2.Rooted ⟨t.size⟩ := by
  refine .of_closed (held.alloc form span) ?_ (by simp)
    (fun x => x = ⟨t.size⟩ ∨ ∃ child ∈ form.children, t.Below child x) (.inl rfl) ?_ ?_
  · rw [alloc_parent?, if_neg (fun taken => lt_irrefl _ taken.2)]
    exact t.parent?_eq_none_of_size_le .refl
  · rintro x good child slot
    rw [alloc_children] at slot
    rw [alloc_parent?]
    by_cases new : x = ⟨t.size⟩
    · rw [if_pos new] at slot
      rw [if_pos ⟨slot, (loose child slot).inside⟩, new]
      exact ⟨rfl, .inr ⟨child, slot, .refl child⟩⟩
    · rw [if_neg new] at slot
      obtain ⟨top, member, below⟩ := good.resolve_left new
      have link := ((loose top member).tidy x below).linked child slot
      rw [if_neg fun taken => ne_of_link link (loose child taken.1).top rfl, link]
      exact ⟨rfl, .inr ⟨top, member, .link link below⟩⟩
  · rintro x good
    rw [alloc_children]
    split
    · exact distinct
    · rename_i old
      obtain ⟨top, member, below⟩ := good.resolve_left old
      exact ((loose top member).tidy x below).distinct

/-- A node was taken out of the slot that held it. -/
structure TakenOut (t t' : Tree) (list removed : NodeId) : Prop where
  size : t'.size = t.size
  link : t.parent? removed = some list
  parent? : ∀ x, t'.parent? x = if x = removed then none else t.parent? x
  forms : ∀ x, x ≠ list → t'.form x = t.form x
  isList : (t.form list).statementList? ≠ none
  program : (t.form list).IsProgram → (t'.form list).IsProgram
  rest : ∃ before after, t.children list = before ++ removed :: after ∧ t'.children list = before ++ after

namespace TakenOut

variable {list removed : NodeId} (out : t.TakenOut t' list removed)

include out

theorem others (other : x ≠ list) : t'.children x = t.children x := by
  rw [children, out.forms x other]
  rfl

theorem held (held : t.Held) : t'.Held := by
  intro child id link
  rw [out.parent?] at link
  split at link
  · cases link
  rename_i other
  have slot := held child id link
  by_cases here : id = list
  · obtain ⟨before, after, old, new⟩ := out.rest
    rw [here, old, mem_append, mem_cons] at slot
    rw [here, new, mem_append]
    exact slot.imp_right fun slot => slot.resolve_left other
  · rwa [out.others here]

theorem rooted (held : t.Held) (rooted : t.Rooted root) : t'.Rooted root := by
  refine .of_closed (out.held held) ?_ (out.size ▸ rooted.inside) (fun x => t.Below root x ∧ ¬ t.Below removed x)
    ⟨.refl root, fun beneath => ne_of_link out.link rooted.top (beneath.eq_of_top rooted.top).symm⟩ ?_ ?_
  · rw [out.parent?, rooted.top]
    exact ite_self _
  · rintro x ⟨below, outside⟩ child slot
    have old : child ∈ t.children x ∧ child ≠ removed := by
      by_cases here : x = list
      · obtain ⟨before, after, old, new⟩ := out.rest
        have distinct := (rooted.tidy x below).distinct
        rw [here, old] at distinct
        rw [here, new] at slot
        rw [here, old]
        refine ⟨?_, ?_⟩
        · simp only [mem_append, mem_cons] at slot ⊢
          exact slot.imp_right .inr
        · rintro rfl
          exact (nodup_cons.mp (nodup_middle.mp distinct)).1 slot
      · rw [out.others here] at slot
        refine ⟨slot, ?_⟩
        rintro rfl
        exact here (Option.some.inj ((rooted.linked below slot).symm.trans out.link))
    have link := rooted.linked below old.1
    rw [out.parent?, if_neg old.2]
    exact ⟨link, .link link below, fun under => outside (under.holder link old.2)⟩
  · rintro x ⟨below, -⟩
    have distinct := (rooted.tidy x below).distinct
    by_cases here : x = list
    · obtain ⟨before, after, old, new⟩ := out.rest
      rw [here, old] at distinct
      rw [here, new]
      exact (nodup_cons.mp (nodup_middle.mp distinct)).2
    · rwa [out.others here]

theorem rooted_removed (held : t.Held) (rooted : t.Rooted root) (below : t.Below root removed) : t'.Rooted removed := by
  refine rooted.cut below out.link (out.held held) out.size ?_ (fun _ => out.others) fun x p link other => ?_
  · rw [out.parent?, if_pos rfl]
  · rw [out.parent?, if_neg other, link]

theorem isProgram (program : (t.form root).IsProgram) : (t'.form root).IsProgram := by
  by_cases here : root = list
  · exact here ▸ out.program (here ▸ program)
  · rwa [out.forms root here]

theorem below (below : t.Below root x) (outside : ¬ t.Below removed x) : t'.Below root x := by
  refine below.kept fun y _ beneath _ => ?_
  rw [out.parent?, if_neg]
  rintro rfl
  exact outside beneath

end TakenOut

section

variable {list : NodeId} {statements : List NodeId} (here : (t.form list).statementList? = some statements)

include here

theorem index_lt_of_statementList? : list.index < t.size :=
  index_lt_of_form fun empty => by cases empty ▸ here

theorem statements_eq : t.statements list = statements := by
  rw [Tree.statements, here]
  rfl

theorem sublist_of_list : statements.Sublist (t.children list) := by
  obtain ⟨before, children, -⟩ := Form.withStatements_children here
  rw [Tree.children, children]
  exact sublist_append_right before statements

end

theorem detachFrom_form (t : Tree) (holder statement x : NodeId) :
    (t.detachFrom holder statement).form x =
      if x = holder then (t.form x).withStatements ((t.statements x).filter (· != statement)) else t.form x := by
  unfold detachFrom
  split
  · rename_i old isList
    rw [modifyForm_form]
    simp only [index_lt_of_statementList? isList, and_true]
    split
    · rename_i here
      rw [here, statements_eq isList]
    · rfl
  · rename_i noList
    split
    · rename_i here
      rw [here, Form.withStatements_of_none noList]
    · rfl

theorem detachFrom_parent? (t : Tree) (holder statement x : NodeId) :
    (t.detachFrom holder statement).parent? x = t.parent? x := by
  unfold detachFrom
  split
  · exact t.modifyForm_parent? holder _ x
  · rfl

theorem detachFrom_size (t : Tree) (holder statement : NodeId) : (t.detachFrom holder statement).size = t.size := by
  unfold detachFrom
  split
  · exact t.modifyForm_size holder _
  · rfl

theorem statements_sublist (t : Tree) (list : NodeId) : (t.statements list).Sublist (t.children list) := by
  cases here : (t.form list).statementList? with
  | none => simp [statements, here]
  | some statements => exact statements_eq here ▸ sublist_of_list here

theorem removeAt?_takenOut {list removed : NodeId} {index : Nat} (done : t.removeAt? list index = some (removed, t'))
    (link : t.parent? removed = some list) : t.TakenOut t' list removed := by
  unfold removeAt? at done
  simp only [bind_eq_bind, bind_eq_some_iff, Option.some.injEq, Prod.mk.injEq] at done
  obtain ⟨statements, here, found, at', same, tree⟩ := done
  subst same tree
  obtain ⟨before, old, new⟩ := Form.withStatements_children here
  have inside := index_lt_of_statementList? here
  refine ⟨by simp, link, fun x => ?_, fun x other => ?_, by simp [here], fun program => ?_, ?_⟩
  · rw [setParent_parent?, modifyForm_parent?, modifyForm_size]
    simp [t.index_lt_of_parent? link]
  · simp [modifyForm_form, other]
  · rw [setParent_form, modifyForm_form, if_pos ⟨rfl, inside⟩]
    exact (program.withStatements _).notConcise
  · have split : statements = statements.take index ++ found :: statements.drop (index + 1) := by
      obtain ⟨range, value⟩ := List.getElem?_eq_some_iff.mp at'
      rw [← value, getElem_cons_drop, take_append_drop]
    refine ⟨before ++ statements.take index, statements.drop (index + 1), ?_, ?_⟩
    · rw [children, old, append_assoc, ← split]
    · simp [children, modifyForm_form, inside, new, eraseIdx_eq_take_drop_succ]

theorem removeStatement?_takenOut {statement : NodeId} (done : t.removeStatement? statement = some t') :
    ∃ list, t.TakenOut t' list statement := by
  unfold removeStatement? at done
  simp only [bind_eq_bind, bind_eq_some_iff, map_eq_some_iff] at done
  obtain ⟨list, link, index, found, ⟨removed, tree⟩, out, rfl⟩ := done
  have same : removed = statement := by
    unfold removeAt? at out
    simp only [bind_eq_bind, bind_eq_some_iff, Option.some.injEq, Prod.mk.injEq] at out
    obtain ⟨statements, here, found', at', rfl, -⟩ := out
    obtain ⟨range, value, -⟩ := idxOf?_eq_some_iff.mp found
    simp only [statements_eq here] at range value
    rw [getElem?_eq_getElem range] at at'
    exact (Option.some.inj at').symm.trans value
  subst same
  exact ⟨list, removeAt?_takenOut out link⟩

end Tree

end Condense
