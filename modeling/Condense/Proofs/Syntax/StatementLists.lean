import Condense.Proofs.Syntax.Edits

/-!
Edits of statement lists in a store where every node has at most one place.
-/

namespace Condense

open List Option

namespace Form

variable {α : Type}

theorem withStatements_statementList? (form : Form α) (new : List α) :
    (form.withStatements new).statementList? = form.statementList?.map fun _ => new := by
  cases form <;> rfl

theorem notConcise_statementList? (form : Form α) : form.notConcise.statementList? = form.statementList? := by
  cases form <;> rfl

theorem withStatements_self (form : Form α) : form.withStatements (form.statementList?.getD []) = form := by
  cases form <;> rfl

theorem notConcise_eq_self {form : Form α} (regular : form.isConcise = false) : form.notConcise = form := by
  cases form with
  | block statements scope concise =>
    cases concise
    · rfl
    · cases regular
  | _ => rfl

end Form

namespace Tree

/-- Whether every slot holds a node of the store, no two slots the same one, and links lead to the holders. -/
structure WellFormed (t : Tree) : Prop where
  inside : ∀ child ∈ t.slots, child.index < t.size
  once : t.slots.Nodup
  linked : ∀ child id, t.parent? child = some id ↔ child ∈ t.children id

variable {t t' : Tree} {list statement : NodeId} {old : List NodeId}

theorem mem_slots {child : NodeId} : child ∈ t.slots ↔ ∃ id, child ∈ t.children id := by
  simp only [slots, mem_flatMap, mem_range]
  constructor
  · rintro ⟨index, -, slot⟩
    exact ⟨⟨index⟩, slot⟩
  · rintro ⟨id, slot⟩
    refine ⟨id.index, Nat.lt_of_not_le fun outside => ?_, slot⟩
    rw [t.children_eq_nil_of_size_le outside] at slot
    cases slot

theorem Tied.parent?_iff (tied : t.Tied) (child id : NodeId) : t.parent? child = some id ↔ child ∈ t.children id :=
  ⟨tied.held child id, (tied.tidy id).linked child⟩

theorem Tied.of_iff (links : ∀ child id, t.parent? child = some id ↔ child ∈ t.children id)
    (distinct : ∀ id, (t.children id).Nodup) : t.Tied :=
  ⟨fun id => ⟨fun child => (links child id).mpr, distinct id⟩, fun child id => (links child id).mp⟩

/-- One place for every node is the same as tidy slots that hold all linked nodes. -/
theorem wellFormed_iff_tied : t.WellFormed ↔ t.Tied := by
  constructor
  · rintro ⟨inside, once, linked⟩
    refine .of_iff linked fun id => ?_
    by_cases range : id.index < t.size
    · exact (nodup_flatMap.mp once).1 id.index (mem_range.mpr range)
    · rw [t.children_eq_nil_of_size_le (not_lt.1 range)]
      exact nodup_nil
  · intro tied
    refine ⟨fun child slot => ?_, ?_, tied.parent?_iff⟩
    · obtain ⟨id, slot⟩ := mem_slots.mp slot
      exact t.index_lt_of_parent? ((tied.tidy id).linked child slot)
    · refine nodup_flatMap.mpr ⟨fun index _ => (tied.tidy ⟨index⟩).distinct, ?_⟩
      refine nodup_range.imp fun {i j} different child first second => different ?_
      have same := ((tied.tidy ⟨i⟩).linked child first).symm.trans ((tied.tidy ⟨j⟩).linked child second)
      exact congrArg NodeId.index (Option.some.inj same)

/-- Some nodes were taken out of the slots of `list`. -/
structure Thinned (t t' : Tree) (list : NodeId) : Prop where
  slots : (t'.children list).Sublist (t.children list)
  others : ∀ x, x ≠ list → t'.children x = t.children x
  parent? : ∀ x, t'.parent? x = if x ∈ t.children list ∧ x ∉ t'.children list then none else t.parent? x

theorem Tied.thinned (tied : t.Tied) (list : NodeId) (thinned : t.Thinned t' list) : t'.Tied := by
  refine .of_iff (fun child id => ?_) fun id => ?_
  all_goals by_cases here : id = list
  · subst here
    rw [thinned.parent?]
    split
    · rename_i taken
      simp [taken.2]
    · rename_i left
      rw [tied.parent?_iff]
      exact ⟨fun slot => by_contra fun missing => left ⟨slot, missing⟩, fun slot => thinned.slots.subset slot⟩
  · rw [thinned.others id here, ← tied.parent?_iff, thinned.parent?]
    split
    · rename_i taken
      simp [(tied.parent?_iff child list).mpr taken.1, Ne.symm here]
    · rfl
  · exact here ▸ (tied.tidy list).distinct.sublist thinned.slots
  · exact thinned.others id here ▸ (tied.tidy id).distinct

/-- A node without a holder was put into a slot of `list`. -/
structure Filled (t t' : Tree) (list added : NodeId) : Prop where
  loose : t.parent? added = none
  slots : ∃ before after, t.children list = before ++ after ∧ t'.children list = before ++ added :: after
  others : ∀ x, x ≠ list → t'.children x = t.children x
  parent? : ∀ x, t'.parent? x = if x = added then some list else t.parent? x

theorem Tied.filled (tied : t.Tied) (list added : NodeId) (filled : t.Filled t' list added) : t'.Tied := by
  obtain ⟨loose, ⟨before, after, old, new⟩, others, parent?⟩ := filled
  have free (id : NodeId) : added ∉ t.children id := by simp [← tied.parent?_iff, loose]
  refine .of_iff (fun child id => ?_) fun id => ?_
  all_goals by_cases here : id = list
  · have slots : child ∈ t'.children id ↔ child = added ∨ child ∈ t.children id := by
      simp [here, new, old, or_left_comm]
    rw [slots, ← tied.parent?_iff, parent?]
    split <;> simp_all
  · rw [others id here, ← tied.parent?_iff, parent?]
    split
    · rename_i same
      simp [same, loose, Ne.symm here]
    · rfl
  · rw [here, new, nodup_middle, nodup_cons, ← old]
    exact ⟨free list, (tied.tidy list).distinct⟩
  · exact others id here ▸ (tied.tidy id).distinct

/-- A list may give up some of its statements. -/
theorem Tied.release_statements (tied : t.Tied) (isList : (t.form list).statementList? = some old)
    {kept : List NodeId} (gone : List NodeId) (sublist : kept.Sublist old)
    (complete : ∀ x, x ∈ gone ↔ x ∈ old ∧ x ∉ kept) {f : Form NodeId → Form NodeId}
    (children : (f (t.form list)).children = ((t.form list).withStatements kept).children) :
    ((t.modifyForm list f).release gone).Tied := by
  have inside := index_lt_of_statementList? isList
  obtain ⟨before, full, changed⟩ := Form.withStatements_children isList
  have distinct : (before ++ old).Nodup := full ▸ (tied.tidy list).distinct
  have now : ((t.modifyForm list f).release gone).children list = before ++ kept := by
    rw [Tree.children, release_form, modifyForm_form, if_pos ⟨rfl, inside⟩, children, changed]
  refine tied.thinned list ⟨?_, fun x other => ?_, fun x => ?_⟩
  · rw [now, Tree.children, full]
    exact sublist.append_left before
  · rw [Tree.children, release_form, modifyForm_form, if_neg fun here => other here.1]
    rfl
  · rw [release_parent?, modifyForm_parent?, now, Tree.children, full]
    congr 1
    rw [complete, mem_append, mem_append, eq_iff_iff]
    have apart : x ∈ old → x ∉ before := fun member first => (nodup_append.mp distinct).2.2 x first x member rfl
    tauto

/-- The expression a concise body consists of. -/
def conciseExpression? (t : Tree) (list : NodeId) : Option NodeId :=
  if t.isConcise list then (t.statements list).head? else none

/-- The statements of a list when the expression of a concise body is returned by a new node. -/
def opened (t : Tree) (list : NodeId) : List NodeId :=
  (t.conciseExpression? list).elim (t.statements list) fun _ => ⟨t.size⟩ :: (t.statements list).tail

/-- The list is regular in the second store, and the expression of a concise body is returned there. -/
structure Expanded (t t' : Tree) (list : NodeId) : Prop where
  tied : t'.Tied
  size : t.size ≤ t'.size
  form : t'.form list = ((t.form list).withStatements (t.opened list)).notConcise
  others : ∀ x, x ≠ list → x.index < t.size → t'.form x = t.form x
  parent? : ∀ x, t.conciseExpression? list ≠ some x → x.index < t.size → t'.parent? x = t.parent? x
  returned : ∀ x, t.conciseExpression? list = some x → t'.form ⟨t.size⟩ = .returnStatement (some x)

/-- An edit that only makes a list regular. -/
theorem Expanded.regular (tied : t.Tied) (empty : t.conciseExpression? list = none) :
    t.Expanded (t.modifyForm list Form.notConcise) list where
  tied := tied.congr (.modifyForm t list (by simp [Tree.children]))
  size := by simp
  form := by
    rw [opened, empty, elim_none, statements, Form.withStatements_self, modifyForm_form]
    split
    · rfl
    · rename_i outside
      rw [t.form_eq_empty_of_size_le (not_lt.1 fun inside => outside ⟨rfl, inside⟩)]
      rfl
  others x other _ := by rw [modifyForm_form, if_neg fun here => other here.1]
  parent? x _ _ := t.modifyForm_parent? list _ x
  returned x expression := by simp [empty] at expression

theorem Expanded.returns (tied : t.Tied) {expression : NodeId} {rest : List NodeId} {scope : Option ScopeId}
    (concise : t.form list = .block (expression :: rest) scope true) : t.Expanded (t.expandConcise list) list := by
  have isList : (t.form list).statementList? = some (expression :: rest) := by rw [concise]; rfl
  have inside := index_lt_of_statementList? isList
  have children : t.children list = expression :: rest := by rw [Tree.children, concise]; rfl
  have link := (tied.tidy list).linked expression (by simp [children])
  have held := t.index_lt_of_parent? link
  have distinct := (tied.tidy list).distinct
  have new : list ≠ ⟨t.size⟩ := fun same => by simp [same] at inside
  have form (x : NodeId) : (t.expandConcise list).form x = if x = list then .block (⟨t.size⟩ :: rest) scope false
      else if x = ⟨t.size⟩ then .returnStatement (some expression) else t.form x := by
    by_cases here : x = list
    · subst here
      simp only [expandConcise, concise, modifyForm_form, setParent_form, alloc_form, alloc_size, modifyForm_size,
        setParent_size, alloc_id, if_neg new, if_true, true_and, if_pos (Nat.lt_succ_of_lt inside), Form.withStatements,
        Form.notConcise]
    · simp [expandConcise, concise, modifyForm_form, alloc_form, here]
  have parent (x : NodeId) : (t.expandConcise list).parent? x =
      if x = ⟨t.size⟩ then some list else if x = expression then some ⟨t.size⟩ else t.parent? x := by
    simp only [expandConcise, concise, modifyForm_parent?, setParent_parent?, alloc_parent?, alloc_id, modifyForm_size,
      alloc_size, Nat.lt_succ_self, and_true, Form.children, toList_some, mem_singleton]
    by_cases same : x = expression
    · simp [same, held]
    · simp [same]
  have only : t.conciseExpression? list = some expression := by
    simp [conciseExpression?, isConcise, concise, Form.isConcise, statements, Form.statementList?]
  have opened : t.opened list = ⟨t.size⟩ :: rest := by
    simp [opened, only, statements, concise, Form.statementList?]
  refine ⟨?_, ?_, ?_, fun x other range => ?_, fun x other range => ?_, fun x found => ?_⟩
  · -- The expression leaves the list, a new node takes it over, and then enters the list in its place.
    have without := tied.release_statements isList [expression] (f := fun _ => .block rest scope true)
      (sublist_cons_self expression rest) (fun x => by simp; grind) (by rw [concise]; rfl)
    have taken := @Tied.alloc _ without (.returnStatement (some expression)) (t.span expression)
      (nodup_singleton expression) (by simp [Form.children, release_size, release_parent?, held])
    refine taken.filled list ⟨t.size⟩ ⟨?_, ⟨[], rest, ?_, ?_⟩, fun x other => ?_, fun x => ?_⟩
    · have outside : ⟨t.size⟩ ≠ expression := fun same => by simp [← same] at held
      simp [alloc_parent?, release_parent?, Form.children, outside, t.parent?_eq_none_of_size_le]
    · rw [alloc_children, release_size, modifyForm_size, if_neg new, Tree.children, release_form, modifyForm_form,
        if_pos ⟨rfl, inside⟩]
      rfl
    · rw [Tree.children, form, if_pos rfl]
      rfl
    · rw [Tree.children, form, if_neg other]
      simp only [Tree.children, alloc_form, release_size, modifyForm_size, release_form, modifyForm_form, other,
        false_and, if_false]
    · rw [parent]
      by_cases same : x = expression
      · simp [alloc_parent?, release_size, Form.children, same, held]
      · simp [alloc_parent?, release_parent?, Form.children, same]
  · simp [expandConcise, concise]
  · rw [form, if_pos rfl, opened, concise]
    rfl
  · rw [form, if_neg other, if_neg (ne_of_fresh range .refl)]
  · rw [parent, if_neg (ne_of_fresh range .refl), if_neg]
    rintro rfl
    exact other only
  · rw [form, if_neg new.symm, if_pos rfl, Option.some.inj (only.symm.trans found)]

/-- The store in which a statement is in no list but still linked to the node that held it. -/
def withdrawn (t : Tree) (statement : NodeId) : Tree :=
  (t.parent? statement).elim t (t.detachFrom · statement)

/-- Whether a statement has no holder or is in the statement list of its holder. -/
def Movable (t : Tree) (statement : NodeId) : Prop :=
  ∀ holder, t.parent? statement = some holder → statement ∈ t.statements holder

theorem withdrawn_parent? (t : Tree) (statement x : NodeId) : (t.withdrawn statement).parent? x = t.parent? x := by
  unfold withdrawn
  cases t.parent? statement with
  | none => rfl
  | some holder => exact t.detachFrom_parent? holder statement x

theorem withdrawn_size (t : Tree) (statement : NodeId) : (t.withdrawn statement).size = t.size := by
  unfold withdrawn
  cases t.parent? statement with
  | none => rfl
  | some holder => exact t.detachFrom_size holder statement

/-- All lists lose the statement, which only its holder had. -/
theorem withdrawn_form (tied : t.Tied) (statement x : NodeId) :
    (t.withdrawn statement).form x = (t.form x).withStatements ((t.statements x).filter (· != statement)) := by
  have same (other : t.parent? statement ≠ some x) :
      t.form x = (t.form x).withStatements ((t.statements x).filter (· != statement)) := by
    rw [filter_eq_self.mpr, statements, Form.withStatements_self]
    intro child member
    rw [bne_iff_ne]
    rintro rfl
    exact other ((tied.tidy x).linked child ((t.statements_sublist x).subset member))
  unfold withdrawn
  cases link : t.parent? statement with
  | none => exact same (by simp [link])
  | some holder =>
    rw [elim_some, detachFrom_form]
    split
    · rfl
    · rename_i other
      exact same (by simpa [link] using Ne.symm other)

theorem withdrawn_tied (tied : t.Tied) (movable : t.Movable statement) :
    ((t.withdrawn statement).setParent statement none).Tied := by
  cases link : t.parent? statement with
  | none =>
    refine tied.congr ⟨?_, fun x => ?_, fun x => ?_⟩
    · rw [setParent_size, withdrawn_size]
    · rw [Tree.children, setParent_form, withdrawn, link]
      rfl
    · rw [setParent_parent?, withdrawn_parent?]
      split
      · rename_i here
        rw [here.1, link]
      · rfl
  | some holder =>
    have member := movable holder link
    cases isList : (t.form holder).statementList? with
    | none => simp [statements, isList] at member
    | some old =>
      rw [statements_eq isList] at member
      have out := tied.release_statements isList [statement] (filter_sublist (p := (· != statement)))
        (fun x => by simp; grind) (f := (·.withStatements (old.filter (· != statement)))) rfl
      rwa [withdrawn, link, elim_some, detachFrom, isList]

theorem insertIdx_min {α : Type} (items : List α) (index : Nat) (x : α) :
    items.insertIdx (min index items.length) x = items.take index ++ x :: items.drop index := by
  induction items generalizing index with
  | nil => simp
  | cons first rest ih =>
    cases index with
    | zero => simp
    | succ index => simp [Nat.succ_min_succ, ih]

/-- A statement came to stand in a list with the statements `items`, and in no other. -/
structure Moved (t t' : Tree) (list statement : NodeId) (items : List NodeId) : Prop where
  wellFormed : t'.WellFormed
  form : t'.form list = ((t.form list).withStatements items).notConcise
  others : ∀ x, x ≠ list → x.index < t.size →
    t'.form x = (t.form x).withStatements ((t.statements x).filter (· != statement))
  returned : ∀ x, t.conciseExpression? list = some x → t'.form ⟨t.size⟩ = .returnStatement (some x)

def regularized (t : Tree) (list : NodeId) : Tree :=
  if t.isConcise list then t.expandConcise list else t

theorem regularized_expanded (tied : t.Tied) (list : NodeId) : t.Expanded (t.regularized list) list := by
  unfold regularized
  split
  · rename_i concise
    cases form : t.form list with
    | block statements scope flag =>
      obtain rfl : flag := by simpa [isConcise, form, Form.isConcise] using concise
      cases statements with
      | nil =>
        have empty : t.conciseExpression? list = none := by
          simp [conciseExpression?, statements, form, Form.statementList?]
        simpa only [expandConcise, form] using Expanded.regular tied empty
      | cons expression rest => exact .returns tied form
    | _ => simp [isConcise, form, Form.isConcise] at concise
  · rename_i regular
    have same : (t.form list).notConcise = t.form list := Form.notConcise_eq_self (by simpa [isConcise] using regular)
    have empty : t.conciseExpression? list = none := by simp [conciseExpression?, regular]
    refine ⟨tied, .refl, ?_, fun _ _ _ => rfl, fun _ _ _ => rfl, by simp [empty]⟩
    rw [opened, empty, elim_none, statements, Form.withStatements_self, same]

section

variable (expanded : t.Expanded t' list) (isList : (t.form list).statementList? = some old)

include expanded isList

theorem Expanded.statements : (t'.form list).statementList? = some (t.opened list) := by
  rw [expanded.form, Form.notConcise_statementList?, Form.withStatements_statementList?, isList]
  rfl

theorem Expanded.movable (inside : statement.index < t.size) (movable : t.Movable statement)
    (free : t.conciseExpression? list ≠ some statement) : t'.Movable statement := by
  intro holder link
  rw [expanded.parent? statement free inside] at link
  have member := movable holder link
  by_cases here : holder = list
  · subst here
    rw [statements_eq (expanded.statements isList), opened]
    cases only : t.conciseExpression? holder with
    | none => exact member
    | some expression =>
      refine .tail _ ?_
      have first : (t.statements holder).head? = some expression := by
        unfold conciseExpression? at only
        split at only
        · exact only
        · cases only
      obtain ⟨rest, split⟩ := head?_eq_some_iff.mp first
      rw [split, mem_cons] at member
      rw [split]
      exact member.resolve_left fun same => free (by rw [only, same])
  · have range : holder.index < t.size := index_lt_of_form fun empty => by
      simp [Tree.statements, empty, Form.statementList?] at member
    rwa [Tree.statements, expanded.others holder here range]

end

theorem insert_eq (t : Tree) (list statement : NodeId) (index : Nat) {items : List NodeId}
    (entering : (((t.regularized list).withdrawn statement).form list).statementList? = some items) :
    t.insert list index statement = (((t.regularized list).withdrawn statement).modifyForm list
      (·.withStatements (items.take index ++ statement :: items.drop index))).setParent statement (some list) := by
  rw [insert, show (if t.isConcise list then t.expandConcise list else t) = t.regularized list from rfl, ← insertIdx_min]
  unfold withdrawn at entering ⊢
  cases link : (t.regularized list).parent? statement with
  | none =>
    simp only [link, elim_none] at entering ⊢
    simp only [entering]
  | some holder =>
    simp only [link, elim_some] at entering ⊢
    simp only [entering]

/-- A statement enters a list that is regular and in which it no longer is. -/
theorem attach_tied (statement : NodeId) (isList : (t.form list).statementList? = some old)
    (inside : statement.index < t.size) (loose : (t.setParent statement none).Tied) (index : Nat) :
    ((t.modifyForm list (·.withStatements (old.take index ++ statement :: old.drop index))).setParent statement
      (some list)).Tied := by
  obtain ⟨before, full, changed⟩ := Form.withStatements_children isList
  have range := index_lt_of_statementList? isList
  refine loose.filled list statement ⟨?_, ⟨before ++ old.take index, old.drop index, ?_, ?_⟩,
    fun x other => ?_, fun x => ?_⟩
  · rw [setParent_parent?, if_pos ⟨rfl, inside⟩]
  · rw [children, setParent_form, full, append_assoc, take_append_drop]
  · rw [children, setParent_form, modifyForm_form, if_pos ⟨rfl, range⟩, changed, append_assoc]
  · rw [children, children, setParent_form, setParent_form, modifyForm_form, if_neg fun here => other here.1]
  · rw [setParent_parent?, setParent_parent?, modifyForm_parent?, modifyForm_size]
    by_cases same : x = statement <;> simp [same, inside]

theorem opened_length (t : Tree) (list : NodeId) : (t.opened list).length = (t.statements list).length := by
  unfold opened conciseExpression?
  cases t.statements list <;> split <;> simp

section

variable (tied : t.Tied) (isList : (t.form list).statementList? = some old)

include tied isList

section

variable (inside : statement.index < t.size) (movable : t.Movable statement)
  (free : t.conciseExpression? list ≠ some statement)

include inside movable free

theorem insert_moved (index : Nat) : t.Moved (t.insert list index statement) list statement
      (((t.opened list).filter (· != statement)).take index ++
        statement :: ((t.opened list).filter (· != statement)).drop index) := by
  have expanded := t.regularized_expanded tied list
  have withdrawn := withdrawn_form expanded.tied statement
  have loose := withdrawn_tied expanded.tied (expanded.movable isList inside movable free)
  have entering : (((t.regularized list).withdrawn statement).form list).statementList? =
      some ((t.opened list).filter (· != statement)) := by
    rw [withdrawn, Form.withStatements_statementList?, statements_eq (expanded.statements isList),
      expanded.statements isList]
    rfl
  have range : statement.index < ((t.regularized list).withdrawn statement).size := by
    rw [withdrawn_size]
    exact inside.trans_le expanded.size
  have others (x : NodeId) (other : x ≠ list) : (t.insert list index statement).form x =
      ((t.regularized list).withdrawn statement).form x := by
    rw [insert_eq t list statement index entering, setParent_form, modifyForm_form, if_neg fun here => other here.1]
  refine ⟨wellFormed_iff_tied.mpr ?_, ?_, fun x other old => ?_, fun x only => ?_⟩
  · rw [insert_eq t list statement index entering]
    exact attach_tied statement entering range loose index
  · rw [insert_eq t list statement index entering, setParent_form, modifyForm_form,
      if_pos ⟨rfl, index_lt_of_statementList? entering⟩, withdrawn, expanded.form]
    cases t.form list <;> rfl
  · rw [others x other, withdrawn, statements, expanded.others x other old]
    rfl
  · have new : list ≠ ⟨t.size⟩ := ne_of_fresh (index_lt_of_statementList? isList) .refl
    rw [others _ new.symm, withdrawn, expanded.returned x only]
    rfl

theorem append_moved :
    t.Moved (t.append list statement) list statement ((t.opened list).filter (· != statement) ++ [statement]) := by
  have last : ((t.opened list).filter (· != statement)).length ≤ (t.statements list).length :=
    t.opened_length list ▸ length_filter_le _ _
  have moved := insert_moved tied isList inside movable free (t.statements list).length
  rwa [take_of_length_le last, drop_of_length_le last] at moved

end

/-- A list came to hold the statements `kept` only, and those in `gone` are in no slot. -/
structure Shortened (t t' : Tree) (list : NodeId) (kept gone : List NodeId) : Prop where
  wellFormed : t'.WellFormed
  form : t'.form list = ((t.form list).withStatements kept).notConcise
  loose : ∀ x ∈ gone, t'.parent? x = none
  others : ∀ x, x ≠ list → t'.form x = t.form x

theorem release_shortened {kept : List NodeId}
    (gone : List NodeId) (sublist : kept.Sublist old) (complete : ∀ x, x ∈ gone ↔ x ∈ old ∧ x ∉ kept) :
    t.Shortened ((t.modifyForm list fun form => (form.withStatements kept).notConcise).release gone) list kept
      gone where
  wellFormed := wellFormed_iff_tied.mpr
    (tied.release_statements isList gone sublist complete (Form.notConcise_children _))
  form := by rw [release_form, modifyForm_form, if_pos ⟨rfl, index_lt_of_statementList? isList⟩]
  loose x member := by rw [release_parent?, if_pos member]
  others x other := by rw [release_form, modifyForm_form, if_neg fun here => other here.1]

theorem Tied.statements_nodup : old.Nodup :=
  (tied.tidy list).distinct.sublist (sublist_of_list isList)

theorem removeAt?_shortened {index : Nat} (found : old[index]? = some statement) :
    ∃ t', t.removeAt? list index = some (statement, t') ∧ t.Shortened t' list (old.eraseIdx index) [statement] := by
  refine ⟨_, by simp only [removeAt?, isList, found, bind_eq_bind, bind_some]; rfl, ?_⟩
  refine release_shortened tied isList [statement] (eraseIdx_sublist old index) fun x => ?_
  have distinct := tied.statements_nodup isList
  obtain ⟨range, here⟩ := List.getElem?_eq_some_iff.mp found
  rw [← distinct.erase_getElem index range, here, distinct.mem_erase_iff, mem_singleton]
  have member : statement ∈ old := here ▸ getElem_mem range
  constructor
  · rintro rfl
    exact ⟨member, fun kept => kept.1 rfl⟩
  · rintro ⟨slot, missing⟩
    by_contra other
    exact missing ⟨other, slot⟩

theorem removeStatement?_shortened (member : statement ∈ old) :
    ∃ t', t.removeStatement? statement = some t' ∧ t.Shortened t' list (old.erase statement) [statement] := by
  have statements := statements_eq isList
  have link := (tied.tidy list).linked statement ((sublist_of_list isList).subset member)
  cases position : old.idxOf? statement with
  | none => exact absurd member (idxOf?_eq_none_iff.mp position)
  | some index =>
    obtain ⟨range, here, -⟩ := idxOf?_eq_some_iff.mp position
    obtain ⟨t', removed, shortened⟩ := removeAt?_shortened tied isList (List.getElem?_eq_some_iff.mpr ⟨range, here⟩)
    refine ⟨t', by simp [removeStatement?, link, statements, position, removed], ?_⟩
    rwa [← (tied.statements_nodup isList).erase_getElem index range, here] at shortened

theorem clear_shortened : t.Shortened (t.clear list) list [] old := by
  rw [clear, isList]
  exact release_shortened tied isList old (nil_sublist old) (by simp)

end

/-- Edits of a statement list keep one place for every node. A statement that is put into a list stands where it
was put, all others keep their order, and the expression of a concise body is returned from then on. What is taken
out is all that is missing afterwards. -/
theorem statement_edits_keep_wellFormed (wellFormed : t.WellFormed) (isList : (t.form list).statementList? = some old) :
    (∀ statement, statement.index < t.size → t.Movable statement → t.conciseExpression? list ≠ some statement →
      let others := (t.opened list).filter (· != statement)
      (∀ index, t.Moved (t.insert list index statement) list statement
        (others.take index ++ statement :: others.drop index)) ∧
      t.Moved (t.append list statement) list statement (others ++ [statement])) ∧
    (∀ index statement, old[index]? = some statement →
      ∃ t', t.removeAt? list index = some (statement, t') ∧ t.Shortened t' list (old.eraseIdx index) [statement]) ∧
    (∀ index, old[index]? = none → t.removeAt? list index = none) ∧
    (∀ statement ∈ old,
      ∃ t', t.removeStatement? statement = some t' ∧ t.Shortened t' list (old.erase statement) [statement]) ∧
    t.Shortened (t.clear list) list [] old := by
  have tied := wellFormed_iff_tied.mp wellFormed
  refine ⟨fun statement inside movable free => ⟨fun index => ?_, ?_⟩, fun index statement found => ?_,
    fun index missing => ?_, fun statement member => ?_, ?_⟩
  · exact insert_moved tied isList inside movable free index
  · exact append_moved tied isList inside movable free
  · exact removeAt?_shortened tied isList found
  · simp [removeAt?, isList, missing]
  · exact removeStatement?_shortened tied isList member
  · exact clear_shortened tied isList

/-- A chunk with a concise body and an empty statement behind it. -/
def conciseBeforeEmpty : Tree where
  nodes := #[{ form := .program [⟨1⟩, ⟨3⟩] ⟨0⟩ }, { form := .block [⟨2⟩] none true, parent := some ⟨0⟩ },
    { form := .this, parent := some ⟨1⟩ }, { form := .empty, parent := some ⟨0⟩ }]

theorem conciseBeforeEmpty_wellFormed : conciseBeforeEmpty.WellFormed where
  inside := by decide
  once := by decide
  linked := by
    rintro ⟨_ | _ | _ | _ | child⟩ ⟨_ | _ | _ | _ | id⟩ <;>
      simp [conciseBeforeEmpty, parent?, node?, children, Tree.form, Form.children]

theorem conciseBeforeEmpty_edits :
    (conciseBeforeEmpty.insert ⟨1⟩ 0 ⟨3⟩).WellFormed ∧
      (conciseBeforeEmpty.insert ⟨1⟩ 0 ⟨3⟩).form ⟨1⟩ = .block [⟨3⟩, ⟨4⟩] none false ∧
      (conciseBeforeEmpty.insert ⟨1⟩ 0 ⟨3⟩).form ⟨4⟩ = .returnStatement (some ⟨2⟩) ∧
      (conciseBeforeEmpty.insert ⟨1⟩ 0 ⟨3⟩).form ⟨0⟩ = .program [⟨1⟩] ⟨0⟩ := by
  have edits := @statement_edits_keep_wellFormed conciseBeforeEmpty ⟨1⟩ _ conciseBeforeEmpty_wellFormed rfl
  have moved := (edits.1 ⟨3⟩ (by decide) (by rintro holder ⟨⟩; decide) (by decide)).1 0
  exact ⟨moved.wellFormed, moved.form, moved.returned ⟨2⟩ rfl, moved.others ⟨0⟩ (by decide) (by decide)⟩

end Tree

end Condense
