import Condense.Grammar.State
import Condense.Proofs.Syntax.Links

/-!
Who holds which node at every moment of a parse.
-/

namespace Condense

open List

namespace Tree

/-- Every link leads to a node that holds the linked one. -/
def Held (t : Tree) : Prop :=
  ∀ child id, t.parent? child = some id → child ∈ t.children id

/-- Every slot is linked back to its holder, and every link leads to a holder. -/
structure Tied (t : Tree) : Prop where
  tidy : ∀ id, t.Tidy id
  held : t.Held

/-- Nothing of the first store is changed in the second, which may have more nodes. -/
structure Extends (base t : Tree) : Prop where
  size : base.size ≤ t.size
  form : ∀ id, id.index < base.size → t.form id = base.form id
  parent? : ∀ id, id.index < base.size → t.parent? id = base.parent? id

/-- Two stores with the same slots and the same links. -/
structure SameLinks (t t' : Tree) : Prop where
  size : t'.size = t.size
  children : ∀ id, t'.children id = t.children id
  parent? : ∀ id, t'.parent? id = t.parent? id

variable {t t' base : Tree} {id : NodeId}

theorem Extends.refl (t : Tree) : t.Extends t :=
  ⟨.refl, fun _ _ => rfl, fun _ _ => rfl⟩

theorem Extends.trans {t'' : Tree} (first : t.Extends t') (second : t'.Extends t'') : t.Extends t'' where
  size := first.size.trans second.size
  form id range := (second.form id (range.trans_le first.size)).trans (first.form id range)
  parent? id range :=
    (second.parent? id (range.trans_le first.size)).trans (first.parent? id range)

/-- A node that was added to a store holds only nodes that were added too. -/
theorem Extends.size_le_child (extension : base.Extends t) (tied : t.Tied) (ground : base.Tied) {id child : NodeId}
    (new : base.size ≤ id.index) (slot : child ∈ t.children id) : base.size ≤ child.index := by
  by_contra old
  have link := (tied.tidy id).linked child slot
  rw [extension.parent? child (Nat.lt_of_not_le old)] at link
  have slot := ground.held child id link
  simp [base.children_eq_nil_of_size_le new] at slot

theorem SameLinks.refl (t : Tree) : t.SameLinks t :=
  ⟨rfl, fun _ => rfl, fun _ => rfl⟩

theorem SameLinks.trans {t'' : Tree} (first : t.SameLinks t') (second : t'.SameLinks t'') : t.SameLinks t'' where
  size := second.size.trans first.size
  children id := (second.children id).trans (first.children id)
  parent? id := (second.parent? id).trans (first.parent? id)

theorem SameLinks.of_nodes (nodes : t'.nodes = t.nodes) : t.SameLinks t' where
  size := by simp only [Tree.size, nodes]
  children id := by simp only [Tree.children, Tree.form, Tree.node?, nodes]
  parent? id := by simp only [Tree.parent?, Tree.node?, nodes]

theorem SameLinks.modifyForm (t : Tree) (id : NodeId) {f : Form NodeId → Form NodeId}
    (same : (f (t.form id)).children = t.children id) : t.SameLinks (t.modifyForm id f) where
  size := t.modifyForm_size id f
  children x := by
    rw [Tree.children, modifyForm_form]
    split
    · rename_i here
      rw [same, here.1]
    · rfl
  parent? := t.modifyForm_parent? id f

/-- Another form with the same children changes no links. -/
theorem SameLinks.setForm (tidy : t.Tidy id) {form : Form NodeId} (same : form.children = t.children id) :
    t.SameLinks (t.setForm id form) where
  size := t.setForm_size id form
  children x := by
    rw [setForm_children]
    split
    · rename_i here
      rw [same, here.1]
    · rfl
  parent? x := by
    rw [setForm_parent?, same]
    by_cases slot : x ∈ t.children id
    · have link := tidy.linked x slot
      simp [slot, link, t.index_lt_of_parent? link]
    · simp [slot]

theorem SameLinks.tidy (same : t.SameLinks t') (tidy : t.Tidy id) : t'.Tidy id := by
  refine ⟨fun child slot => ?_, ?_⟩
  · rw [same.parent?]
    exact tidy.linked child (same.children id ▸ slot)
  · rw [same.children]
    exact tidy.distinct

theorem SameLinks.rooted (same : t.SameLinks t') {root : NodeId} (rooted : t.Rooted root) : t'.Rooted root where
  top := (same.parent? root).trans rooted.top
  inside := same.size ▸ rooted.inside
  tidy x below := same.tidy (rooted.tidy x ((below_congr same.parent?).mp below))

theorem Held.congr (held : t.Held) (same : t.SameLinks t') : t'.Held := by
  intro child id link
  rw [same.children]
  exact held child id (same.parent? child ▸ link)

theorem Held.alloc (held : t.Held) (form : Form NodeId) (span : Span) : (t.alloc form span).2.Held := by
  intro child id link
  rw [alloc_parent?] at link
  rw [alloc_children]
  split at link
  · rename_i taken
    rw [if_pos (Option.some.inj link).symm]
    exact taken.1
  · have slot := held child id link
    rw [if_neg fun new => ?_]
    · exact slot
    · simp [new, t.children_eq_nil_of_size_le] at slot

theorem Tied.congr (tied : t.Tied) (same : t.SameLinks t') : t'.Tied where
  tidy id := same.tidy (tied.tidy id)
  held := tied.held.congr same

/-- A node may be added that takes over nodes without a holder. -/
theorem Tied.alloc (tied : t.Tied) {form : Form NodeId} (span : Span) (distinct : form.children.Nodup)
    (free : ∀ x ∈ form.children, x.index < t.size ∧ t.parent? x = none) : (t.alloc form span).2.Tied where
  tidy id := by
    refine ⟨fun child slot => ?_, ?_⟩
    · rw [alloc_children] at slot
      rw [alloc_parent?]
      split at slot
      · rename_i new
        rw [if_pos ⟨slot, (free child slot).1⟩, new]
      · have link := (tied.tidy id).linked child slot
        rw [if_neg fun taken => ?_, link]
        simp [(free child taken.1).2] at link
    · rw [alloc_children]
      split
      · exact distinct
      · exact (tied.tidy id).distinct
  held := tied.held.alloc form span

theorem Extends.alloc (extension : base.Extends t) {form : Form NodeId} (span : Span)
    (free : ∀ x ∈ form.children, base.size ≤ x.index) : base.Extends (t.alloc form span).2 where
  size := by
    rw [alloc_size]
    exact Nat.le_succ_of_le extension.size
  form id range := by
    rw [alloc_form, if_neg, extension.form id range]
    exact ne_of_fresh range extension.size
  parent? id range := by
    rw [alloc_parent?, if_neg, extension.parent? id range]
    exact fun taken => absurd (free id taken.1) range.not_ge

end Tree

namespace ParseState

/-- The state holds the nodes `loose`, which were added to `base` and have no holder yet. -/
structure Holding (base : Tree) (loose : List NodeId) (s : ParseState) : Prop where
  tied : s.tree.Tied
  ground : base.Tied
  extension : base.Extends s.tree
  distinct : loose.Nodup
  free : ∀ x ∈ loose, base.size ≤ x.index ∧ x.index < s.tree.size ∧ s.tree.parent? x = none

variable {base : Tree} {loose kept : List NodeId} {s : ParseState}

theorem Holding.of_tied (tied : s.tree.Tied) : s.Holding s.tree [] where
  tied := tied
  ground := tied
  extension := .refl _
  distinct := nodup_nil
  free _ member := by cases member

namespace Holding

variable (holding : s.Holding base loose)

include holding

theorem congr {s' : ParseState} (tree : s'.tree = s.tree) : s'.Holding base loose := by
  obtain ⟨tied, ground, extension, distinct, free⟩ := holding
  refine ⟨?_, ground, ?_, distinct, ?_⟩
  all_goals rwa [tree]

theorem new_child {id child : NodeId} (new : base.size ≤ id.index)
    (slot : child ∈ s.tree.children id) : base.size ≤ child.index :=
  holding.extension.size_le_child holding.tied holding.ground new slot

theorem fewer (sub : ∀ x, kept.count x ≤ loose.count x) : s.Holding base kept where
  tied := holding.tied
  ground := holding.ground
  extension := holding.extension
  distinct := nodup_iff_count_le_one.mpr fun x =>
    (sub x).trans (nodup_iff_count_le_one.mp holding.distinct x)
  free x member :=
    holding.free x (count_pos_iff.mp ((count_pos_iff.mpr member).trans_le (sub x)))

/-- A new node takes over nodes that are held and is itself held; others stay held. -/
theorem alloc {form : Form NodeId} (span : Span) (sub : ∀ x, (form.children ++ kept).count x ≤ loose.count x) :
    ({ s with tree := (s.tree.alloc form span).2 } : ParseState).Holding base (⟨s.tree.size⟩ :: kept) := by
  have all := holding.fewer sub
  have apart := nodup_append.mp all.distinct
  have taken (x : NodeId) (member : x ∈ form.children) := all.free x (mem_append_left _ member)
  have extension := holding.extension.alloc span fun x member => (taken x member).1
  refine ⟨?_, holding.ground, extension, ?_, ?_⟩
  · exact holding.tied.alloc span apart.1 fun x member => (taken x member).2
  · refine nodup_cons.mpr ⟨fun member => ?_, apart.2.1⟩
    exact lt_irrefl _ (all.free _ (mem_append_right _ member)).2.1
  · intro x member
    show _ ∧ _ < (s.tree.alloc form span).2.size ∧ (s.tree.alloc form span).2.parent? x = none
    rw [Tree.alloc_size, Tree.alloc_parent?]
    rcases mem_cons.mp member with rfl | member
    · have outside : s.tree.parent? ⟨s.tree.size⟩ = none := s.tree.parent?_eq_none_of_size_le .refl
      exact ⟨holding.extension.size, Nat.lt_succ_self _, by simp [outside]⟩
    · obtain ⟨new, range, none⟩ := all.free x (mem_append_right _ member)
      refine ⟨new, Nat.lt_succ_of_lt range, ?_⟩
      rw [if_neg fun taken => apart.2.2 x taken.1 x member rfl, none]

/-- A rule that was run on its own leaves the nodes alone that were held before it. -/
theorem framed {s' : ParseState} {more : List NodeId}
    (run : s'.Holding s.tree more) : s'.Holding base (more ++ loose) where
  tied := run.tied
  ground := holding.ground
  extension := holding.extension.trans run.extension
  distinct := by
    refine nodup_append.mpr ⟨run.distinct, holding.distinct, fun x new y old same => ?_⟩
    have := (run.free x new).1
    have := (holding.free y old).2.1
    subst same
    omega
  free x member := by
    rcases mem_append.mp member with new | old
    · obtain ⟨least, range, none⟩ := run.free x new
      exact ⟨holding.extension.size.trans least, range, none⟩
    · obtain ⟨least, range, none⟩ := holding.free x old
      refine ⟨least, range.trans_le run.extension.size, ?_⟩
      rw [run.extension.parent? x range, none]

/-- Forms of the nodes that a rule added may change if slots and links stay. -/
theorem reshaped {tree : Tree} (same : s.tree.SameLinks tree)
    (old : ∀ id, id.index < base.size → tree.form id = s.tree.form id) :
    ({ s with tree } : ParseState).Holding base loose where
  tied := holding.tied.congr same
  ground := holding.ground
  extension :=
    { size := by
        show base.size ≤ tree.size
        rw [same.size]
        exact holding.extension.size
      form := fun id range => (old id range).trans (holding.extension.form id range)
      parent? := fun id range => (same.parent? id).trans (holding.extension.parent? id range) }
  distinct := holding.distinct
  free x member := by
    show _ ∧ _ < tree.size ∧ tree.parent? x = none
    rw [same.size, same.parent?]
    exact holding.free x member

end Holding

end ParseState

end Condense
