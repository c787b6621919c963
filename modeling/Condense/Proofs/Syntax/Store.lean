import Condense.Syntax.Tree

/-!
What the edits of a syntax tree leave behind: which form each node has afterwards.
-/

namespace Condense.Tree

variable (t : Tree) (id : NodeId) (form : Form NodeId)

/-- Nodes that were there before are none of the new ones. -/
theorem ne_of_fresh {m n : Nat} {x : NodeId} (old : x.index < m) (fresh : m ≤ n) : x ≠ ⟨n⟩ := by
  rintro rfl
  exact Nat.not_lt_of_le fresh old

@[simp] theorem mem_children {id child : NodeId} : child ∈ t.children id ↔ child ∈ (t.form id).children :=
  Iff.rfl

theorem form_eq_empty_of_size_le {id : NodeId} (outside : t.size ≤ id.index) : t.form id = .empty := by
  simp [form, node?, Array.getElem?_eq_none (show t.nodes.size ≤ id.index from outside)]

theorem index_lt_of_form {t : Tree} {id : NodeId} (present : t.form id ≠ .empty) : id.index < t.size := by
  refine Nat.lt_of_not_le fun outside => present ?_
  exact t.form_eq_empty_of_size_le outside

@[simp] theorem setParent_size (parent : Option NodeId) : (t.setParent id parent).size = t.size := by
  simp [setParent, size]

@[simp] theorem setParent_form (parent : Option NodeId) (x : NodeId) : (t.setParent id parent).form x = t.form x := by
  simp only [setParent, form, node?, Array.getElem?_modify]
  by_cases same : id.index = x.index
  · rw [if_pos same]
    cases t.nodes[x.index]? <;> rfl
  · rw [if_neg same]

@[simp] theorem modifyForm_size (f : Form NodeId → Form NodeId) : (t.modifyForm id f).size = t.size := by
  simp [modifyForm, size]

theorem modifyForm_form (f : Form NodeId → Form NodeId) (x : NodeId) :
    (t.modifyForm id f).form x = if x = id ∧ id.index < t.size then f (t.form id) else t.form x := by
  obtain ⟨i⟩ := id
  obtain ⟨j⟩ := x
  simp only [modifyForm, form, node?, size, Array.getElem?_modify, NodeId.mk.injEq]
  by_cases same : j = i
  · subst same
    by_cases range : j < t.nodes.size <;> simp [range]
  · simp [same, Ne.symm same]

theorem foldl_addFile_nodes (files : List String) :
    (files.foldl (fun t name => (t.addFile name).2) t).nodes = t.nodes := by
  induction files generalizing t with
  | nil => rfl
  | cons name rest ih => exact ih (t.addFile name).2

/-- Links are no part of the forms, whoever takes the nodes over. -/
theorem relink_size_form (parent : Option NodeId) (children : List NodeId) :
    let linked := children.foldl (fun t child => t.setParent child parent) t
    linked.size = t.size ∧ ∀ x, linked.form x = t.form x := by
  induction children generalizing t with
  | nil => exact ⟨rfl, fun _ => rfl⟩
  | cons child rest ih => simpa using ih (t.setParent child parent)

theorem adopt_size (parent : NodeId) (children : List NodeId) : (t.adopt parent children).size = t.size :=
  (t.relink_size_form (some parent) children).1

theorem adopt_form (parent : NodeId) (children : List NodeId) (x : NodeId) :
    (t.adopt parent children).form x = t.form x :=
  (t.relink_size_form (some parent) children).2 x

theorem release_size (children : List NodeId) : (t.release children).size = t.size :=
  (t.relink_size_form none children).1

theorem release_form (children : List NodeId) (x : NodeId) : (t.release children).form x = t.form x :=
  (t.relink_size_form none children).2 x

@[simp] theorem alloc_id (span : Span) : (t.alloc form span).1 = ⟨t.size⟩ := rfl

@[simp] theorem alloc_size (span : Span) : (t.alloc form span).2.size = t.size + 1 := by
  have adopted := t.adopt_size ⟨t.nodes.size⟩ form.children
  simp only [size] at adopted ⊢
  simp [alloc, adopted]

theorem alloc_form (span : Span) (x : NodeId) :
    (t.alloc form span).2.form x = if x = ⟨t.size⟩ then form else t.form x := by
  have size := t.adopt_size ⟨t.nodes.size⟩ form.children
  have old := t.adopt_form ⟨t.nodes.size⟩ form.children x
  obtain ⟨i⟩ := x
  simp only [Tree.size] at size
  simp only [alloc, Tree.form, node?, Array.getElem?_push, size, NodeId.mk.injEq, Tree.size]
  by_cases last : i = t.nodes.size
  · rw [if_pos last, if_pos last]
  · rwa [if_neg last, if_neg last]

@[simp] theorem setForm_size : (t.setForm id form).size = t.size := by
  simp [setForm, adopt_size, release_size]

theorem setForm_form (x : NodeId) :
    (t.setForm id form).form x = if x = id ∧ id.index < t.size then form else t.form x := by
  simp [setForm, modifyForm_form, adopt_size, release_size, adopt_form, release_form]

end Condense.Tree
