import Condense.Proofs.Syntax.Walk
import Mathlib.Data.Fintype.Card

/-!
Links of nodes to the nodes that hold them.
-/

namespace Condense.Tree

open List

variable (t : Tree)
variable {id top x a b root : NodeId}

theorem parent?_eq_none_of_size_le (outside : t.size ≤ id.index) : t.parent? id = none := by
  simp [parent?, node?, Array.getElem?_eq_none (show t.nodes.size ≤ id.index from outside)]

theorem index_lt_of_parent? {parent : NodeId} (link : t.parent? id = some parent) : id.index < t.size := by
  by_contra outside
  rw [t.parent?_eq_none_of_size_le (not_lt.1 outside)] at link
  cases link

theorem children_eq_nil_of_size_le (outside : t.size ≤ id.index) : t.children id = [] := by
  rw [children, t.form_eq_empty_of_size_le outside]
  rfl

theorem setParent_parent? (id : NodeId) (parent : Option NodeId) (x : NodeId) :
    (t.setParent id parent).parent? x = if x = id ∧ id.index < t.size then parent else t.parent? x := by
  obtain ⟨i⟩ := id
  obtain ⟨j⟩ := x
  simp only [setParent, parent?, node?, size, Array.getElem?_modify, NodeId.mk.injEq]
  by_cases same : j = i
  · subst same
    by_cases range : j < t.nodes.size <;> simp [range]
  · simp [same, Ne.symm same]

@[simp] theorem modifyForm_parent? (id : NodeId) (f : Form NodeId → Form NodeId) (x : NodeId) :
    (t.modifyForm id f).parent? x = t.parent? x := by
  simp only [modifyForm, parent?, node?, Array.getElem?_modify]
  split
  · cases t.nodes[x.index]? <;> rfl
  · rfl

theorem adopt_parent? (parent : NodeId) (children : List NodeId) (x : NodeId) :
    (t.adopt parent children).parent? x =
      if x ∈ children ∧ x.index < t.size then some parent else t.parent? x := by
  induction children generalizing t with
  | nil => simp [adopt]
  | cons child rest ih =>
    have step := ih (t.setParent child (some parent))
    rw [setParent_parent?, setParent_size] at step
    refine step.trans ?_
    by_cases same : x = child
    · subst same
      by_cases range : x.index < t.size <;> simp [range]
    · simp [same]

theorem release_parent? (children : List NodeId) (x : NodeId) :
    (t.release children).parent? x = if x ∈ children then none else t.parent? x := by
  induction children generalizing t with
  | nil => simp [release]
  | cons child rest ih =>
    have step := ih (t.setParent child none)
    rw [setParent_parent?] at step
    refine step.trans ?_
    by_cases same : x = child
    · subst same
      by_cases range : x.index < t.size
      · simp [range]
      · simp [range, t.parent?_eq_none_of_size_le (not_lt.1 range)]
    · simp [same]

theorem alloc_parent? (form : Form NodeId) (span : Span) (x : NodeId) :
    (t.alloc form span).2.parent? x =
      if x ∈ form.children ∧ x.index < t.size then some ⟨t.size⟩ else t.parent? x := by
  have size := t.adopt_size ⟨t.nodes.size⟩ form.children
  have old := t.adopt_parent? ⟨t.nodes.size⟩ form.children x
  obtain ⟨i⟩ := x
  simp only [Tree.size] at size old
  simp only [alloc, parent?, node?, Array.getElem?_push, size, Tree.size]
  by_cases last : i = t.nodes.size
  · subst last
    simp
  · rwa [if_neg last]

theorem setForm_parent? (id : NodeId) (form : Form NodeId) (x : NodeId) :
    (t.setForm id form).parent? x =
      if x ∈ form.children ∧ x.index < t.size then some id
      else if x ∈ t.children id ∧ x ∉ form.children then none else t.parent? x := by
  simp only [setForm, modifyForm_parent?, adopt_parent?, release_size, release_parent?, mem_filter,
    contains_eq_mem, Bool.not_eq_true', decide_eq_false_iff_not]

theorem alloc_children (form : Form NodeId) (span : Span) (x : NodeId) :
    (t.alloc form span).2.children x = if x = ⟨t.size⟩ then form.children else t.children x := by
  simp only [children, alloc_form]
  split <;> rfl

theorem setForm_children (id : NodeId) (form : Form NodeId) (x : NodeId) :
    (t.setForm id form).children x =
      if x = id ∧ id.index < t.size then form.children else t.children x := by
  simp only [children, setForm_form]
  split <;> rfl

/-- The node that is so many links above another. -/
def climb : Nat → NodeId → Option NodeId
  | 0, x => some x
  | steps + 1, x => (t.parent? x).bind (climb steps)

/-- Whether a node is `top` or hangs below it by links. -/
def Below (top x : NodeId) : Prop :=
  ∃ steps, t.climb steps x = some top

variable {t}

theorem climb_add (m n : Nat) (x : NodeId) : t.climb (m + n) x = (t.climb m x).bind (t.climb n) := by
  induction m generalizing x with
  | zero => simp [climb]
  | succ m ih =>
    rw [Nat.succ_add]
    simp only [climb]
    cases t.parent? x with
    | none => rfl
    | some p => exact ih p

theorem below_congr {t' : Tree} (same : ∀ x, t'.parent? x = t.parent? x) : t'.Below top x ↔ t.Below top x := by
  have climbs (steps : Nat) (x : NodeId) : t'.climb steps x = t.climb steps x := by
    induction steps generalizing x with
    | zero => rfl
    | succ steps ih =>
      simp only [climb, same]
      exact Option.bind_congr fun p _ => ih p
  simp only [Below, climbs]

theorem Below.refl (x : NodeId) : t.Below x x :=
  ⟨0, rfl⟩

theorem Below.link {p : NodeId} (link : t.parent? x = some p) (below : t.Below top p) : t.Below top x := by
  obtain ⟨steps, arrives⟩ := below
  exact ⟨steps + 1, by simp [climb, link, arrives]⟩

theorem Below.trans {c : NodeId} (upper : t.Below a b) (lower : t.Below b c) : t.Below a c := by
  obtain ⟨m, first⟩ := lower
  obtain ⟨n, second⟩ := upper
  exact ⟨m + n, by rw [climb_add, first]; exact second⟩

/-- A node below another is that node, or it is linked to one below it. -/
theorem Below.cases (below : t.Below top x) : x = top ∨ ∃ p, t.parent? x = some p ∧ t.Below top p := by
  obtain ⟨steps, arrives⟩ := below
  cases steps with
  | zero => exact .inl (Option.some.inj arrives)
  | succ steps =>
    cases link : t.parent? x with
    | none => simp [climb, link] at arrives
    | some p => exact .inr ⟨p, rfl, steps, by simpa [climb, link] using arrives⟩

theorem ne_of_link {parent : NodeId} (link : t.parent? x = some parent) (top : t.parent? root = none) : x ≠ root := by
  rintro rfl
  rw [top] at link
  cases link

/-- Nothing but a node itself is above it if it has no link. -/
theorem Below.holder {p : NodeId} (below : t.Below top x) (link : t.parent? x = some p) (other : x ≠ top) :
    t.Below top p := by
  obtain ⟨q, link', above⟩ := below.cases.resolve_left other
  exact Option.some.inj (link'.symm.trans link) ▸ above

theorem Below.index_lt (below : t.Below top x) (inside : top.index < t.size) : x.index < t.size := by
  rcases below.cases with rfl | ⟨p, link, -⟩
  · exact inside
  · exact t.index_lt_of_parent? link

theorem Below.eq_of_top (none : t.parent? x = none) (below : t.Below top x) : x = top := by
  rcases below.cases with same | ⟨p, link, -⟩
  · exact same
  · exact absurd rfl (ne_of_link link none)

/-- Induction along the links from a node up to `top`. -/
@[elab_as_elim]
theorem Below.induct {motive : NodeId → Prop} (self : motive top)
    (link : ∀ x p, t.parent? x = some p → t.Below top p → motive p → motive x) (below : t.Below top x) : motive x := by
  obtain ⟨steps, arrives⟩ := below
  induction steps generalizing x with
  | zero => exact Option.some.inj arrives ▸ self
  | succ steps ih =>
    cases parent : t.parent? x with
    | none => simp [climb, parent] at arrives
    | some p =>
      have further : t.climb steps p = some top := by simpa [climb, parent] using arrives
      exact link x p parent ⟨steps, further⟩ (ih further)

/-- Of two nodes above one, one is above the other. -/
theorem Below.linear (first : t.Below a x) (second : t.Below b x) : t.Below a b ∨ t.Below b a := by
  obtain ⟨m, toA⟩ := first
  obtain ⟨n, toB⟩ := second
  by_cases shorter : m ≤ n
  · refine .inr ⟨n - m, ?_⟩
    rwa [show n = m + (n - m) by omega, climb_add, toA] at toB
  · refine .inl ⟨m - n, ?_⟩
    rwa [show m = n + (m - n) by omega, climb_add, toB] at toA

/-- Where links lead up to a node without one, they do not lead round in a circle. -/
theorem not_climb_self (top : t.parent? root = none) (below : t.Below root x)
    (steps : Nat) : t.climb (steps + 1) x ≠ some x := by
  intro circle
  obtain ⟨n, arrives⟩ := below
  have beyond : t.climb (n + (steps + 1)) x = none := by
    rw [climb_add, arrives]
    simp [climb, top]
  rw [Nat.add_comm, climb_add, circle] at beyond
  simp [arrives] at beyond

theorem not_below_of_link {p : NodeId} (top : t.parent? root = none) (below : t.Below root x)
    (link : t.parent? x = some p) : ¬ t.Below x p := by
  rintro ⟨steps, arrives⟩
  exact not_climb_self top below steps (by simp [climb, link, arrives])

theorem Below.antisymm (top : t.parent? root = none) (rooted : t.Below root a)
    (first : t.Below a b) (second : t.Below b a) : a = b := by
  obtain ⟨m, toA⟩ := first
  obtain ⟨n, toB⟩ := second
  cases m with
  | zero => exact (Option.some.inj toA).symm
  | succ m =>
    have circle : t.climb (n + (m + 1)) a = some a := by rw [climb_add, toB]; exact toA
    exact absurd circle (not_climb_self top rooted (n + m))

/-- Whether the slots of a node hold different nodes that are all linked back to it. -/
structure Tidy (t : Tree) (id : NodeId) : Prop where
  linked : ∀ child ∈ t.children id, t.parent? child = some id
  distinct : (t.children id).Nodup

/-- Whether a proper tree hangs below `root`. -/
structure Rooted (t : Tree) (root : NodeId) : Prop where
  top : t.parent? root = none
  inside : root.index < t.size
  tidy : ∀ x, t.Below root x → t.Tidy x

namespace Rooted

variable (rooted : t.Rooted root)

include rooted

theorem linked {child : NodeId} (below : t.Below root x) (slot : child ∈ t.children x) : t.parent? child = some x :=
  (rooted.tidy x below).linked child slot

theorem below_child {child : NodeId} (below : t.Below root x) (slot : child ∈ t.children x) : t.Below root child :=
  .link (rooted.linked below slot) below

theorem below_of_mem_preorder {depth : Nat} (below : t.Below root id)
    (member : x ∈ t.preorder depth id) : t.Below id x := by
  induction depth generalizing id with
  | zero => simp [preorder] at member
  | succ depth ih =>
    rcases mem_cons.mp member with rfl | deeper
    · exact .refl x
    · obtain ⟨child, slot, found⟩ := mem_flatMap.mp deeper
      exact (Below.link (rooted.linked below slot) (.refl id)).trans (ih (rooted.below_child below slot) found)

theorem index_lt (below : t.Below root x) : x.index < t.size :=
  below.index_lt rooted.inside

/-- The way up from a node is shorter than the store is large. -/
theorem steps_lt_size {steps : Nat} (arrives : t.climb steps x = some root) : steps < t.size := by
  have passes (i : Fin (steps + 1)) : ∃ y, t.climb i x = some y ∧ t.Below root y := by
    have split : t.climb (i + (steps - i)) x = some root := by
      rwa [Nat.add_sub_cancel' (Nat.le_of_lt_succ i.isLt)]
    rw [climb_add] at split
    obtain ⟨y, here, further⟩ := Option.bind_eq_some_iff.mp split
    exact ⟨y, here, _, further⟩
  choose node here below using passes
  -- No node is passed twice, so there are as many as steps, and all of them are in the store.
  have injective : Function.Injective fun i => (⟨(node i).index, rooted.index_lt (below i)⟩ : Fin t.size) := by
    have apart {i j : Fin (steps + 1)} (order : i < j) : node i ≠ node j := by
      intro same
      have circle : t.climb ((j - i - 1) + 1) (node i) = some (node i) := by
        have later := here j
        rw [show (j : Nat) = i + ((j - i - 1) + 1) by have := Fin.lt_def.mp order; omega, climb_add, here i] at later
        exact later.trans (congrArg some same.symm)
      exact not_climb_self rooted.top (below i) _ circle
    intro i j same
    have same : node i = node j := by
      cases first : node i
      cases second : node j
      simpa [first, second] using same
    rcases lt_trichotomy i j with order | equal | order
    · exact absurd same (apart order)
    · exact equal
    · exact absurd same.symm (apart order)
  have bound := Fintype.card_le_of_injective _ injective
  rwa [Fintype.card_fin, Fintype.card_fin] at bound

theorem climb_child {n : Nat} {child : NodeId} (arrives : t.climb n id = some root)
    (slot : child ∈ t.children id) : t.climb (n + 1) child = some root := by
  have link := (rooted.tidy id ⟨n, arrives⟩).linked child slot
  simp only [climb, link, Option.bind_some, arrives]

theorem shallow {depth n : Nat} (arrives : t.climb n id = some root) (enough : t.size < depth + n) :
    t.Shallow depth id := by
  induction depth generalizing id n with
  | zero =>
    have passed := rooted.steps_lt_size arrives
    omega
  | succ depth ih => exact fun child slot => ih (rooted.climb_child arrives slot) (by omega)

theorem descendants_eq : t.descendants root = t.preorder (t.size + 1) root :=
  (rooted.shallow (n := 0) rfl (Nat.lt_succ_self _)).descendants_eq

theorem root_mem_descendants : root ∈ t.descendants root := by
  rw [rooted.descendants_eq]
  exact .head _

theorem below_of_mem_descendants (member : x ∈ t.descendants root) : t.Below root x :=
  rooted.below_of_mem_preorder (.refl root) (rooted.descendants_eq ▸ member)

/-- Two children of one node have nothing in common below them. -/
theorem siblings_apart (below : t.Below root id) (first : a ∈ t.children id)
    (second : b ∈ t.children id) (underFirst : t.Below a x) (underSecond : t.Below b x) : a = b := by
  have linked := (rooted.tidy id below).linked
  -- If one child were above the other, it would be above the node that holds both.
  have lifted {a b : NodeId} (first : a ∈ t.children id) (second : b ∈ t.children id)
      (above : t.Below a b) : a = b := by
    by_contra other
    exact not_below_of_link rooted.top (rooted.below_child below first) (linked a first)
      (above.holder (linked b second) (Ne.symm other))
  rcases underFirst.linear underSecond with above | above
  · exact lifted first second above
  · exact (lifted second first above).symm

/-- What is met later on the way down is not above what was met before. -/
theorem preorder_pairwise (depth : Nat) (below : t.Below root id) :
    (t.preorder depth id).Pairwise fun a b => ¬ t.Below b a := by
  induction depth generalizing id with
  | zero => exact .nil
  | succ depth ih =>
    have tidy := rooted.tidy id below
    have children {child : NodeId} (slot : child ∈ t.children id) := rooted.below_child below slot
    refine pairwise_cons.mpr ⟨?_, pairwise_flatMap.mpr ⟨fun child slot => ih (children slot), ?_⟩⟩
    · intro x later above
      obtain ⟨child, slot, found⟩ := mem_flatMap.mp later
      exact not_below_of_link rooted.top (children slot) (tidy.linked child slot)
        ((rooted.below_of_mem_preorder (children slot) found).trans above)
    · refine tidy.distinct.pairwise_of_forall_ne fun a first b second different => ?_
      intro x underFirst y underSecond above
      exact different (rooted.siblings_apart below first second
        (rooted.below_of_mem_preorder (children first) underFirst)
        ((rooted.below_of_mem_preorder (children second) underSecond).trans above))

theorem descendants_pairwise : (t.descendants root).Pairwise fun a b => ¬ t.Below b a :=
  rooted.descendants_eq ▸ rooted.preorder_pairwise _ (.refl root)

theorem preorder_nodup (depth : Nat) (below : t.Below root id) : (t.preorder depth id).Nodup := by
  refine (rooted.preorder_pairwise depth below).imp ?_
  rintro a b apart rfl
  exact apart (.refl a)

theorem descendants_nodup : (t.descendants root).Nodup :=
  rooted.descendants_eq ▸ rooted.preorder_nodup _ (.refl root)

/-- As many steps are enough to get out of all parentheses as there are nodes that are not passed yet. -/
theorem unwrapUpTo_succ {steps n : Nat} (arrives : t.climb n id = some root)
    (enough : t.size ≤ steps + n) : t.unwrapUpTo (steps + 1) id = t.unwrapUpTo steps id := by
  induction steps generalizing n id with
  | zero =>
    have passed := rooted.steps_lt_size arrives
    omega
  | succ steps ih =>
    rw [unwrapUpTo, unwrapUpTo]
    split
    · rename_i inner form
      apply ih (rooted.climb_child arrives (by simp [children, form, Form.children])) (by omega)
    · rfl

/-- Where links lead to holders only, the way down misses nothing below the root. -/
theorem mem_descendants (held : ∀ child id, t.Below root id → t.parent? child = some id → child ∈ t.children id)
    (below : t.Below root x) : x ∈ t.descendants root := by
  have down (steps depth : Nat) {top : NodeId} (at' : t.Below root top) (arrives : t.climb steps x = some top)
      (enough : steps < depth) : x ∈ t.preorder depth top := by
    induction steps generalizing depth top with
    | zero =>
      obtain ⟨depth, rfl⟩ := Nat.exists_eq_add_of_lt enough
      rw [Option.some.inj arrives, preorder]
      exact .head _
    | succ steps ih =>
      obtain ⟨depth, rfl⟩ : ∃ d, depth = d + 1 := ⟨depth - 1, by omega⟩
      rw [climb_add] at arrives
      obtain ⟨child, passes, last⟩ := Option.bind_eq_some_iff.mp arrives
      have link : t.parent? child = some top := by
        simpa [climb] using last
      refine .tail _ (mem_flatMap.mpr ⟨child, held child top at' link, ?_⟩)
      exact ih depth (.link link at') passes (by omega)
  obtain ⟨steps, arrives⟩ := below
  rw [rooted.descendants_eq]
  exact down steps _ (.refl root) arrives (Nat.lt_succ_of_lt (rooted.steps_lt_size arrives))

theorem linksAgree : t.linksAgree root := by
  simp only [Tree.linksAgree, all_eq_true, beq_iff_eq]
  intro id member child slot
  exact (rooted.tidy id (rooted.below_of_mem_descendants member)).linked child slot

end Rooted

end Condense.Tree
