import Condense.Proofs.Syntax.Store
import Mathlib.Algebra.Order.BigOperators.Group.List
import Mathlib.Algebra.Order.Group.Nat
import Mathlib.Data.List.Nodup
import Mathlib.Data.List.Perm.Subperm
import Mathlib.Logic.Relation

/-!
The way down a finite tree.
-/

namespace Condense.Tree

open List Relation

variable {t : Tree} {a x root : NodeId} {depth : Nat}

/-- The nodes below `id` in pre-order, down to the given depth. -/
def preorder (t : Tree) : Nat → NodeId → List NodeId
  | 0, _ => []
  | depth + 1, id => id :: (t.children id).flatMap (t.preorder depth)

/-- Whether one node stands in a slot of another. -/
def HeldBy (t : Tree) (child holder : NodeId) : Prop :=
  child ∈ t.children holder

/-- Whether the nodes below `root` form a finite tree: no path down from there goes on for ever. -/
def Finite (t : Tree) (root : NodeId) : Prop :=
  Acc t.HeldBy root

/-- Whether every path down from a node has fewer nodes than the depth allows. -/
def Shallow (t : Tree) : Nat → NodeId → Prop
  | 0, _ => False
  | depth + 1, id => ∀ child ∈ t.children id, t.Shallow depth child

theorem Finite.acyclic (finite : t.Finite a) : ¬ Relation.TransGen t.HeldBy a a := by
  have all := finite.transGen
  clear finite
  induction all with
  | intro a _ ih => exact fun loop => ih a loop loop

/-- A path of a finite tree passes no node twice, so it is no longer than the store. -/
theorem Finite.shallow_below (finite : t.Finite a) (above : List NodeId) (distinct : above.Nodup)
    (inside : ∀ x ∈ above, x.index < t.size) (leads : ∀ x ∈ above, Relation.TransGen t.HeldBy a x)
    (enough : t.size < depth + above.length) : t.Shallow depth a := by
  induction finite generalizing above depth with
  | intro a acc ih =>
    have fits : above.length ≤ t.size := by
      have subset : above ⊆ (List.range t.size).map NodeId.mk := fun x member =>
        mem_map.2 ⟨x.index, mem_range.2 (inside x member), rfl⟩
      simpa using (subperm_of_subset distinct subset).length_le
    obtain ⟨depth, rfl⟩ : ∃ d, depth = d + 1 := ⟨depth - 1, by omega⟩
    intro child slot
    have held : a.index < t.size := index_lt_of_form fun empty => by simp [children, empty, Form.children] at slot
    have fresh : a ∉ above := fun again => Finite.acyclic (.intro a acc) (leads a again)
    refine ih child slot (a :: above) (nodup_cons.2 ⟨fresh, distinct⟩) ?_ ?_ (by simp; omega)
    · simpa [held] using inside
    · intro x member
      rcases mem_cons.1 member with rfl | member
      · exact .single slot
      · exact .head slot (leads x member)

theorem Finite.shallow (finite : t.Finite a) (enough : t.size < depth) : t.Shallow depth a :=
  finite.shallow_below [] .nil (by simp) (by simp) enough

/-- The loop pays off the nodes on top of the stack, each by its listing. -/
theorem walk_append (ids : List NodeId) (shallow : ∀ id ∈ ids, t.Shallow depth id) (steps : Nat)
    (stack out : List NodeId) : t.walk (steps + (ids.flatMap (t.preorder depth)).length) (ids ++ stack) out =
      t.walk steps stack ((ids.flatMap (t.preorder depth)).reverse ++ out) := by
  induction depth generalizing ids steps stack out with
  | zero =>
    cases ids with
    | nil => rfl
    | cons id rest => exact (shallow id (.head _)).elim
  | succ depth below =>
    induction ids generalizing steps out with
    | nil => rfl
    | cons id rest ih =>
      obtain ⟨here, later⟩ := forall_mem_cons.1 shallow
      have paid := below (t.children id) here (steps + (rest.flatMap (t.preorder (depth + 1))).length) (rest ++ stack)
        (id :: out)
      rw [ih later] at paid
      calc
        _ = t.walk (steps + (rest.flatMap (t.preorder (depth + 1))).length +
              ((t.children id).flatMap (t.preorder depth)).length + 1) (id :: (rest ++ stack)) out := by
            simp only [flatMap_cons, preorder, length_append, length_cons, cons_append]
            congr 1
            omega
        _ = _ := by
            rw [walk, paid]
            simp [preorder]

theorem children_length_le (t : Tree) (id : NodeId) : (t.children id).length ≤ t.slots.length := by
  by_cases inside : id.index < t.size
  · rw [slots, length_flatMap]
    exact single_le_sum (by simp) _ (mem_map.2 ⟨id.index, mem_range.2 inside, rfl⟩)
  · rw [children, t.form_eq_empty_of_size_le (not_lt.1 inside)]
    exact Nat.zero_le _

theorem preorder_length_le (t : Tree) (depth : Nat) (id : NodeId) :
    (t.preorder depth id).length ≤ (t.slots.length + 1) ^ depth := by
  induction depth generalizing id with
  | zero => exact Nat.zero_le _
  | succ depth ih =>
    have below : ((t.children id).flatMap (t.preorder depth)).length ≤ t.slots.length * (t.slots.length + 1) ^ depth := by
      rw [length_flatMap]
      refine (sum_le_card_nsmul _ ((t.slots.length + 1) ^ depth) (by simpa using fun child _ => ih child)).trans ?_
      rw [length_map]
      exact Nat.mul_le_mul_right _ (t.children_length_le id)
    have one : 1 ≤ (t.slots.length + 1) ^ depth := Nat.one_le_pow _ _ (by omega)
    rw [preorder, length_cons, Nat.pow_succ, Nat.mul_succ, Nat.mul_comm]
    omega

/-- Depths that no path exceeds give the same listing. -/
theorem Shallow.preorder_eq {depth' : Nat} (shallow : t.Shallow depth a) (shallow' : t.Shallow depth' a) :
    t.preorder depth a = t.preorder depth' a := by
  induction depth generalizing depth' a with
  | zero => exact shallow.elim
  | succ depth ih =>
    cases depth' with
    | zero => exact shallow'.elim
    | succ depth' =>
      rw [preorder, preorder]
      exact congrArg _ (flatMap_congr fun child slot => ih (shallow child slot) (shallow' child slot))

theorem Shallow.walk_eq (shallow : t.Shallow depth a) {steps : Nat} (enough : (t.preorder depth a).length ≤ steps) :
    t.walk steps [a] [] = some (t.preorder depth a) := by
  obtain ⟨more, rfl⟩ := Nat.exists_eq_add_of_le' enough
  simpa [walk] using t.walk_append [a] (by simpa) more [] []

theorem Shallow.descendants_eq (shallow : t.Shallow (t.size + 1) a) : t.descendants a = t.preorder (t.size + 1) a := by
  rw [descendants, Nat.pow_eq, shallow.walk_eq (t.preorder_length_le _ _)]
  rfl

theorem Finite.below (finite : t.Finite a) (under : ReflTransGen t.HeldBy x a) : t.Finite x := by
  induction under using ReflTransGen.head_induction_on with
  | refl => exact finite
  | head held _ ih => exact ih.inv held

theorem Finite.descendants_cons (finite : t.Finite a) : t.descendants a = a :: (t.children a).flatMap t.descendants := by
  have shallow := finite.shallow (Nat.lt_succ_self t.size)
  rw [shallow.descendants_eq, preorder]
  refine congrArg _ (flatMap_congr fun child slot => ?_)
  have whole := (finite.below (.single slot)).shallow (Nat.lt_succ_self t.size)
  rw [whole.descendants_eq, Shallow.preorder_eq (shallow child slot) whole]

theorem Finite.mem_descendants (finite : t.Finite a) : x ∈ t.descendants a ↔ ReflTransGen t.HeldBy x a := by
  induction finite with
  | intro a acc ih =>
    rw [Finite.descendants_cons (.intro a acc), mem_cons, mem_flatMap, ReflTransGen.cases_tail_iff]
    refine or_congr eq_comm ⟨?_, ?_⟩
    · rintro ⟨child, slot, found⟩
      exact ⟨child, (ih child slot).1 found, slot⟩
    · rintro ⟨child, leads, slot⟩
      exact ⟨child, slot, (ih child slot).2 leads⟩

/-- Whether a finite tree hangs below a node: no node there has two holders or is held twice by one. -/
structure Branches (t : Tree) (root : NodeId) : Prop where
  finite : t.Finite root
  distinct : ∀ a, ReflTransGen t.HeldBy a root → (t.children a).Nodup
  apart : ∀ a b x, ReflTransGen t.HeldBy a root → ReflTransGen t.HeldBy b root → t.HeldBy x a → t.HeldBy x b → a = b

namespace Branches

variable (tree : t.Branches root) (live : ReflTransGen t.HeldBy a root)

include tree live

theorem acyclic : ¬ TransGen t.HeldBy a a :=
  (tree.finite.below live).acyclic

theorem siblings_apart {b c : NodeId} (first : t.HeldBy b a) (second : t.HeldBy c a)
    (underFirst : ReflTransGen t.HeldBy x b) (underSecond : ReflTransGen t.HeldBy x c) : b = c := by
  -- Within the tree every node has one holder, so of two nodes above one, one is above the other.
  let Within (child holder : NodeId) : Prop := t.HeldBy child holder ∧ ReflTransGen t.HeldBy holder root
  have within {y : NodeId} (slot : t.HeldBy y a) (under : ReflTransGen t.HeldBy x y) : ReflTransGen Within x y := by
    clear underFirst underSecond
    induction under using ReflTransGen.head_induction_on with
    | refl => exact .refl
    | head held leads ih => exact .head ⟨held, leads.trans (.head slot live)⟩ ih
  have unique : Relator.RightUnique Within := fun x b c first second => tree.apart b c x first.2 second.2 first.1 second.1
  have lifted {b c : NodeId} (first : t.HeldBy b a) (second : t.HeldBy c a) (above : ReflTransGen Within b c) : b = c := by
    obtain same | ⟨holder, held, leads⟩ := above.cases_head
    · exact same
    · rw [tree.apart holder a b held.2 live held.1 first] at leads
      exact absurd (TransGen.tail' (ReflTransGen.mono (fun _ _ => And.left) _ _ leads) second) (tree.acyclic live)
  rcases ReflTransGen.total_of_right_unique unique (within first underFirst) (within second underSecond) with above | above
  · exact lifted first second above
  · exact (lifted second first above).symm

theorem nodup_of_children (each : ∀ child ∈ t.children a, (t.descendants child).Nodup) : (t.descendants a).Nodup := by
  have finite := tree.finite.below live
  have under {x child : NodeId} (slot : child ∈ t.children a) (found : x ∈ t.descendants child) :
      ReflTransGen t.HeldBy x child :=
    (finite.below (.single slot)).mem_descendants.1 found
  rw [finite.descendants_cons, nodup_cons, nodup_flatMap]
  refine ⟨fun again => ?_, each, (tree.distinct a live).pairwise_of_forall_ne fun b first c second different => ?_⟩
  · obtain ⟨child, slot, found⟩ := mem_flatMap.1 again
    exact tree.acyclic live (.tail' (under slot found) slot)
  · exact fun x inFirst inSecond =>
      different (tree.siblings_apart live first second (under first inFirst) (under second inSecond))

end Branches

theorem Branches.descendants_nodup (tree : t.Branches root) : (t.descendants root).Nodup := by
  have all {a : NodeId} (finite : t.Finite a) (live : ReflTransGen t.HeldBy a root) : (t.descendants a).Nodup := by
    induction finite with
    | intro a _ ih => exact tree.nodup_of_children live fun child slot => ih child slot (.head slot live)
  exact all tree.finite .refl

/-- The loop ends after as many rounds as there are nodes to list. They are listed in pre-order, which the equation
determines since no path goes on for ever, and each node that can be reached is listed once. -/
theorem descendants_preorder (tree : t.Branches root) :
    (∀ steps, (t.descendants root).length ≤ steps → t.walk steps [root] [] = some (t.descendants root)) ∧
    (∀ x, ReflTransGen t.HeldBy x root → t.descendants x = x :: (t.children x).flatMap t.descendants) ∧
    (t.descendants root).Nodup ∧ ∀ x, x ∈ t.descendants root ↔ ReflTransGen t.HeldBy x root := by
  refine ⟨fun steps enough => ?_, fun x live => (tree.finite.below live).descendants_cons, tree.descendants_nodup,
    fun x => tree.finite.mem_descendants⟩
  have shallow := tree.finite.shallow (Nat.lt_succ_self t.size)
  rw [shallow.descendants_eq] at enough ⊢
  exact shallow.walk_eq enough

theorem descendants_preorder_block :
    let t : Tree := { nodes := #[{ form := .this }, { form := .grouping ⟨0⟩ }, { form := .empty },
      { form := .block [⟨1⟩, ⟨2⟩] none false }] }
    t.Branches ⟨3⟩ ∧ t.walk 4 [⟨3⟩] [] = some [⟨3⟩, ⟨1⟩, ⟨0⟩, ⟨2⟩] ∧
      ∀ x, x ∈ t.descendants ⟨3⟩ ↔ ReflTransGen t.HeldBy x ⟨3⟩ := by
  intro t
  have listed : t.descendants ⟨3⟩ = [⟨3⟩, ⟨1⟩, ⟨0⟩, ⟨2⟩] := by decide
  have leaf {i : Nat} (none : t.children ⟨i⟩ = []) : t.Finite ⟨i⟩ := .intro _ fun x slot => by simp [HeldBy, none] at slot
  have finite : t.Finite ⟨3⟩ :=
    .intro _ (forall_mem_cons.2 ⟨.intro _ (forall_mem_singleton.2 (leaf rfl)), forall_mem_singleton.2 (leaf rfl)⟩)
  have apart : ∀ a ∈ t.descendants ⟨3⟩, ∀ b ∈ t.descendants ⟨3⟩, ∀ x ∈ t.children a, x ∈ t.children b → a = b := by
    rw [listed]
    decide
  have distinct : ∀ a ∈ t.descendants ⟨3⟩, (t.children a).Nodup := by
    rw [listed]
    decide
  simp only [finite.mem_descendants] at apart distinct
  have tree : t.Branches ⟨3⟩ := ⟨finite, distinct, fun a b x first second => apart a first b second x⟩
  obtain ⟨ends, -, -, reached⟩ := descendants_preorder tree
  rw [listed] at ends
  exact ⟨tree, ends 4 (by decide), reached⟩

end Condense.Tree
