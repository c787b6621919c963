import Mathlib.Data.List.Forall2
import Condense.Proofs.Syntax.Walk
import Condense.Syntax.Equivalence

/-!
Structural equivalence is an equivalence relation on the finite trees without numbers of all stores. Two nodes are of
one shape exactly if they are of one kind and have the same data.
-/

namespace Condense

open List

/-- Something that a node has apart from its children. -/
inductive Datum where
  | text (value : Option String)
  | literal (value : Literal)
  | flag (value : Bool)
  | count (value : Nat)
  | declaration (kind : DeclarationKind)
  | function (kind : FunctionKind)
  | classMember (kind : ClassMemberKind)
  | property (kind : PropertyKind)
  | importKind (kind : ImportKind)
  | exportKind (kind : ExportKind)
  | unary (op : UnaryOp)
  | update (op : UpdateOp)
  | binary (op : BinaryOp)

def Literal.isNumber : Literal → Bool
  | number _ => true
  | _ => false

theorem Literal.same_iff {a b : Literal} (plain : a.isNumber = false) : a.same b ↔ a = b := by
  cases a <;> cases b <;> simp_all [same, isNumber]

namespace Form

variable {α : Type} {f g : Form α}

def data : Form α → List Datum
  | block _ _ concise => [.flag concise]
  | var kind _ => [.declaration kind]
  | function kind _ params _ isAsync isGenerator _ _ =>
    [.function kind, .flag isAsync, .flag isGenerator, .count params.length]
  | classMember _ _ kind isStatic computed => [.classMember kind, .flag isStatic, .flag computed]
  | forInLoop _ _ _ isOf isAwait _ => [.flag isOf, .flag isAwait]
  | breakStatement label | continueStatement label => [.text label]
  | labeled text _ | importantComment text | ccSet text _ | ccVariable text | lookup text _ _ | member _ text _
  | propertyName text | bindingIdentifier text _ | importDeclaration _ text | bigInt text => [.text (some text)]
  | importSpecifier kind imported _ => [.importKind kind, .text imported]
  | exportDeclaration kind _ _ source nameSpace => [.exportKind kind, .text source, .text nameSpace]
  | exportSpecifier _ exported => [.text exported]
  | constant value => [.literal value]
  | regExp pattern flags => [.text (some pattern), .text (some flags)]
  | template tag quasis _ => .flag tag.isSome :: quasis.map fun text => .text (some text)
  | unary op _ => [.unary op]
  | update op isPrefixed _ => [.update op, .flag isPrefixed]
  | binary op _ _ => [.binary op]
  | call _ args isNew optional => [.flag isNew, .flag optional, .count args.length]
  | index _ _ optional => [.flag optional]
  | arrayLiteral elements | arrayPattern elements => elements.map fun element => .flag element.isSome
  | property _ _ kind computed => [.property kind, .flag computed]
  | yield _ delegate => [.flag delegate]
  | replacementToken name fallback => [.text (some name), .text fallback]
  | _ => []

def isNumber : Form α → Bool
  | constant value => value.isNumber
  | _ => false

theorem sameHoles_iff (a b : List (Option α)) :
    (a.length == b.length && (a.zip b).all fun (x, y) => x.isSome == y.isSome) = true ↔
      (a.map fun x => Datum.flag x.isSome) = b.map fun y => Datum.flag y.isSome := by
  induction a generalizing b with
  | nil => cases b <;> simp
  | cons x a ih =>
    cases b with
    | nil => simp
    | cons y b =>
      have rest := ih b
      simp only [Bool.and_eq_true, beq_iff_eq] at rest
      simp only [length_cons, zip_cons_cons, all_cons, map_cons, cons.injEq, Datum.flag.injEq, Bool.and_eq_true,
        beq_iff_eq, Nat.add_right_cancel_iff, ← rest]
      tauto

/-- Nothing else of two nodes of one kind is compared. -/
theorem sameShape_iff (plain : f.isNumber = false) : f.sameShape g ↔ f.ctorIdx = g.ctorIdx ∧ f.data = g.data := by
  by_cases same : f.ctorIdx = g.ctorIdx
  · simp only [sameShape, same, beq_self_eq_true, Bool.true_and, true_and]
    -- the other node is of the same kind, so that there is one case for each kind and not one for each pair
    cases f <;> refine Form.ctorElim (motive := fun g => sameData _ g ↔ data _ = data g) _ g same ⟨?_⟩ <;> intros
    case constant =>
      simp only [data, cons.injEq, Datum.literal.injEq, and_true]
      exact Literal.same_iff plain
    case arrayLiteral => exact sameHoles_iff ..
    case arrayPattern => exact sameHoles_iff ..
    all_goals first | exact ⟨fun _ => rfl, fun _ => rfl⟩ | delta sameData; simp [data, and_assoc, map_inj_right]
  · rw [sameShape, beq_false_of_ne same, Bool.false_and]
    exact iff_of_false Bool.false_ne_true fun both => same both.1

theorem sameShape_refl (plain : f.isNumber = false) : f.sameShape f :=
  (sameShape_iff plain).2 ⟨rfl, rfl⟩

theorem sameShape_symm (plain : f.isNumber = false) (plain' : g.isNumber = false) (same : f.sameShape g) :
    g.sameShape f := by
  obtain ⟨kind, data⟩ := (sameShape_iff plain).1 same
  exact (sameShape_iff plain').2 ⟨kind.symm, data.symm⟩

theorem sameShape_trans {h : Form α} (plain : f.isNumber = false) (plain' : g.isNumber = false)
    (first : f.sameShape g) (second : g.sameShape h) : f.sameShape h := by
  obtain ⟨kind, data⟩ := (sameShape_iff plain).1 first
  obtain ⟨kind', data'⟩ := (sameShape_iff plain').1 second
  exact (sameShape_iff plain).2 ⟨kind.trans kind', data.trans data'⟩

end Form

namespace Tree

variable {t u v : Tree} {a b c : NodeId} {depth : Nat}

/-- No number stands at a node or below it. -/
def Numberless (t : Tree) (root : NodeId) : Prop :=
  ∀ id, Relation.ReflTransGen t.HeldBy id root → (t.form id).isNumber = false

theorem Numberless.here (plain : t.Numberless a) : (t.form a).isNumber = false :=
  plain a .refl

theorem Numberless.child (plain : t.Numberless a) (slot : b ∈ t.children a) : t.Numberless b :=
  fun id under => plain id (under.tail slot)

theorem equivalentUpTo_succ : equivalentUpTo t u (depth + 1) a b ↔
    (t.form a).sameShape (u.form b) ∧
      Forall₂ (fun x y => equivalentUpTo t u depth x y) (t.children a) (u.children b) := by
  simp [equivalentUpTo, forall₂_iff_zip, children, and_assoc]

theorem equivalentUpTo_refl (shallow : t.Shallow depth a) (plain : t.Numberless a) :
    equivalentUpTo t t depth a a := by
  induction depth generalizing a with
  | zero => exact shallow.elim
  | succ depth ih =>
    refine equivalentUpTo_succ.2 ⟨Form.sameShape_refl plain.here, forall₂_same.2 fun child slot => ?_⟩
    exact ih (shallow child slot) (plain.child slot)

theorem equivalentUpTo_symm (plain : t.Numberless a) (plain' : u.Numberless b) (same : equivalentUpTo t u depth a b) :
    equivalentUpTo u t depth b a := by
  induction depth generalizing a b with
  | zero => cases same
  | succ depth ih =>
    obtain ⟨shape, below⟩ := equivalentUpTo_succ.1 same
    refine equivalentUpTo_succ.2 ⟨Form.sameShape_symm plain.here plain'.here shape, ?_⟩
    have left := (forall₂_and_left ..).2 ⟨fun x => plain.child, below⟩
    have both := (forall₂_and_left ..).2 ⟨fun y => plain'.child, left.flip⟩
    exact both.imp fun y x all => ih all.2.1 all.1 all.2.2

theorem equivalentUpTo_trans (plain : t.Numberless a) (plain' : u.Numberless b)
    (first : equivalentUpTo t u depth a b) (second : equivalentUpTo u v depth b c) :
    equivalentUpTo t v depth a c := by
  induction depth generalizing a b c with
  | zero => cases first
  | succ depth ih =>
    obtain ⟨shape, below⟩ := equivalentUpTo_succ.1 first
    obtain ⟨shape', below'⟩ := equivalentUpTo_succ.1 second
    refine equivalentUpTo_succ.2 ⟨Form.sameShape_trans plain.here plain'.here shape shape', ?_⟩
    have xsPlain := fun x => plain.child (b := x)
    have ysPlain := fun y => plain'.child (b := y)
    generalize t.children a = xs at below xsPlain ⊢
    generalize u.children b = ys at below below' ysPlain
    generalize v.children c = zs at below' ⊢
    induction below generalizing zs with
    | nil => exact forall₂_nil_left_iff.2 (forall₂_nil_left_iff.1 below')
    | cons same _ rest =>
      obtain _ | ⟨same', below'⟩ := below'
      refine .cons (ih (xsPlain _ (.head _)) (ysPlain _ (.head _)) same same') ?_
      exact rest (fun x member => xsPlain x (.tail _ member)) (fun y member => ysPlain y (.tail _ member)) _ below'

/-- Trees that agree agree down to every depth that is enough for one of them. -/
theorem equivalentUpTo_of_shallow {depth' : Nat} (shallow : t.Shallow depth' a)
    (same : equivalentUpTo t u depth a b) : equivalentUpTo t u depth' a b := by
  induction depth' generalizing depth a b with
  | zero => exact shallow.elim
  | succ depth' ih =>
    obtain _ | depth := depth
    · cases same
    obtain ⟨shape, below⟩ := equivalentUpTo_succ.1 same
    obtain ⟨length, below⟩ := forall₂_iff_zip.1 below
    refine equivalentUpTo_succ.2 ⟨shape, forall₂_iff_zip.2 ⟨length, fun pair => ?_⟩⟩
    exact ih (shallow _ (of_mem_zip pair).1) (below pair)

end Tree

structure FiniteTree where
  store : Tree
  root : NodeId
  finite : store.Finite root
  plain : store.Numberless root

/-- For two trees without numbers it does not matter which is compared with which, and what is like a third is alike,
in whatever stores they are. -/
theorem FiniteTree.equivalent_equivalence :
    Equivalence fun x y : FiniteTree => x.store.equivalent x.root y.store y.root = true where
  refl x := Tree.equivalentUpTo_refl (x.finite.shallow (by omega)) x.plain
  symm {x y} same := by
    rw [Tree.equivalent, Nat.add_comm y.store.size]
    exact Tree.equivalentUpTo_symm x.plain y.plain same
  trans {x y z} first second := by
    -- the second comparison is made anew down to the depth of the first
    refine Tree.equivalentUpTo_of_shallow (x.finite.shallow (by omega)) (Tree.equivalentUpTo_trans x.plain y.plain
      first (Tree.equivalentUpTo_of_shallow (y.finite.shallow ?_) second))
    omega

end Condense
