import Condense.Grammar.State
import Condense.Proofs.Scope.Building
import Condense.Proofs.Syntax.Store

/-!
What holds of the scopes and nodes at every moment of a parse.
-/

namespace Condense

open ScopeTree

variable {form : Form NodeId} {scope : ScopeId}

namespace Form

/-- The scopes that the children of a node stand in, where the node brings its own. -/
def ownScopes : Form NodeId → List ScopeId
  | .program _ scope | .classDefinition _ _ _ _ scope | .withStatement _ _ scope
  | .function _ _ _ _ _ _ scope _ => [scope]
  | .block _ scope _ | .forLoop _ _ _ _ scope | .forInLoop _ _ _ _ _ scope
  | .tryStatement _ _ _ scope _ | .switchStatement _ _ scope => scope.toList
  | _ => []

def reference? : Form NodeId → Option FieldId
  | .lookup _ field _ => field
  | _ => none

theorem lookup_of_reference? {f : FieldId} (found : form.reference? = some f) :
    ∃ name how, form = .lookup name (some f) how := by
  cases form with
  | lookup name field how =>
    obtain rfl : field = some f := found
    exact ⟨name, how, rfl⟩
  | _ => cases found

/-- The form of a node as the parser builds it, where the scopes `known` are in use. -/
def Placed (known : List ScopeId) : Form NodeId → Prop
  | .program _ scope | .classDefinition _ _ _ _ scope | .withStatement _ _ scope
  | .function _ _ _ _ _ _ scope _ => scope ∈ known
  | .block _ scope _ | .forLoop _ _ _ _ scope | .forInLoop _ _ _ _ _ scope
  | .tryStatement _ _ _ scope _ | .switchStatement _ _ scope => ∀ s ∈ scope, s ∈ known
  | .lookup _ field _ => field = none
  | _ => True

theorem Placed.scopes {known : List ScopeId} (placed : form.Placed known) : ∀ s ∈ form.ownScopes, s ∈ known := by
  unfold Placed at placed
  unfold ownScopes
  split at placed <;> simp_all

theorem Placed.unresolved {known : List ScopeId} (placed : form.Placed known) : form.reference? = none := by
  cases form <;> first | rfl | exact placed

end Form

theorem Field.redeclared_fixed {f : Field} (fixed : f.Fixed) (kind : FieldKind) : (f.redeclared kind).Fixed := by
  unfold Field.redeclared
  split
  · exact .inl rfl
  · split
    · rename_i here
      simp only [Bool.and_eq_true, beq_iff_eq] at here
      exact .inl (fixed.resolve_right fun other => other.1 here.1)
    · exact fixed

/-- A change of scopes that concerns neither their nesting nor whose fields are whose. -/
structure ScopeTree.Marks (f : ScopeTree → ScopeTree) : Prop where
  held : ∀ t : ScopeTree, t.Held → (f t).Held
  built : ∀ base t : ScopeTree, base.BuiltOn t → base.BuiltOn (f t)
  size : ∀ t : ScopeTree, (f t).scopes.size = t.scopes.size
  live : ∀ (t : ScopeTree) (s : ScopeId), (f t).Live s ↔ t.Live s
  identity : ∀ (t : ScopeTree) (g : FieldId), ((f t).field g).identity = (t.field g).identity

theorem ScopeTree.marks_modifyScope (id : ScopeId) (f : Scope → Scope) (nesting : ∀ s, (f s).nesting = s.nesting)
    (listing : ∀ s, (f s).listing = s.listing) : Marks fun t => t.modifyScope id f where
  held _ held := held.modifyScope id f nesting listing
  built _ _ built := built.modifyScope id nesting
  size t := t.modifyScope_size id f
  live t s := live_congr (t.modifyScope_size id f) (t.modifyScope_keeps Scope.nesting id f nesting) s
  identity _ _ := rfl

theorem ScopeTree.marks_modifyField (id : FieldId) (f : Field → Field)
    (identity : ∀ g, (f g).identity = g.identity) (count : ∀ g, (f g).refCount = g.refCount)
    (fixed : ∀ g : Field, g.Fixed → (f g).Fixed) : Marks fun t => t.modifyField id f where
  held _ held := held.modifyField id f fun g => Field.position_of_identity (identity g)
  built _ _ built := built.modifyField id identity count fixed
  size _ := rfl
  live _ _ := Iff.rfl
  identity t g := t.modifyField_keeps Field.identity id f identity g

/-- The scopes that are there when a chunk is parsed: none but the global one, or those of earlier chunks. -/
class Outset where
  scopes : ScopeTree
  linked : scopes.Linked

/-- A syntax tree and scopes in which every name is declared, and none is resolved but those of earlier chunks. -/
structure Declared [Outset] (tree : Tree) (scopes : ScopeTree) : Prop where
  held : scopes.Held
  built : Outset.scopes.BuiltOn scopes
  unnamed : scopes.Unnamed
  inside : ∀ id, ∀ x ∈ (tree.form id).ownScopes, x.index < scopes.scopes.size
  resolved : ∀ id f, (tree.form id).reference? = some f → f.index < Outset.scopes.fields.size

variable [Outset]

namespace ParseState

structure Sound (s : ParseState) : Prop extends Declared s.tree s.scopes where
  here : s.scopes.Live s.context.scope

/-- The state is sound, stands in `context` and has the scopes `known` in use. -/
structure Within (context : Context) (known : List ScopeId) (s : ParseState) : Prop where
  sound : s.Sound
  context_eq : s.context = context
  live : ∀ x ∈ known, s.scopes.Live x

variable {context : Context} {known : List ScopeId} {s : ParseState}

namespace Within

variable (within : s.Within context known)

include within

theorem congr {s' : ParseState} (tree : s'.tree = s.tree)
    (scopes : s'.scopes = s.scopes) (same : s'.context = s.context) : s'.Within context known := by
  obtain ⟨⟨⟨held, built, unnamed, inside, resolved⟩, here⟩, context_eq, live⟩ := within
  refine ⟨⟨⟨?_, ?_, ?_, ?_, ?_⟩, ?_⟩, same.trans context_eq, ?_⟩
  · exact scopes ▸ held
  · exact scopes ▸ built
  · exact scopes ▸ unnamed
  · rwa [tree, scopes]
  · exact tree ▸ resolved
  · rwa [scopes, same]
  · exact scopes ▸ live

theorem fewer {fewer : List ScopeId} (sub : ∀ x ∈ fewer, x ∈ known) : s.Within context fewer :=
  ⟨within.sound, within.context_eq, fun x member => within.live x (sub x member)⟩

theorem more (more : List ScopeId) (live : ∀ x ∈ more, s.scopes.Live x) : s.Within context (more ++ known) := by
  refine ⟨within.sound, within.context_eq, ?_⟩
  intro x member
  exact (List.mem_append.mp member).elim (live x) (within.live x)

theorem live_here : s.scopes.Live context.scope :=
  within.context_eq ▸ within.sound.here

/-- A rule may be run in another context whose scope is in use, and the old one restored behind it. -/
theorem moved (inner : Context)
    (live : s.scopes.Live inner.scope) : ({ s with context := inner } : ParseState).Within inner known :=
  ⟨⟨within.sound.toDeclared, live⟩, rfl, within.live⟩

/-- Another scope tree may take the place of the present one if it has the same scopes in use. -/
theorem rescoped {scopes : ScopeTree} (held : scopes.Held) (built : Outset.scopes.BuiltOn scopes)
    (unnamed : scopes.Unnamed) (grown : s.scopes.scopes.size ≤ scopes.scopes.size)
    (live : ∀ x ∈ context.scope :: known, s.scopes.Live x → scopes.Live x) :
    ({ s with scopes } : ParseState).Within context known := by
  obtain ⟨⟨⟨_, _, _, inside, resolved⟩, here⟩, context_eq, wasLive⟩ := within
  refine ⟨⟨⟨held, built, unnamed, ?_, resolved⟩, ?_⟩, context_eq, ?_⟩
  · intro id x member
    exact Nat.lt_of_lt_of_le (inside id x member) grown
  · exact live _ (by simp [context_eq]) here
  · intro x member
    exact live x (.tail _ member) (wasLive x member)

theorem marked {f : ScopeTree → ScopeTree}
    (marks : ScopeTree.Marks f) : ({ s with scopes := f s.scopes } : ParseState).Within context known := by
  refine within.rescoped (marks.held _ within.sound.held) ?_ ?_ ?_ ?_
  · exact marks.built _ _ within.sound.built
  · exact fun g => (congrArg (·.2.2.2) (marks.identity _ g)).trans (within.sound.unnamed g)
  · exact Nat.le_of_eq (marks.size _).symm
  · exact fun x _ => (marks.live _ x).mpr

/-- Another syntax tree may take the place of the present one if its nodes are old or placed well. -/
theorem replanted {tree : Tree} (nodes : ∀ id, (∃ old, tree.form id = s.tree.form old) ∨ (tree.form id).Placed known) :
    ({ s with tree } : ParseState).Within context known := by
  obtain ⟨⟨⟨held, built, unnamed, inside, resolved⟩, here⟩, context_eq, live⟩ := within
  refine ⟨⟨⟨held, built, unnamed, ?_, ?_⟩, here⟩, context_eq, live⟩
  · intro id x member
    rcases nodes id with ⟨old, same⟩ | placed
    · exact inside old x (same ▸ member)
    · exact (live x (placed.scopes x member)).1
  · intro id f reference
    rcases nodes id with ⟨old, same⟩ | placed
    · exact resolved old f (same ▸ reference)
    · rw [placed.unresolved] at reference
      cases reference

theorem allocated (placed : form.Placed known) (span : Span) :
    ({ s with tree := (s.tree.alloc form span).2 } : ParseState).Within context known := by
  refine within.replanted fun id => ?_
  rw [Tree.alloc_form]
  split
  · exact .inr placed
  · exact .inl ⟨id, rfl⟩

theorem pushed (kind : ScopeKind) {parent : ScopeId} (live : s.scopes.Live parent) :
    ({ s with scopes := (s.scopes.pushScope kind parent).2 } : ParseState).Within context
      (⟨s.scopes.scopes.size⟩ :: known) := by
  have uses := pushScope_live_iff kind parent none live.1
  have rescoped : ({ s with scopes := (s.scopes.pushScope kind parent).2 } : ParseState).Within context known := by
    refine within.rescoped (within.sound.held.pushScope kind parent none live) ?_ ?_ ?_ ?_
    · exact within.sound.built.pushScope kind live.1
    · exact within.sound.unnamed
    · rw [pushScope_size]
      exact Nat.le_succ _
    · exact fun x _ wasLive => (uses x).mpr (.inr wasLive)
  refine rescoped.more [_] fun x member => ?_
  rw [List.mem_singleton.mp member]
  exact (uses _).mpr (.inl rfl)

/-- A scope takes over scopes that were opened before it was known to be there. -/
theorem adopted {since : Nat} (recent : Outset.scopes.scopes.size ≤ since)
    (old new : ScopeId) (live : s.scopes.Live new) (link : (s.scopes.scope new).parent = some old) :
    ({ s with scopes := s.scopes.adoptScopes since old new } : ParseState).Within context known := by
  have held := within.sound.held
  refine within.rescoped (held.adoptScopes since old new live link) ?_ ?_ ?_ ?_
  · exact within.sound.built.adoptScopes held.nested recent live link
  · intro f
    rw [adoptScopes_field]
    exact within.sound.unnamed f
  · exact Nat.le_of_eq (adoptScopes_size ..).symm
  · exact fun x _ => (adoptScopes_live_iff since held.nested live link x).mpr

theorem created (live : s.scopes.Live scope) (name : String) (kind : FieldKind)
    (free : s.scopes.findLocal? scope name = none) :
    ({ s with scopes := (s.scopes.createField scope name kind).2 } : ParseState).Within context known := by
  refine within.rescoped (within.sound.held.createField scope name kind live free) ?_ ?_ ?_ ?_
  · exact within.sound.built.insertField rfl rfl rfl
  · intro f
    rw [ScopeTree.createField, insertField_field]
    split
    · rfl
    · exact within.sound.unnamed f
  · exact Nat.le_of_eq (insertField_scopes_size ..).symm
  · exact fun x _ => (insertField_live_iff _ x).mpr

theorem declared (live : s.scopes.Live scope) (name : String) (kind : FieldKind) (span : Span) :
    ({ s with scopes := (s.scopes.declare scope name kind span).2 } : ParseState).Within context known := by
  dsimp only [ScopeTree.declare]
  generalize (if scope == ScopeTree.global && kind == .localName then FieldKind.global else kind) = kind
  have counts (f : FieldId) :=
    marks_modifyField f (fun f => { f with declarations := f.declarations ++ [span] }) (fun _ => rfl)
      (fun _ => rfl) fun _ fixed => fixed
  cases found : s.scopes.findLocal? scope name with
  | some existing =>
    have redeclares := marks_modifyField existing (·.redeclared kind)
      (fun g => (Field.redeclared_same g kind).1) (fun g => (Field.redeclared_same g kind).2) fun _ fixed =>
      Field.redeclared_fixed fixed kind
    exact (within.marked redeclares).marked (counts existing)
  | none => exact (within.created live name kind found).marked (counts _)

end Within

/-- A scope that was opened for a rule is dropped behind it if it holds nothing, and else it stays. -/
theorem Within.closed (within : s.Within context (scope :: known))
    (fresh : scope ∉ context.scope :: known) (new : Outset.scopes.scopes.size ≤ scope.index) :
    ({ s with scopes := (s.scopes.collapseIfEmpty scope).2 } : ParseState).Within context
      ((if (s.scopes.collapseIfEmpty scope).1 then none else some scope).toList ++ known) := by
  rcases s.scopes.collapseIfEmpty_cases scope with kept | ⟨parent, link, empty, block, dropped⟩
  · rwa [kept]
  · rw [dropped]
    have live := within.live scope ((.head _) ..)
    have nested := within.sound.held.nested
    have fewer : s.Within context known := within.fewer fun x => List.mem_cons_of_mem _
    refine fewer.rescoped (within.sound.held.collapsed scope parent live link empty block) ?_ ?_ ?_ ?_
    · exact within.sound.built.collapsed Outset.linked.nested nested new live link
    · intro f
      rw [collapsed_field]
      exact within.sound.unnamed f
    · exact Nat.le_of_eq collapsed_size.symm
    · intro x member wasLive
      refine (collapsed_live_iff nested live link x).mpr ⟨?_, wasLive⟩
      rintro rfl
      exact fresh member

end ParseState

end Condense
