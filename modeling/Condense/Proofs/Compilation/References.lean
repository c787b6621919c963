import Mathlib.Data.Set.Card
import Condense.Compilation
import Condense.Proofs.Ownership.Resolved
import Condense.Proofs.Scoping.Resolved

/-!
Reference counts are exact.
-/

namespace Condense

open List

variable {id : NodeId} {c : Compilation} {t : Tree}

theorem Form.Written.unresolved {markers : Bool} {form : Form NodeId} (written : form.Written markers) :
    form.reference? = none := by
  cases form <;> first | rfl | exact written

namespace Tree

/-- A node reaches all that it holds, directly or not. -/
def Reaches (t : Tree) : NodeId → NodeId → Prop :=
  Relation.ReflTransGen fun holder child => child ∈ t.children holder

theorem Tied.reaches_iff (tied : t.Tied) {top : NodeId} : t.Reaches top id ↔ t.Below top id := by
  constructor
  · intro reaches
    induction reaches with
    | refl => exact .refl top
    | tail _ slot ih => exact .link ((tied.tidy _).linked _ slot) ih
  · intro below
    exact below.induct (motive := t.Reaches top) .refl fun x p link _ ih => ih.tail (tied.held x p link)

/-- The name at `id` was resolved to a field that leads to `f`. -/
def RefersTo (t : Tree) (scopes : ScopeTree) (id : NodeId) (f : FieldId) : Prop :=
  ∃ field ∈ (t.form id).reference?, scopes.LeadsTo field f

theorem index_lt_of_reference? {field : FieldId} (resolved : (t.form id).reference? = some field) : id.index < t.size :=
  index_lt_of_form fun empty => by cases empty ▸ resolved

theorem finite_refersTo (t : Tree) (scopes : ScopeTree) (f : FieldId) : {id | t.RefersTo scopes id f}.Finite := by
  have bounded : {id : NodeId | id.index < t.size}.Finite := by
    apply Set.Finite.of_finite_image (f := NodeId.index)
    · apply (Set.finite_lt_nat t.size).subset
      rintro _ ⟨id, inside, rfl⟩
      exact inside
    · rintro ⟨i⟩ _ ⟨j⟩ _ same
      exact congrArg NodeId.mk same
  apply bounded.subset
  rintro id ⟨field, resolved, -⟩
  exact index_lt_of_reference? resolved

end Tree

/-- Every name that was resolved is counted at the fields it leads to, and nothing else is counted. -/
def ScopeTree.Exact (scopes : ScopeTree) (tree : Tree) : Prop :=
  ∀ f, (scopes.field f).refCount = {id | tree.RefersTo scopes id f}.ncard

namespace ScopeTree.Exact

variable {scopes scopes' : ScopeTree} {tree tree' : Tree}

theorem new : ({} : ScopeTree).Exact {} := by
  intro f
  have none : {id | ({} : Tree).RefersTo {} id f} = ∅ := by
    ext id
    simp only [Set.mem_ofPred_eq, Set.mem_empty_iff_false, iff_false]
    rintro ⟨field, resolved, -⟩
    exact Nat.not_lt_zero _ (Tree.index_lt_of_reference? resolved)
  rw [none, Set.ncard_empty]
  simp [ScopeTree.field]

variable (exact' : scopes.Exact tree) (chained : scopes.Chained) (inside : tree.ResolvedIn scopes)
  (outer : ∀ f, f.index < scopes.fields.size → (scopes'.field f).outer = (scopes.field f).outer)

include exact' chained inside outer

omit exact' in
theorem refersTo_iff (f : FieldId) (same : (tree'.form id).reference? = (tree.form id).reference?) :
    tree'.RefersTo scopes' id f ↔ tree.RefersTo scopes id f := by
  unfold Tree.RefersTo
  rw [same]
  exact exists_congr fun field => and_congr_right fun resolved =>
    chained.leadsTo_congr outer (inside id field resolved)

theorem uncounted (refCount : ∀ f, (scopes'.field f).refCount = (scopes.field f).refCount)
    (same : ∀ id, (tree'.form id).reference? = (tree.form id).reference?) : scopes'.Exact tree' := by
  intro f
  have refers : {id | tree'.RefersTo scopes' id f} = {id | tree.RefersTo scopes id f} :=
    Set.ext fun id => refersTo_iff chained inside outer f (same id)
  rw [refCount, exact', refers]

/-- A name that gets its field while the reference is counted. -/
theorem resolved {inner : FieldId} (counts : scopes.Counts scopes' inner) {node : NodeId} {name : String}
    {how how' : ReferenceType} (form : tree.form node = .lookup name none how) :
    scopes'.Exact (tree.modifyForm node fun _ => .lookup name (some inner) how') := by
  have range : node.index < tree.size := Tree.index_lt_of_form (by simp [form])
  have reference (id : NodeId) : ((tree.modifyForm node fun _ => .lookup name (some inner) how').form id).reference? =
      if id = node then some inner else (tree.form id).reference? := by
    rw [Tree.modifyForm_form]
    by_cases here : id = node
    · simp [here, range, Form.reference?]
    · simp [here]
  have unresolved : (tree.form node).reference? = none := by
    rw [form]
    rfl
  generalize tree.modifyForm node _ = after at reference ⊢
  intro f
  -- Besides the name itself, the names that lead to the field are those that did so before.
  have refers (id : NodeId) : after.RefersTo scopes' id f ↔
      (id = node ∧ scopes'.LeadsTo inner f) ∨ tree.RefersTo scopes id f := by
    by_cases here : id = node
    · simp [Tree.RefersTo, reference, here, unresolved]
    · simp only [here, false_and, false_or]
      exact refersTo_iff chained inside outer f (by rw [reference, if_neg here])
  have absent : node ∉ {id | tree.RefersTo scopes id f} := by
    rintro ⟨field, resolved, -⟩
    rw [unresolved] at resolved
    cases resolved
  by_cases leads : scopes'.LeadsTo inner f
  · have more : {id | after.RefersTo scopes' id f} = insert node {id | tree.RefersTo scopes id f} := by
      ext id
      simp [refers, leads]
    rw [more, Set.ncard_insert_of_notMem absent (tree.finite_refersTo scopes f), counts.counted f leads, exact']
  · have same : {id | after.RefersTo scopes' id f} = {id | tree.RefersTo scopes id f} := by
      simp [refers, leads]
    rw [same, counts.passed f leads, exact']

end ScopeTree.Exact

def Form.isLookup : Form NodeId → Bool
  | .lookup .. => true
  | _ => false

namespace Tree

theorem scopedChildren_fst (scope : ScopeId) (form : Form NodeId) :
    (scopedChildren scope form).map Prod.fst = form.children := by
  unfold scopedChildren
  split
  · rfl
  · simp [Form.children, Function.comp_def]
  · simp [Function.comp_def]

/-- The names that are used below a node are all names below it, each of them once. -/
theorem usesUpTo_names (t : Tree) (depth : Nat) (id : NodeId) (scope : ScopeId) :
    (t.usesUpTo depth id scope).filterMap Use.node? = (t.preorder depth id).filter fun x => (t.form x).isLookup := by
  induction depth generalizing id scope with
  | zero => rfl
  | succ depth ih =>
    unfold usesUpTo preorder
    split
    · rename_i name field how form
      have leaf : t.children id = [] := by
        rw [children, form]
        rfl
      simp [form, leaf, Use.node?, Form.isLookup]
    · rename_i other
      have plain : (t.form id).isLookup = false := by
        unfold Form.isLookup
        split
        · rename_i name field how form
          exact absurd form (other name field how)
        · rfl
      have own (callee : NodeId) : (if t.isEval callee then [Use.evaluation scope] else []).filterMap Use.node? = [] := by
        split <;> rfl
      have below : ((scopedChildren scope (t.form id)).flatMap fun x => t.usesUpTo depth x.1 x.2).filterMap Use.node? =
          ((t.children id).flatMap (t.preorder depth)).filter fun x => (t.form x).isLookup := by
        rw [filterMap_flatMap, filter_flatMap, children, ← scopedChildren_fst scope, flatMap_map]
        simp only [ih]
      rw [filter_cons_of_neg (by simp [plain]), ← below, filterMap_append, append_left_eq_self]
      split
      · exact own _
      · rfl

end Tree

namespace Resolution

theorem step_form (r : Resolution) (use : Use) (other : some id ≠ use.node?) :
    (r.step use).tree.form id = r.tree.form id := by
  rcases r.step_tree use with same | ⟨node, here, name, old, how, field, how', form, changed⟩
  · rw [same]
  · rw [changed, Tree.modifyForm_form, if_neg]
    rintro ⟨rfl, -⟩
    exact other here.symm

theorem run_form (uses : List Use) (r : Resolution) (outside : id ∉ uses.filterMap Use.node?) :
    (uses.foldl step r).tree.form id = r.tree.form id := by
  induction uses generalizing r with
  | nil => rfl
  | cons use rest ih =>
    have apart : some id ≠ use.node? ∧ id ∉ rest.filterMap Use.node? := by
      cases is : use.node? <;> simpa [filterMap_cons, is] using outside
    rw [foldl_cons, ih _ apart.2, r.step_form use apart.1]

theorem exact_step {r : Resolution} (ready : r.Ready) (exact' : r.scopes.Exact r.tree) (use : Use)
    (inside : use.scope.index < r.scopes.scopes.size)
    (fresh : ∀ node ∈ use.node?, (r.tree.form node).isLookup ∧ (r.tree.form node).reference? = none) :
    (r.step use).scopes.Exact (r.step use).tree ∧
      ∀ node ∈ use.node?, ((r.step use).tree.form node).reference? ≠ none := by
  cases use with
  | evaluation scope =>
    have fields := r.scopes.exposeToEval_fields r.settings.evalTreatment scope
    have field (f : FieldId) : ((r.step (.evaluation scope)).scopes.field f) = r.scopes.field f := by
      simp only [step, ScopeTree.field, fields]
    refine ⟨exact'.uncounted ready.linked.toChained ready.resolved ?_ ?_ fun _ => rfl, by simp [Use.node?]⟩
    · exact fun f _ => by rw [field]
    · exact fun f => by rw [field]
  | name node scope =>
    obtain ⟨isName, unresolved⟩ := fresh node rfl
    cases form : r.tree.form node with
    | lookup name old how =>
      rw [form] at unresolved
      obtain rfl : old = none := unresolved
      obtain ⟨grows, inner, how', -, counts, tree⟩ := ready.resolveName scope inside form
      rw [Resolution.step_name, tree]
      have range : node.index < r.tree.size := Tree.index_lt_of_form (by simp [form])
      refine ⟨exact'.resolved ready.linked.toChained ready.resolved (fun _ => grows.extension.outer) counts form,
        fun x here => ?_⟩
      cases here
      simp [Tree.modifyForm_form, range, Form.reference?]
    | _ => simp [form, Form.isLookup] at isName

theorem exact_run {r : Resolution} (ready : r.Ready) (exact' : r.scopes.Exact r.tree) (uses : List Use)
    (inside : ∀ use ∈ uses, use.scope.index < r.scopes.scopes.size) (distinct : (uses.filterMap Use.node?).Nodup)
    (fresh : ∀ node ∈ uses.filterMap Use.node?,
      (r.tree.form node).isLookup ∧ (r.tree.form node).reference? = none) :
    (uses.foldl step r).scopes.Exact (uses.foldl step r).tree ∧
      ∀ node ∈ uses.filterMap Use.node?, ((uses.foldl step r).tree.form node).reference? ≠ none := by
  induction uses generalizing r with
  | nil => exact ⟨exact', by simp⟩
  | cons use rest ih =>
    have names : (use :: rest).filterMap Use.node? = use.node?.toList ++ rest.filterMap Use.node? := by
      cases is : use.node? <;> simp [is]
    simp only [names, mem_append, Option.mem_toList] at fresh ⊢
    obtain ⟨-, distinctRest, apart⟩ := nodup_append.1 (names ▸ distinct)
    obtain ⟨next, grows⟩ := ready.step use (inside use (.head _))
    have insideRest (other : Use) (member : other ∈ rest) : other.scope.index < (r.step use).scopes.scopes.size := by
      rw [grows.extension.size]
      exact inside other (.tail _ member)
    obtain ⟨exactNow, resolvedNow⟩ := exact_step ready exact' use (inside use (.head _))
      fun node is => fresh node (.inl is)
    obtain ⟨exactThen, resolvedThen⟩ := ih next exactNow insideRest distinctRest fun node member => by
      rw [r.step_form use fun same => apart node (Option.mem_toList.2 same.symm) node member rfl]
      exact fresh node (.inr member)
    refine ⟨exactThen, fun node member => ?_⟩
    by_cases again : node ∈ rest.filterMap Use.node?
    · exact resolvedThen node again
    · rw [foldl_cons, run_form rest _ again]
      exact resolvedNow node (member.resolve_right again)

end Resolution

/-- What hangs below an old node is the same after nodes were added. -/
theorem Tree.Extends.below_iff {base : Tree} (extension : base.Extends t) (tied : t.Tied) (ground : base.Tied)
    {top : NodeId} (old : top.index < base.size) : t.Below top id ↔ base.Below top id := by
  constructor
  · intro below
    apply below.induct (motive := base.Below top)
    · exact .refl top
    · intro x p link _ ih
      have slot := tied.held x p link
      rw [Tree.children, extension.form p (ih.index_lt old)] at slot
      exact .link ((ground.tidy p).linked x slot) ih
  · intro below
    apply below.induct (motive := t.Below top)
    · exact .refl top
    · intro x p link _ ih
      apply Below.link _ ih
      rw [extension.parent? x (base.index_lt_of_parent? link), link]

/-- The nodes of a compilation below its parts. Exactly those names are resolved that stand below a part that was
analyzed. -/
structure Tree.Divided (tree : Tree) (parts : List Part) : Prop where
  tied : tree.Tied
  tops : ∀ part ∈ parts, part.root.index < tree.size ∧ tree.parent? part.root = none
  distinct : (parts.map Part.root).Nodup
  only : ∀ id, (tree.form id).reference? ≠ none → ∃ part ∈ parts, part.isResolved = true ∧ tree.Below part.root id
  settled : ∀ part ∈ parts, part.isResolved = true → ∀ id, tree.Below part.root id → (tree.form id).isLookup = true →
    (tree.form id).reference? ≠ none

namespace Tree.Divided

variable {tree tree' : Tree} {before after : List Part} {part : Part}

section

variable (divided : tree.Divided (before ++ part :: after))

include divided

theorem rooted : tree.Rooted part.root := by
  obtain ⟨inside, top⟩ := divided.tops part (by simp)
  exact ⟨top, inside, fun id _ => divided.tied.tidy id⟩

/-- Nothing below a part that was not analyzed yet is resolved. -/
theorem unresolved (pending : part.isResolved = false)
    (below : tree.Below part.root id) : (tree.form id).reference? = none := by
  by_contra resolved
  obtain ⟨other, member, done, under⟩ := divided.only id resolved
  have same : other.root = part.root := by
    rcases under.linear below with above | above
    · exact (above.eq_of_top (divided.tops part (by simp)).2).symm
    · exact above.eq_of_top (divided.tops other member).2
  have only : other = part := inj_on_of_nodup_map divided.distinct member (by simp) same
  rw [only, pending] at done
  cases done

/-- The names below one more part are resolved. -/
theorem resolve (links : tree.SameLinks tree')
    (resolved : ∀ id, tree.Below part.root id → (tree'.form id).isLookup → (tree'.form id).reference? ≠ none)
    (kept : ∀ id, ¬ tree.Below part.root id → tree'.form id = tree.form id) :
    tree'.Divided (before ++ { part with isResolved := true } :: after) := by
  have below {top id : NodeId} : tree'.Below top id ↔ tree.Below top id := Tree.below_congr links.parent?
  have old (other : Part) (member : other ∈ before ++ { part with isResolved := true } :: after) :
      other = { part with isResolved := true } ∨ other ∈ before ++ part :: after := by
    grind
  refine ⟨divided.tied.congr links, ?_, ?_, ?_, ?_⟩
  · intro other member
    rw [links.size, links.parent?]
    rcases old other member with rfl | member
    · exact divided.tops part (by simp)
    · exact divided.tops other member
  · simpa using divided.distinct
  · intro id now
    by_cases here : tree.Below part.root id
    · exact ⟨{ part with isResolved := true }, by simp, rfl, below.2 here⟩
    · rw [kept id here] at now
      obtain ⟨other, member, done, under⟩ := divided.only id now
      have apart : other ≠ part := by
        rintro rfl
        exact here under
      exact ⟨other, by simp at member ⊢; grind, done, below.2 under⟩
  · intro other member done id under isName
    rw [below] at under
    by_cases here : tree.Below part.root id
    · exact resolved id here isName
    · rw [kept id here] at isName ⊢
      rcases old other member with rfl | member
      · exact absurd under here
      · exact divided.settled other member done id under isName

end

/-- Nodes are added, and a part for them that was not analyzed yet. -/
theorem add (divided : tree.Divided before) (tied : tree'.Tied) (extension : tree.Extends tree')
    (same : ∀ id, (tree'.form id).reference? = (tree.form id).reference?)
    (new : tree.size ≤ part.root.index ∧ part.root.index < tree'.size ∧ tree'.parent? part.root = none)
    (pending : part.isResolved = false) : tree'.Divided (before ++ [part]) := by
  have below (other : Part) (member : other ∈ before) {id : NodeId} :
      tree'.Below other.root id ↔ tree.Below other.root id :=
    extension.below_iff tied divided.tied (divided.tops other member).1
  refine ⟨tied, ?_, ?_, ?_, ?_⟩
  · intro other member
    rcases mem_append.1 member with member | member
    · obtain ⟨inside, top⟩ := divided.tops other member
      rw [extension.parent? _ inside]
      exact ⟨inside.trans_le extension.size, top⟩
    · rw [mem_singleton.1 member]
      exact new.2
  · rw [map_append, nodup_append]
    refine ⟨divided.distinct, nodup_singleton _, ?_⟩
    intro a old b last
    obtain ⟨other, member, rfl⟩ := mem_map.1 old
    have inside := (divided.tops other member).1
    intro clash
    rw [clash, mem_singleton.1 last] at inside
    omega
  · intro id now
    rw [same] at now
    obtain ⟨other, member, done, under⟩ := divided.only id now
    exact ⟨other, mem_append_left _ member, done, (below other member).2 under⟩
  · intro other member done id under isName
    rcases mem_append.1 member with member | member
    · have under := (below other member).1 under
      rw [extension.form id (under.index_lt (divided.tops other member).1)] at isName ⊢
      exact divided.settled other member done id under isName
    · rw [mem_singleton.1 member, pending] at done
      cases done

end Tree.Divided

namespace Compilation

inductive Call where
  | add (name source : String)
  | analyze

def perform (c : Compilation) : Call → Compilation
  | .add name source => (c.add name source).2
  | .analyze => c.analyze

/-- The names of the chunks that were resolved to a field that leads to `f`. -/
def referencesTo (c : Compilation) (f : FieldId) : Set NodeId :=
  {id | (∃ root ∈ c.roots, c.tree.Reaches root id) ∧ c.tree.RefersTo c.scopes id f}

structure Prepared (c : Compilation) : Prop where
  linked : c.scopes.Linked
  unnamed : c.scopes.Unnamed
  resolved : c.tree.ResolvedIn c.scopes
  inside : ∀ id, ∀ x ∈ (c.tree.form id).ownScopes, x.index < c.scopes.scopes.size

@[reducible] def Prepared.outset {c : Compilation} (prepared : c.Prepared) : Outset :=
  ⟨c.scopes, prepared.linked⟩

theorem Prepared.declared (prepared : c.Prepared) : @Declared prepared.outset c.tree c.scopes :=
  let _ := prepared.outset
  ⟨prepared.linked.toHeld, .refl _, prepared.unnamed, prepared.inside, prepared.resolved⟩

theorem Prepared.resolvePart (prepared : c.Prepared) (part : Part) : (c.resolvePart part).Prepared := by
  unfold Compilation.resolvePart
  split
  · exact ⟨prepared.linked, prepared.unnamed, prepared.resolved, prepared.inside⟩
  · let _ := prepared.outset
    have declared := prepared.declared
    obtain ⟨ready, grows⟩ := (declared.ready c.settings).run _ (declared.uses_inside part.root)
    refine ⟨ready.linked, ready.unnamed, ready.resolved, ?_⟩
    intro id x own
    rw [(resolveNames_agrees ..).view Form.ownScopes fun _ _ _ => rfl] at own
    exact grows.extension.size ▸ prepared.inside id x own

structure Counted (c : Compilation) : Prop where
  divided : c.tree.Divided c.parts.toList
  prepared : c.Prepared
  exact' : c.scopes.Exact c.tree

theorem counted_new (settings : Settings) : ({ settings } : Compilation).Counted where
  divided := by
    refine ⟨Tree.tied_of_empty rfl, by simp, by simp, ?_, by simp⟩
    intro id resolved
    obtain ⟨field, resolved⟩ := Option.ne_none_iff_exists'.1 resolved
    exact absurd (Tree.index_lt_of_reference? resolved) (Nat.not_lt_zero _)
  prepared := by
    let _ := Outset.new
    have declared := Declared.new
    exact ⟨ScopeTree.linked_new, declared.unnamed, declared.resolved, declared.inside⟩
  exact' := .new

theorem Counted.add (counted : c.Counted) (name source : String) : (c.add name source).2.Counted := by
  obtain ⟨divided, prepared, exact'⟩ := counted
  let _ := prepared.outset
  have writes : c.tree.Writes true _ := parseChunk_writes source name c.settings c.tree c.scopes true nofun
  have declared := parseChunk_declared source name c.settings prepared.declared
  obtain ⟨last, same, holding⟩ := parseChunk_holding source name c.settings c.scopes divided.tied
  unfold Compilation.add
  generalize parseChunk source name c.settings c.tree c.scopes = result at writes declared same holding
  obtain ⟨chunk, newTree, newScopes⟩ := result
  dsimp only at writes declared same holding ⊢
  have ready := declared.ready c.settings
  have extension : c.tree.Extends newTree := by
    rw [← same]
    exact ⟨holding.extension.size, holding.extension.form, holding.extension.parent?⟩
  have references (id : NodeId) : (newTree.form id).reference? = (c.tree.form id).reference? := by
    by_cases old : id.index < c.tree.size
    · rw [extension.form id old]
    · have outside := c.tree.form_eq_empty_of_size_le (not_lt.1 old)
      rcases writes id with kept | written
      · rw [kept]
      · rw [written.unresolved, outside]
        rfl
  refine ⟨?_, ⟨ready.linked, ready.unnamed, ready.resolved, declared.inside⟩, ?_⟩
  · rw [Array.toList_push]
    apply divided.add (same ▸ holding.tied) extension references
    · rw [← same]
      exact holding.free _ (.head _)
    · rfl
  · exact exact'.uncounted prepared.linked.toChained prepared.resolved
      (fun f old => congrArg (·.2.2) (declared.built.position f old)) declared.built.refCount references

theorem resolvePart_counted (c : Compilation) (part : Part) (rest : List Part)
    (divided : c.tree.Divided (c.parts.toList ++ part :: rest)) (prepared : c.Prepared)
    (exact' : c.scopes.Exact c.tree) :
    let c' := c.resolvePart part
    c'.parts.toList = c.parts.toList ++ [{ part with isResolved := true }] ∧
      c'.tree.Divided (c'.parts.toList ++ rest) ∧ c'.scopes.Exact c'.tree := by
  unfold resolvePart
  cases pending : part.isResolved with
  | true =>
    have same : { part with isResolved := true } = part := by
      rw [← pending]
    simp only [↓reduceIte, Array.toList_push, same, append_assoc, singleton_append]
    exact ⟨trivial, divided, exact'⟩
  | false =>
    have rooted := divided.rooted
    have links := (resolveNames_agrees c.settings c.tree c.scopes part.root).sameLinks
    have held (child id : NodeId) (_ : c.tree.Below part.root id) (link : c.tree.parent? child = some id) :=
      divided.tied.held child id link
    have names : (c.tree.uses part.root).filterMap Use.node? =
        (c.tree.descendants part.root).filter fun x => (c.tree.form x).isLookup :=
      rooted.descendants_eq ▸ c.tree.usesUpTo_names _ _ _
    have fresh (node : NodeId) (member : node ∈ (c.tree.uses part.root).filterMap Use.node?) :
        (c.tree.form node).isLookup ∧ (c.tree.form node).reference? = none := by
      rw [names, mem_filter] at member
      exact ⟨member.2, divided.unresolved pending (rooted.below_of_mem_descendants member.1)⟩
    have kept (id : NodeId) (outside : id ∉ (c.tree.uses part.root).filterMap Use.node?) :=
      Resolution.run_form _ { settings := c.settings, tree := c.tree, scopes := c.scopes } outside
    let _ := prepared.outset
    have declared := prepared.declared
    obtain ⟨exactThen, resolved⟩ := Resolution.exact_run (declared.ready c.settings) exact' (c.tree.uses part.root)
      (declared.uses_inside part.root) (names ▸ rooted.descendants_nodup.filter _) fresh
    simp only [Bool.false_eq_true, ↓reduceIte, Array.toList_push, append_assoc, singleton_append]
    refine ⟨trivial, divided.resolve links ?_ ?_, exactThen⟩
    · intro id below isName
      apply resolved
      by_contra outside
      have same := kept id outside
      rw [names, mem_filter] at outside
      apply outside
      exact ⟨rooted.mem_descendants held below, same ▸ isName⟩
    · intro id apart
      apply kept
      intro member
      rw [names, mem_filter] at member
      exact apart (rooted.below_of_mem_descendants member.1)

theorem foldl_resolvePart_counted (parts : List Part) (c : Compilation)
    (divided : c.tree.Divided (c.parts.toList ++ parts)) (prepared : c.Prepared) (exact' : c.scopes.Exact c.tree) :
    (parts.foldl resolvePart c).Counted ∧
      (parts.foldl resolvePart c).parts.toList =
        c.parts.toList ++ parts.map fun part => { part with isResolved := true } := by
  induction parts generalizing c with
  | nil =>
    rw [append_nil] at divided
    exact ⟨⟨divided, prepared, exact'⟩, by simp⟩
  | cons part rest ih =>
    obtain ⟨parts, divided, exact'⟩ := c.resolvePart_counted part rest divided prepared exact'
    obtain ⟨counted, all⟩ := ih (c.resolvePart part) divided (prepared.resolvePart part) exact'
    refine ⟨counted, ?_⟩
    rw [foldl_cons, all, parts]
    simp

theorem Counted.analyze (counted : c.Counted) :
    c.analyze.Counted ∧ ∀ part ∈ c.analyze.parts.toList, part.isResolved := by
  obtain ⟨linked, unnamed, resolved, inside⟩ := counted.prepared
  obtain ⟨next, all⟩ := foldl_resolvePart_counted c.parts.toList { c with parts := #[] } counted.divided
    ⟨linked, unnamed, resolved, inside⟩ counted.exact'
  unfold Compilation.analyze
  rw [← Array.foldl_toList]
  refine ⟨next, ?_⟩
  rw [all]
  intro part member
  obtain ⟨old, -, rfl⟩ := mem_map.1 member
  rfl

theorem counted_perform (settings : Settings) (calls : List Call) : (calls.foldl perform { settings }).Counted := by
  refine List.foldlRecOn _ _ (counted_new settings) fun c counted call _ => ?_
  cases call with
  | add name source => exact counted.add name source
  | analyze => exact counted.analyze.1

/-- However chunks were added and analyzed before, once all are analyzed each of their names has a field, and every
field has been counted once for each name that leads to it. -/
theorem refCount_eq_ncard (settings : Settings) (calls : List Call) :
    let c := (calls.foldl perform { settings }).analyze
    (∀ root ∈ c.roots, ∀ id, c.tree.Reaches root id → (c.tree.form id).isLookup = true →
        (c.tree.form id).reference? ≠ none) ∧
      ∀ f, (c.scopes.field f).refCount = (c.referencesTo f).ncard := by
  obtain ⟨counted, all⟩ := (counted_perform settings calls).analyze
  generalize (calls.foldl perform { settings }).analyze = c at counted all
  dsimp only
  have reaches {top id : NodeId} : c.tree.Reaches top id ↔ c.tree.Below top id := counted.divided.tied.reaches_iff
  constructor
  · intro root member id below isName
    obtain ⟨part, listed, rfl⟩ := List.mem_map.1 member
    exact counted.divided.settled part listed (all part listed) id (reaches.1 below) isName
  · intro f
    have same : c.referencesTo f = {id | c.tree.RefersTo c.scopes id f} := by
      ext id
      unfold referencesTo
      simp only [Set.mem_ofPred_eq, and_iff_right_iff_imp]
      rintro ⟨field, resolved, -⟩
      obtain ⟨part, member, -, below⟩ := counted.divided.only id (Option.ne_none_iff_exists'.2 ⟨field, resolved⟩)
      exact ⟨part.root, List.mem_map_of_mem member, reaches.2 below⟩
    rw [same]
    exact counted.exact' f

end Compilation

end Condense
