import Condense.Proofs.Scope.Linking

/-!
A reference leaves a shim in every scope between its own and the one of its target, each linked to the next, and is
counted at all of them.
-/

namespace Condense.ScopeTree

open List

variable {t t' : ScopeTree}
variable {s : ScopeId} {name : String} {into : ScopeId → Prop}

theorem Held.findLocal?_eq_none_iff (held : t.Held) :
    t.findLocal? s name = none ↔
      ∀ f, f.index < t.fields.size → (t.field f).scope = s → (t.field f).name ≠ name := by
  rw [held.indexed.findLocal?_eq_none_iff]
  refine forall_congr' fun f => ?_
  rw [held.owned s f, and_imp]

theorem Held.findLocal?_eq_some_iff (held : t.Held) {f : FieldId} :
    t.findLocal? s name = some f ↔
      f.index < t.fields.size ∧ (t.field f).scope = s ∧ (t.field f).name = name := by
  refine ⟨held.findLocal?_some, ?_⟩
  rintro ⟨range, rfl, rfl⟩
  exact held.findLocal?_of_field range

theorem Grows.free (grows : t.Grows t' into) (held : t.Held) (outside : ¬ into s) (free : t.findLocal? s name = none) :
    t'.findLocal? s name = none := by
  refine grows.linked.findLocal?_eq_none_iff.mpr fun f range here => ?_
  by_cases old : f.index < t.fields.size
  · rw [grows.extension.scope old] at here
    rw [grows.extension.name old]
    exact held.findLocal?_eq_none_iff.mp free f old here
  · exact absurd (here ▸ grows.added f (by omega) range) outside

theorem Grows.found (grows : t.Grows t' into) (held : t.Held) {f : FieldId} (found : t.findLocal? s name = some f) :
    t'.findLocal? s name = some f := by
  obtain ⟨range, rfl, rfl⟩ := held.findLocal?_some found
  exact grows.linked.findLocal?_eq_some_iff.mpr ⟨Nat.lt_of_lt_of_le range grows.extension.grown,
    grows.extension.scope range, grows.extension.name range⟩

theorem Grows.refl (linked : t.Linked) (into : ScopeId → Prop) : t.Grows t into :=
  ⟨linked, .refl t, fun _ old range => absurd range (Nat.not_lt.mpr old)⟩

theorem Grows.trans {t'' : ScopeTree} (first : t.Grows t' into) (second : t'.Grows t'' into) : t.Grows t'' into := by
  refine ⟨second.linked, first.extension.trans second.extension, fun f new range => ?_⟩
  by_cases old : f.index < t'.fields.size
  · rw [second.extension.scope old]
    exact first.added f new old
  · exact second.added f (by omega) range

theorem Grows.mono {into' : ScopeId → Prop} (grows : t.Grows t' into)
    (wider : ∀ s, into s → into' s) : t.Grows t' into' :=
  ⟨grows.linked, grows.extension, fun f new range => wider _ (grows.added f new range)⟩

theorem Held.findLocal?_insertField (held : t.Held) (new : Field) (inside : new.scope.index < t.scopes.size)
    (free : t.findLocal? new.scope new.name = none) :
    (t.insertField new).2.findLocal? new.scope new.name = some (t.insertField new).1 :=
  (held.listed.findLocal?_insertField new free inside _ _).trans (if_pos ⟨rfl, rfl⟩)

theorem Linked.createField (linked : t.Linked) (kind : FieldKind)
    (live : t.Live s) (free : t.findLocal? s name = none) :
    t.Grows (t.createField s name kind).2 (· = s) ∧
      (t.createField s name kind).2.findLocal? s name = some (t.createField s name kind).1 :=
  ⟨linked.grows_insertField { name, kind, scope := s } live.1 rfl (fun _ => live) free (by simp) (by simp),
    linked.findLocal?_insertField { name, kind, scope := s } live.1 free⟩

theorem Linked.shim (linked : t.Linked) {outer : FieldId} (inside : s.index < t.scopes.size)
    (range : outer.index < t.fields.size) (named : (t.field outer).name = name)
    (next : (t.scope s).parent = some (t.field outer).scope) (plain : (t.scope s).kind ≠ .withBody) :
    t.Grows (t.shim s name outer).2 (· = s) ∧
      (t.shim s name outer).2.findLocal? s name = some (t.shim s name outer).1 := by
  have nested := linked.nested
  cases free : t.findLocal? s name with
  | some existing =>
    simp only [ScopeTree.shim, free]
    exact ⟨.refl linked _, trivial⟩
  | none =>
    let new : Field :=
      { name, kind := (t.field outer).kind, scope := s, outer := some outer, canCrunch := false }
    have made : t.shim s name outer = t.insertField new := by simp only [ScopeTree.shim, free, new]
    have reaches : ∀ o ∈ new.outer, t.Reaches s name o := by
      intro o link
      obtain rfl : outer = o := Option.some.inj link
      refine ⟨range, named, ?_, ?_, fun _ => next⟩
      · rw [nested.ancestors_of_parent inside next]
        exact .tail _ (nested.self_mem_ancestors (nested.parent_inside _ _ next))
      · intro here
        rw [here] at next
        exact nested.not_own_parent next rfl
    rw [made]
    exact ⟨linked.grows_insertField new inside rfl (by simp [new]) free reaches fun inWith => absurd inWith plain,
      linked.findLocal?_insertField new inside free⟩

/-- The shims on a way outward, before references are counted. -/
def shims (t : ScopeTree) (name : String) (target : FieldId) (path : List ScopeId) : FieldId × ScopeTree :=
  path.foldr (fun x r => r.2.shim x name r.1) (target, t)

theorem shims_cons (t : ScopeTree) (name : String) (target : FieldId) (x : ScopeId) (rest : List ScopeId) :
    t.shims name target (x :: rest) = (t.shims name target rest).2.shim x name (t.shims name target rest).1 := rfl

/-- The shims that a reference leaves on its way, from the target inward. -/
theorem Linked.shims (linked : t.Linked) {target : FieldId}
    (range : target.index < t.fields.size) (named : (t.field target).name = name)
    (path : List ScopeId) (more : List ScopeId) (inside : s.index < t.scopes.size)
    (chain : t.ancestors s = path ++ (t.field target).scope :: more) (plain : ∀ x ∈ path, (t.scope x).kind ≠ .withBody) :
    t.Grows (t.shims name target path).2 (· ∈ path) ∧
      (t.shims name target path).2.findLocal? s name = some (t.shims name target path).1 := by
  have nested := linked.nested
  induction path generalizing s with
  | nil =>
    rw [nested.ancestors_eq_cons inside, nil_append] at chain
    obtain ⟨rfl, -⟩ := List.cons.inj chain
    refine ⟨.refl linked _, linked.findLocal?_eq_some_iff.mpr ⟨range, rfl, named⟩⟩
  | cons x rest ih =>
    obtain ⟨rfl, p, link, tail⟩ := nested.ancestors_tail inside chain
    obtain ⟨grows, found⟩ := ih (nested.parent_inside _ _ link) tail fun y member => plain y (.tail _ member)
    rw [shims_cons]
    generalize t.shims name target rest = r at grows found
    obtain ⟨rangeR, scopeR, nameR⟩ := grows.linked.findLocal?_some found
    have insideR : s.index < r.2.scopes.size := grows.extension.size ▸ inside
    have nextR : (r.2.scope s).parent = some (r.2.field r.1).scope := by
      rw [parent_congr grows.extension.nesting, scopeR, link]
    have plainR : (r.2.scope s).kind ≠ .withBody := by
      rw [kind_congr grows.extension.nesting]
      exact plain s (.head _)
    obtain ⟨more, inner⟩ := grows.linked.shim insideR rangeR nameR nextR plainR
    refine ⟨(grows.mono fun _ => mem_cons_of_mem _).trans (more.mono ?_), inner⟩
    rintro _ rfl
    exact .head _

/-- A field leads to another one by any number of links. -/
def LeadsTo (t : ScopeTree) : FieldId → FieldId → Prop :=
  Relation.ReflTransGen fun f o => (t.field f).outer = some o

/-- Where a field leads to depends on old fields only. -/
theorem Chained.leadsTo_congr (chained : t.Chained) {f g : FieldId}
    (outer : ∀ f, f.index < t.fields.size → (t'.field f).outer = (t.field f).outer)
    (range : f.index < t.fields.size) : t'.LeadsTo f g ↔ t.LeadsTo f g := by
  have inside := chained.descends.inside
  constructor
  · intro leads
    induction leads using Relation.ReflTransGen.head_induction_on with
    | refl => exact .refl
    | @head f o link _ ih =>
      rw [outer f range] at link
      exact .head link (ih (inside f o range link))
  · intro leads
    induction leads using Relation.ReflTransGen.head_induction_on with
    | refl => exact .refl
    | @head f o link _ ih => exact .head ((outer f range).trans link) (ih (inside f o range link))

/-- One reference was counted on its way outward from `inner`. -/
structure Counts (t t' : ScopeTree) (inner : FieldId) : Prop where
  counted : ∀ f, t'.LeadsTo inner f → (t'.field f).refCount = (t.field f).refCount + 1
  passed : ∀ f, ¬ t'.LeadsTo inner f → (t'.field f).refCount = (t.field f).refCount

theorem shims_refCount (t : ScopeTree) (name : String) (target : FieldId) (path : List ScopeId) (f : FieldId) :
    ((t.shims name target path).2.field f).refCount = (t.field f).refCount := by
  induction path with
  | nil => rfl
  | cons x rest ih =>
    rw [shims_cons, ← ih]
    unfold shim
    split
    · rfl
    · exact insertField_refCount _ _ rfl f

def counted (t : ScopeTree) (ids : List FieldId) : ScopeTree :=
  ids.foldl (fun t id => t.modifyField id fun f => { f with refCount := f.refCount + 1 }) t

theorem reference_eq (t : ScopeTree) (scope : ScopeId) (target : FieldId) : t.reference scope target =
    let r := t.shims (t.field target).name target ((t.ancestors scope).takeWhile (· != (t.field target).scope))
    (r.1, r.2.counted (r.2.outerChain r.1)) := by
  simp only [reference, foldl_reverse]
  rfl

theorem takeWhile_ne {path more : List ScopeId} {d : ScopeId} (absent : d ∉ path) :
    (path ++ d :: more).takeWhile (· != d) = path := by
  rw [takeWhile_append_of_pos fun x member => bne_iff_ne.mpr (ne_of_mem_of_not_mem member absent)]
  simp

theorem count_refCount (t : ScopeTree) {ids : List FieldId} (distinct : ids.Nodup)
    (inside : ∀ id ∈ ids, id.index < t.fields.size) (f : FieldId) :
    ((t.counted ids).field f).refCount = (t.field f).refCount + if f ∈ ids then 1 else 0 := by
  induction ids generalizing t with
  | nil => rfl
  | cons id rest ih =>
    obtain ⟨absent, distinct⟩ := nodup_cons.1 distinct
    rw [counted, foldl_cons, ← counted, ih _ distinct fun x member => ?_, modifyField_field]
    · by_cases here : f = id
      · subst here
        simp [inside f (.head _), absent]
      · simp [here]
    · rw [modifyField_size]
      exact inside x (.tail _ member)

theorem Linked.counted (linked : t.Linked) (ids : List FieldId) : t.Grows (t.counted ids) fun _ => False := by
  induction ids generalizing t with
  | nil => exact .refl linked _
  | cons id rest ih =>
    have first := linked.marked id (fun f => { f with refCount := f.refCount + 1 }) (fun _ => rfl)
      fun _ fixed => fixed
    exact first.trans (ih first.linked)

/-- A reference to a field that is the first of its name on the way outward. It is counted at every field on its way
there. -/
theorem Linked.reference (linked : t.Linked) {target : FieldId}
    (range : target.index < t.fields.size) {scope : ScopeId} (inside : scope.index < t.scopes.size)
    {path more : List ScopeId} (chain : t.ancestors scope = path ++ (t.field target).scope :: more)
    (plain : ∀ x ∈ path, (t.scope x).kind ≠ .withBody) :
    t.Grows (t.reference scope target).2 (· ∈ path) ∧
      (t.reference scope target).2.findLocal? scope (t.field target).name = some (t.reference scope target).1 ∧
      t.Counts (t.reference scope target).2 (t.reference scope target).1 := by
  obtain ⟨grows, found⟩ := linked.shims range rfl path more inside chain plain
  have uncounted := t.shims_refCount (t.field target).name target path
  rw [reference_eq, chain, takeWhile_ne (linked.nested.not_mem_path inside chain)]
  generalize t.shims (t.field target).name target path = r at grows found uncounted ⊢
  have counts := grows.linked.counted (r.2.outerChain r.1)
  have start := (grows.linked.findLocal?_some found).1
  have descends := grows.linked.descends
  have chain (f : FieldId) : f ∈ r.2.outerChain r.1 ↔ r.2.LeadsTo r.1 f := by
    rw [outerChain_eq_walk]
    exact descends.mem_walk_iff (Nat.le_succ _) start
  have distinct : (r.2.outerChain r.1).Nodup := by
    rw [outerChain_eq_walk]
    exact descends.walk_nodup _ _ start
  have counted := r.2.count_refCount distinct fun f member => descends.leads_inside start ((chain f).1 member)
  have leads (f : FieldId) := grows.linked.leadsTo_congr (g := f) (fun _ => counts.extension.outer) start
  refine ⟨grows.trans (counts.mono fun _ => False.elim), counts.found grows.linked.toHeld found, fun f on => ?_,
    fun f off => ?_⟩
  · rw [counted, if_pos ((chain f).2 ((leads f).1 on)), uncounted]
  · rw [counted, if_neg fun member => off ((leads f).2 ((chain f).1 member)), uncounted, Nat.add_zero]

end Condense.ScopeTree
