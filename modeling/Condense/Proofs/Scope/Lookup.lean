import Condense.Proofs.Scope.Reference

/-!
Names are looked up outward.
-/

namespace Condense.ScopeTree

open List

variable {t t' : ScopeTree} {s : ScopeId} {n : String} {f o : FieldId}

/-- A declaration marks the field of its name, and where there is none it adds one. -/
theorem declare_cases (t : ScopeTree) (s : ScopeId) (n : String) (kind : FieldKind) (span : Span) :
    t.Alike (t.declare s n kind span).2 ∨ ∃ new : Field, new.scope = s ∧ new.name = n ∧ new.outer = none ∧
      t.findLocal? s n = none ∧ (t.insertField new).2.Alike (t.declare s n kind span).2 := by
  dsimp only [declare]
  generalize (if s == global && kind == .localName then FieldKind.global else kind) = kind
  cases found : t.findLocal? s n with
  | some existing =>
    exact .inl ((t.alike_modifyField existing (·.redeclared kind) fun f =>
      Field.position_of_identity (f.redeclared_same kind).1).trans (alike_modifyField _ _ _ fun _ => rfl))
  | none => exact .inr ⟨{ name := n, kind, scope := s }, rfl, rfl, rfl, rfl, alike_modifyField _ _ _ fun _ => rfl⟩

theorem counted_alike (t : ScopeTree) (ids : List FieldId) : t.Alike (t.counted ids) := by
  induction ids generalizing t with
  | nil => exact ⟨rfl, rfl, fun _ => rfl⟩
  | cons id rest ih =>
    exact (t.alike_modifyField id (fun f => { f with refCount := f.refCount + 1 }) fun _ => rfl).trans (ih _)

namespace Listed

variable (listed : t.Listed)

include listed

theorem alike (alike : t.Alike t') : t'.Listed := by
  refine ⟨?_, ?_, listed.indexed.alike alike⟩
  · simpa only [alike.scope, alike.size, alike.home] using listed.own
  · simpa only [alike.scope, alike.name] using listed.distinct

/-- Fields stay listed when scopes are rearranged around them. -/
theorem rearranged (fields : t'.fields = t.fields) (listing : ∀ s, (t'.scope s).listing = (t.scope s).listing) :
    t'.Listed := by
  have same := field_congr fields
  have lists (s : ScopeId) : (t'.scope s).fields = (t.scope s).fields := congrArg (·.1) (listing s)
  refine ⟨?_, ?_, listed.indexed.rearranged fields listing⟩
  · simpa only [lists, same, fields] using listed.own
  · simpa only [lists, same] using listed.distinct

theorem shims (n : String) (target : FieldId) (path : List ScopeId) : (t.shims n target path).2.Listed := by
  induction path with
  | nil => exact listed
  | cons x rest ih =>
    rw [shims_cons]
    unfold shim
    split
    · exact ih
    · rename_i free
      exact ih.insertField _ free

end Listed

/-- A call that builds up scopes and names. -/
inductive Names (t : ScopeTree) : ScopeTree → Prop
  | push (kind : ScopeKind) (owner : Option NodeId) {parent : ScopeId} :
    parent.index < t.scopes.size → Names t (t.pushScope kind parent owner).2
  | collapse (id : ScopeId) : Names t (t.collapseIfEmpty id).2
  | declare (s : ScopeId) (n : String) (kind : FieldKind) (span : Span) : Names t (t.declare s n kind span).2
  | reference (s : ScopeId) (target : FieldId) : Names t (t.reference s target).2

theorem Listed.step (listed : t.Listed) (step : t.Names t') : t'.Listed := by
  cases step with
  | push kind owner inside => exact listed.rearranged rfl (pushScope_listing kind owner inside)
  | collapse id =>
    rcases t.collapseIfEmpty_cases id with same | ⟨p, -, -, -, same⟩
    · rwa [same]
    · rw [same]
      exact listed.rearranged collapsed_fields (collapsed_listing id p)
  | declare s n kind span =>
    rcases t.declare_cases s n kind span with alike | ⟨new, rfl, rfl, -, free, alike⟩
    · exact listed.alike alike
    · exact (listed.insertField new free).alike alike
  | reference s target =>
    rw [reference_eq]
    exact (listed.shims _ target _).alike (counted_alike _ _)

theorem listed_of_names (reached : Relation.ReflTransGen Names {} t) : t.Listed := by
  induction reached with
  | refl => exact held_new.listed
  | tail _ step ih => exact ih.step step

/-- Of all fields of a name the first is taken, unless the name was seen before. -/
theorem filter_seen {step : List String × List FieldId → FieldId → List String × List FieldId}
    (named : FieldId → String) (n : String) (step_eq : ∀ seen out id, step (seen, out) id =
      if seen.contains (named id) then (seen, out) else (named id :: seen, id :: out))
    (all : List FieldId) (seen : List String) (out : List FieldId) :
    (all.foldl step (seen, out)).2.reverse.filter (named · == n) =
      out.reverse.filter (named · == n) ++ if n ∈ seen then [] else (all.find? (named · == n)).toList := by
  induction all generalizing seen out with
  | nil => simp
  | cons id rest ih =>
    simp only [foldl_cons, step_eq, contains_eq_mem, decide_eq_true_eq]
    by_cases here : named id = n
    · subst here
      split <;> simp [*]
    · split <;> simp [ih, here, Ne.symm here]

/-- Among the fields visible from a scope, those of a name are the one that the name resolves to there, if any. -/
theorem visibleFields_named (reached : Relation.ReflTransGen Names {} t) (s : ScopeId) (n : String) :
    (t.visibleFields s).filter (fun f => (t.field f).name == n) = ((t.resolve? s n).map (·.2)).toList := by
  have listed := listed_of_names reached
  have first (x : ScopeId) : (t.scope x).fields.toList.find? (fun f => (t.field f).name == n) = t.findLocal? x n := by
    cases found : (t.scope x).fields.toList.find? (fun f => (t.field f).name == n) with
    | none => exact (listed.indexed.findLocal?_eq_none_iff.mpr (by simpa using found)).symm
    | some f =>
      refine (listed.findLocal?_eq_some_iff.mpr ⟨?_, ?_⟩).symm
      · simpa using mem_of_find?_eq_some found
      · simpa using find?_some found
  refine (filter_seen (fun f => (t.field f).name) n (fun _ _ _ => rfl) _ [] []).trans ?_
  simp only [reverse_nil, filter_nil, nil_append, not_mem_nil, if_false, find?_flatMap, first, resolve?, map_findSome?]
  congr 2
  funext x
  simp [Function.comp_def]

/-- A name of the global scope is seen from a function through a shim. -/
theorem visibleFields_named_inner :
    let inner := (({} : ScopeTree).declare global "x" .localName {}).2.pushScope .function global
    let t := (inner.2.reference inner.1 ⟨0⟩).2
    t.visibleFields inner.1 = [⟨1⟩] ∧
      (t.visibleFields inner.1).filter (fun f => (t.field f).name == "x") =
        ((t.resolve? inner.1 "x").map (·.2)).toList := by
  intro inner t
  refine ⟨by decide, visibleFields_named (.tail (.tail (.single (.declare _ _ _ _)) (.push _ _ ?_)) (.reference _ _)) _ _⟩
  decide

/-- All scopes are in use, and links lead to the field of the same name in the scope around. -/
structure Shimmed (t : ScopeTree) : Prop extends t.Nested, t.Listed where
  live : ∀ s, (t.scope s).isDetached = false
  linked : ∀ f o, (t.field f).outer = some o → o.index < f.index ∧
    ∃ p, (t.scope (t.field f).scope).parent = some p ∧ t.findLocal? p (t.field f).name = some o

/-- What a name stands for in a scope: the field at the end of the links from the one it resolves to. -/
def meant? (t : ScopeTree) (s : ScopeId) (n : String) : Option FieldId :=
  (t.resolve? s n).map fun r => t.outermost r.2

/-- The field that a scope holds under a name, unless it is a shim. -/
def declared? (t : ScopeTree) (s : ScopeId) (n : String) : Option FieldId :=
  (t.findLocal? s n).filter fun f => (t.field f).outer.isNone

namespace Shimmed

variable (shimmed : t.Shimmed)

include shimmed

theorem meant?_of_some (inside : s.index < t.scopes.size) (found : t.findLocal? s n = some f) :
    t.meant? s n = some (t.outermost f) := by
  simp [meant?, resolve?, shimmed.ancestors_eq_cons inside, found]

/-- Shims are looked through: a name stands for the first field outward that is none. -/
theorem meant?_eq (inside : s.index < t.scopes.size) : t.meant? s n = (t.ancestors s).findSome? (t.declared? · n) := by
  have step (s : ScopeId) (range : s.index < t.scopes.size) (outward : ∀ p, (t.scope s).parent = some p →
      t.meant? p n = (t.ancestors p).findSome? (t.declared? · n)) :
      t.meant? s n = (t.ancestors s).findSome? (t.declared? · n) := by
    cases found : t.findLocal? s n with
    | some f =>
      obtain ⟨member, rfl⟩ := shimmed.indexed.findLocal?_some found
      obtain ⟨old, rfl⟩ := shimmed.own s f member
      rw [shimmed.meant?_of_some range found]
      cases link : (t.field f).outer with
      | none =>
        rw [t.outermost_of_none link]
        simp [shimmed.ancestors_eq_cons range, declared?, found, Option.filter, link]
      | some o =>
        obtain ⟨-, p, above, there⟩ := shimmed.linked f o link
        have descends : Descends (fun f => (t.field f).outer) FieldId.index t.fields.size :=
          ⟨fun ⟨_⟩ ⟨_⟩ same => congrArg FieldId.mk same, fun f o range link => Nat.lt_trans (shimmed.linked f o link).1 range,
            FieldId.index, fun f o _ link => (shimmed.linked f o link).1⟩
        have further := outward p above
        rw [shimmed.meant?_of_some (shimmed.parent_inside _ p above) there] at further
        rw [outermost_of_some descends old link, further, shimmed.ancestors_of_parent range above]
        simp [declared?, found, link]
    | none =>
      have none : t.declared? s n = none := by simp [declared?, found]
      cases above : (t.scope s).parent with
      | none => simp [meant?, resolve?, shimmed.ancestors_eq_cons range, above, found, none]
      | some p =>
        rw [shimmed.ancestors_of_parent range above, findSome?_cons, none, ← outward p above]
        simp [meant?, resolve?, shimmed.ancestors_of_parent range above, found]
  refine shimmed.outward_induction (motive := fun s => t.meant? s n = (t.ancestors s).findSome? (t.declared? · n))
    (step _ shimmed.rooted.1.1 ?_) (fun s p range link above => step s range ?_) inside
  · simp [shimmed.rooted.2]
  · rintro q same
    exact Option.some.inj (link.symm.trans same) ▸ above

theorem insertField (new : Field) (inside : new.scope.index < t.scopes.size)
    (free : t.findLocal? new.scope new.name = none)
    (reaches : ∀ o, new.outer = some o → ∃ p, (t.scope new.scope).parent = some p ∧ t.findLocal? p new.name = some o) :
    (t.insertField new).2.Shimmed := by
  have found := shimmed.findLocal?_insertField new free inside
  have nesting := insertField_nesting (t := t) new
  refine ⟨shimmed.congr (t.insertField_scopes_size new) nesting, shimmed.toListed.insertField new free,
    fun s => (isDetached_congr nesting s).trans (shimmed.live s), fun f o link => ?_⟩
  simp only [insertField_field, parent_congr nesting, found] at link ⊢
  split at link
  · rename_i last
    obtain ⟨p, above, there⟩ := reaches o link
    rw [if_pos last, last]
    refine ⟨(shimmed.own p o (shimmed.indexed.findLocal?_some there).1).1, p, above, ?_⟩
    rw [if_neg fun here => shimmed.not_own_parent above here.1, there]
  · rename_i old
    obtain ⟨older, p, above, there⟩ := shimmed.linked f o link
    rw [if_neg old]
    refine ⟨older, p, above, ?_⟩
    rw [if_neg, there]
    rintro ⟨rfl, same⟩
    rw [same, free] at there
    cases there

theorem alike (alike : t.Alike t') : t'.Shimmed := by
  refine ⟨shimmed.congr (congrArg _ alike.scopes) fun s => congrArg _ (alike.scope s), shimmed.toListed.alike alike, ?_, ?_⟩
  · simpa only [alike.scope] using shimmed.live
  · simpa only [alike.outer, alike.scope, alike.home, alike.findLocal?, alike.name] using shimmed.linked

end Shimmed

/-- Shims were added: scopes hold what they did otherwise. -/
structure Clear (t t' : ScopeTree) : Prop where
  shimmed : t'.Shimmed
  size : t'.scopes.size = t.scopes.size
  nesting : ∀ s, (t'.scope s).nesting = (t.scope s).nesting
  declared? : ∀ s n, t'.declared? s n = t.declared? s n

theorem Clear.alike {t'' : ScopeTree} (clear : t.Clear t') (alike : t'.Alike t'') : t.Clear t'' := by
  refine ⟨clear.shimmed.alike alike, ?_, fun s => ?_, fun s n => ?_⟩
  · rw [alike.scopes, clear.size]
  · rw [alike.scope, clear.nesting]
  · rw [← clear.declared? s n]
    simp only [ScopeTree.declared?, alike.findLocal?, alike.outer]

theorem Clear.shim (clear : t.Clear t') {p : ScopeId} (inside : s.index < t.scopes.size)
    (above : (t.scope s).parent = some p) (found : t'.findLocal? p n = some o) :
    t.Clear (t'.shim s n o).2 ∧ (t'.shim s n o).2.findLocal? s n = some (t'.shim s n o).1 := by
  obtain ⟨shimmed, size, nesting, declared⟩ := clear
  unfold ScopeTree.shim
  split
  · rename_i existing here
    exact ⟨⟨shimmed, size, nesting, declared⟩, here⟩
  · rename_i free
    let new : Field := { name := n, kind := (t'.field o).kind, scope := s, outer := some o, canCrunch := false }
    have inside : new.scope.index < t'.scopes.size := size ▸ inside
    have founds := shimmed.findLocal?_insertField new free inside
    refine ⟨⟨shimmed.insertField new inside free ?_, ?_, fun x => ?_, fun x m => ?_⟩, (founds _ _).trans (if_pos ⟨rfl, rfl⟩)⟩
    · rintro _ ⟨⟩
      exact ⟨p, (parent_congr nesting s).trans above, found⟩
    · rw [insertField_scopes_size, size]
    · rw [insertField_nesting, nesting]
    · rw [← declared, ScopeTree.declared?, ScopeTree.declared?, founds]
      split
      · rename_i here
        obtain ⟨rfl, rfl⟩ := here
        simp [free, insertField_last]
      · cases there : t'.findLocal? x m with
        | none => rfl
        | some f => simp only [Option.filter, shimmed.insertField_old _ (shimmed.indexed.findLocal?_some there).1]

theorem Shimmed.shims (shimmed : t.Shimmed) {d : ScopeId} (found : t.findLocal? d n = some f) (path more : List ScopeId)
    (chain : t.ancestors s = path ++ d :: more) (inside : s.index < t.scopes.size) :
    t.Clear (t.shims n f path).2 ∧ (t.shims n f path).2.findLocal? s n = some (t.shims n f path).1 := by
  induction path generalizing s with
  | nil =>
    rw [shimmed.ancestors_eq_cons inside, nil_append] at chain
    obtain ⟨rfl, -⟩ := List.cons.inj chain
    exact ⟨⟨shimmed, rfl, fun _ => rfl, fun _ _ => rfl⟩, found⟩
  | cons x rest ih =>
    obtain ⟨rfl, p, link, tail⟩ := shimmed.ancestors_tail inside chain
    obtain ⟨clear, found⟩ := ih tail (shimmed.parent_inside s p link)
    exact clear.shim inside link found

theorem Shimmed.reference (shimmed : t.Shimmed) {d : ScopeId} (resolved : t.resolve? s n = some (d, f))
    (inside : s.index < t.scopes.size) :
    t.Clear (t.reference s f).2 ∧ (t.reference s f).2.findLocal? s n = some (t.reference s f).1 := by
  obtain ⟨x, above, found⟩ := exists_of_findSome?_eq_some resolved
  simp only [Option.map_eq_some_iff, Prod.mk.injEq] at found
  obtain ⟨f, found, rfl, rfl⟩ := found
  obtain ⟨member, rfl⟩ := shimmed.indexed.findLocal?_some found
  obtain ⟨path, more, chain, absent⟩ := eq_append_cons_of_mem above
  obtain ⟨clear, here⟩ := shimmed.shims found path more chain inside
  rw [reference_eq, (shimmed.own x f member).2, chain, takeWhile_ne absent]
  have alike := counted_alike (t.shims (t.field f).name f path).2
  exact ⟨clear.alike (alike _), ((alike _).findLocal? _ _).trans here⟩

/-- A call that opens a scope, declares a name or refers to the field that a name resolves to. -/
inductive Uses (t : ScopeTree) : ScopeTree → Prop
  | push (kind : ScopeKind) (owner : Option NodeId) {parent : ScopeId} :
    parent.index < t.scopes.size → Uses t (t.pushScope kind parent owner).2
  | declare {s : ScopeId} (n : String) (kind : FieldKind) (span : Span) :
    s.index < t.scopes.size → Uses t (t.declare s n kind span).2
  | reference {s d : ScopeId} {n : String} {f : FieldId} :
    s.index < t.scopes.size → t.resolve? s n = some (d, f) → Uses t (t.reference s f).2

theorem Shimmed.step (shimmed : t.Shimmed) (step : t.Uses t') : t'.Shimmed := by
  cases step with
  | @push kind owner parent inside =>
    have parents := pushScope_parent kind parent owner inside
    refine ⟨shimmed.pushScope kind parent owner ⟨inside, shimmed.live parent⟩,
      shimmed.toListed.rearranged rfl (pushScope_listing kind owner inside), fun s => ?_, fun f o link => ?_⟩
    · rw [pushScope_isDetached kind parent owner inside, shimmed.live, ite_self]
    · obtain ⟨older, p, above, found⟩ := shimmed.linked f o link
      refine ⟨older, p, ?_, ?_⟩
      · rw [pushScope_field, parents, if_neg fun new => ?_]
        · exact above
        · rw [t.scope_outside (t.field f).scope (Nat.le_of_eq new.symm)] at above
          cases above
      · rwa [findLocal?_congr (pushScope_listing kind owner inside _), pushScope_field]
  | @declare s n kind span inside =>
    rcases t.declare_cases s n kind span with alike | ⟨new, rfl, rfl, alone, free, alike⟩
    · exact shimmed.alike alike
    · exact (shimmed.insertField new inside free (by simp [alone])).alike alike
  | reference inside resolved => exact (shimmed.reference resolved inside).1.shimmed

theorem shimmed_of_uses (reached : Relation.ReflTransGen Uses {} t) : t.Shimmed := by
  induction reached with
  | refl =>
    refine ⟨nested_new, held_new.listed, fun s => ?_, fun f o link => ?_⟩
    · obtain ⟨_ | i⟩ := s <;> rfl
    · rw [field_outside _ f (Nat.zero_le _)] at link
      cases link
  | tail _ step ih => exact ih.step step

/-- Shims cannot be seen through names. Each is linked to the field of its name in the scope around its own, and a
reference leaves what every name stands for in every scope, while its own scope holds the name from then on. -/
theorem reference_keeps_meaning (reached : Relation.ReflTransGen Uses {} t) :
    (∀ f o, (t.field f).outer = some o → (t.field o).name = (t.field f).name ∧
      ∃ p, (t.scope (t.field f).scope).parent = some p ∧ (t.field o).scope = p ∧
        t.findLocal? p (t.field f).name = some o) ∧
    ∀ s n d f, s.index < t.scopes.size → t.resolve? s n = some (d, f) →
      (t.reference s f).2.findLocal? s n = some (t.reference s f).1 ∧
      ∀ x m, x.index < t.scopes.size → (t.reference s f).2.meant? x m = t.meant? x m := by
  have shimmed := shimmed_of_uses reached
  refine ⟨fun f o link => ?_, fun s n d f inside resolved => ?_⟩
  · obtain ⟨-, p, above, found⟩ := shimmed.linked f o link
    obtain ⟨member, named⟩ := shimmed.indexed.findLocal?_some found
    exact ⟨named, p, above, (shimmed.own p o member).2, found⟩
  · obtain ⟨clear, found⟩ := shimmed.reference resolved inside
    refine ⟨found, fun x m range => ?_⟩
    rw [clear.shimmed.meant?_eq (clear.size ▸ range), shimmed.meant?_eq range, ancestors_congr clear.size clear.nesting]
    simp only [clear.declared?]

/-- A function refers to a name of the global scope. -/
theorem reference_keeps_meaning_inner :
    let t := ((({} : ScopeTree).declare global "x" .localName {}).2.pushScope .function global).2
    (t.reference ⟨1⟩ ⟨0⟩).2.findLocal? ⟨1⟩ "x" = some ⟨1⟩ ∧ (t.reference ⟨1⟩ ⟨0⟩).2.meant? ⟨1⟩ "x" = some ⟨0⟩ := by
  intro t
  have reached : Relation.ReflTransGen Uses {} t := .tail (.single (.declare _ _ _ (by decide))) (.push _ _ (by decide))
  obtain ⟨found, meant⟩ := (reference_keeps_meaning reached).2 ⟨1⟩ "x" global ⟨0⟩ (by decide) (by decide)
  exact ⟨found.trans (by decide), (meant ⟨1⟩ "x" (by decide)).trans (by decide)⟩

end Condense.ScopeTree
