import Condense.Proofs.Scope.Ancestry
import Mathlib.Data.List.Find

/-!
The fields of a scope tree are held by their scopes: a scope lists exactly the fields that name it as theirs, no two
of them under one name, and its map of names is in step with the list.
-/

namespace Condense

variable {s : ScopeId} {n : String} {f : FieldId}

/-- The fields of a scope, and the map that finds them. -/
def Scope.listing (s : Scope) : Array FieldId × List (String × FieldId) :=
  (s.fields, s.names)

def Field.position (f : Field) : String × ScopeId × Option FieldId :=
  (f.name, f.scope, f.outer)

def Field.identity (f : Field) : String × ScopeId × Option FieldId × Option String :=
  (f.name, f.scope, f.outer, f.crunchedName)

theorem Field.position_of_identity {f g : Field} (same : f.identity = g.identity) : f.position = g.position := by
  simp only [Field.identity, Prod.mk.injEq] at same
  simp only [Field.position, same]

theorem Field.redeclared_same (f : Field) (kind : FieldKind) :
    (f.redeclared kind).identity = f.identity ∧ (f.redeclared kind).refCount = f.refCount := by
  unfold Field.redeclared
  split
  · exact ⟨rfl, rfl⟩
  · split <;> exact ⟨rfl, rfl⟩

namespace ScopeTree

variable {t t' : ScopeTree}

/-- No name was generated yet. -/
def Unnamed (t : ScopeTree) : Prop :=
  ∀ f, (t.field f).crunchedName = none

/-- Scopes are the same in both trees, and fields stand in the same places. -/
structure Alike (t t' : ScopeTree) : Prop where
  scopes : t'.scopes = t.scopes
  size : t'.fields.size = t.fields.size
  position : ∀ f, (t'.field f).position = (t.field f).position

theorem alike_modifyField (t : ScopeTree) (id : FieldId) (f : Field → Field)
    (position : ∀ g, (f g).position = g.position) : t.Alike (t.modifyField id f) :=
  ⟨rfl, t.modifyField_size id f, t.modifyField_keeps Field.position id f position⟩

namespace Alike

theorem trans {t'' : ScopeTree} (first : t.Alike t') (second : t'.Alike t'') : t.Alike t'' :=
  ⟨second.scopes.trans first.scopes, second.size.trans first.size, fun f => (second.position f).trans (first.position f)⟩

variable (alike : t.Alike t')

include alike

theorem scope (s : ScopeId) : t'.scope s = t.scope s := by
  simp only [ScopeTree.scope, alike.scopes]

theorem name (f : FieldId) : (t'.field f).name = (t.field f).name :=
  congrArg (·.1) (alike.position f)

theorem home (f : FieldId) : (t'.field f).scope = (t.field f).scope :=
  congrArg (·.2.1) (alike.position f)

theorem outer (f : FieldId) : (t'.field f).outer = (t.field f).outer :=
  congrArg (·.2.2) (alike.position f)

theorem findLocal? (s : ScopeId) (n : String) : t'.findLocal? s n = t.findLocal? s n := by
  simp only [ScopeTree.findLocal?, alike.scope]

end Alike

theorem findLocal?_congr (listing : (t'.scope s).listing = (t.scope s).listing) :
    t'.findLocal? s n = t.findLocal? s n := by
  rw [findLocal?, findLocal?, show (t'.scope s).names = (t.scope s).names from congrArg (·.2) listing]

/-- The map of names is in step with the list of fields: it finds the latest field of a name. -/
def Indexed (t : ScopeTree) : Prop :=
  ∀ s n, t.findLocal? s n = (t.scope s).fields.toList.reverse.find? fun f => (t.field f).name == n

namespace Indexed

theorem alike (indexed : t.Indexed) (alike : t.Alike t') : t'.Indexed := by
  simpa only [Indexed, alike.findLocal?, alike.scope, alike.name] using indexed

theorem rearranged (indexed : t.Indexed) (fields : t'.fields = t.fields)
    (listing : ∀ s, (t'.scope s).listing = (t.scope s).listing) : t'.Indexed := by
  intro s n
  have list : (t'.scope s).fields = (t.scope s).fields := congrArg (·.1) (listing s)
  simpa only [findLocal?_congr (listing s), list, field_congr fields] using indexed s n

/-- List and map take a new field up together. -/
theorem insertField (indexed : t.Indexed) (inside : ∀ s, ∀ f ∈ (t.scope s).fields, f.index < t.fields.size)
    (new : Field) : (t.insertField new).2.Indexed := by
  intro s n
  have old : (t.scope s).fields.toList.reverse.find? (fun f => ((t.insertField new).2.field f).name == n) =
      t.findLocal? s n := by
    rw [indexed s n]
    refine List.find?_congr fun f member => ?_
    rw [insertField_field, if_neg (Nat.ne_of_lt (inside s f (by simpa using member)))]
  rw [findLocal?, insertField_scope]
  split
  · rw [Array.toList_push, List.reverse_append, List.reverse_singleton, List.singleton_append, List.find?_cons, old,
      insertField_last, List.lookup_cons, Bool.beq_comm]
    cases new.name == n <;> rfl
  · exact old.symm

variable (indexed : t.Indexed)

include indexed

theorem findLocal?_some (found : t.findLocal? s n = some f) : f ∈ (t.scope s).fields ∧ (t.field f).name = n := by
  rw [indexed] at found
  exact ⟨by simpa using List.mem_of_find?_eq_some found, by simpa using List.find?_some found⟩

theorem findLocal?_eq_none_iff : t.findLocal? s n = none ↔ ∀ f ∈ (t.scope s).fields, (t.field f).name ≠ n := by
  simp [indexed s n]

end Indexed

/-- Scopes list fields of their own, no two under one name, and find them by their names. -/
structure Listed (t : ScopeTree) : Prop where
  own : ∀ s, ∀ f ∈ (t.scope s).fields, f.index < t.fields.size ∧ (t.field f).scope = s
  distinct : ∀ s, ∀ f ∈ (t.scope s).fields, ∀ g ∈ (t.scope s).fields, (t.field f).name = (t.field g).name → f = g
  indexed : t.Indexed

namespace Listed

variable (listed : t.Listed)

include listed

theorem findLocal?_eq_some_iff : t.findLocal? s n = some f ↔ f ∈ (t.scope s).fields ∧ (t.field f).name = n := by
  refine ⟨listed.indexed.findLocal?_some, fun ⟨member, named⟩ => ?_⟩
  cases found : t.findLocal? s n with
  | none => exact absurd named (listed.indexed.findLocal?_eq_none_iff.mp found f member)
  | some g =>
    obtain ⟨memberG, namedG⟩ := listed.indexed.findLocal?_some found
    rw [listed.distinct s g memberG f member (namedG.trans named.symm)]

variable (new : Field)

theorem insertField_old (member : f ∈ (t.scope s).fields) : (t.insertField new).2.field f = t.field f := by
  rw [insertField_field, if_neg (Nat.ne_of_lt (listed.own s f member).1)]

variable (free : t.findLocal? new.scope new.name = none)

include free

theorem insertField : (t.insertField new).2.Listed := by
  have apart := listed.indexed.findLocal?_eq_none_iff.mp free
  have mem := t.mem_insertField new
  have old {s : ScopeId} {f : FieldId} := listed.insertField_old (s := s) (f := f) new
  refine ⟨?_, ?_, listed.indexed.insertField (fun s f member => (listed.own s f member).1) new⟩
  · intro s f here
    rw [insertField_size]
    rcases (mem s f).mp here with here | ⟨rfl, -, rfl⟩
    · rw [old here]
      exact ⟨Nat.lt_succ_of_lt (listed.own s f here).1, (listed.own s f here).2⟩
    · rw [t.insertField_last]
      exact ⟨Nat.lt_succ_self _, rfl⟩
  · intro s f first g second same
    rcases (mem s f).mp first with first | ⟨rfl, -, rfl⟩ <;> rcases (mem _ g).mp second with second | ⟨here, -, rfl⟩
    · rw [old first, old second] at same
      exact listed.distinct s f first g second same
    · rw [old first, t.insertField_last] at same
      exact absurd same (apart f (here ▸ first))
    · rw [t.insertField_last, old second] at same
      exact absurd same.symm (apart g second)
    · rfl

theorem findLocal?_insertField (inside : new.scope.index < t.scopes.size) (s : ScopeId) (n : String) :
    (t.insertField new).2.findLocal? s n =
      if s = new.scope ∧ n = new.name then some ⟨t.fields.size⟩ else t.findLocal? s n := by
  have next := listed.insertField new free
  have mem := t.mem_insertField new s
  have last := congrArg Field.name (t.insertField_last new)
  split
  · rename_i here
    obtain ⟨rfl, rfl⟩ := here
    exact next.findLocal?_eq_some_iff.mpr ⟨(mem _).mpr (.inr ⟨rfl, inside, rfl⟩), last⟩
  · rename_i other
    refine Option.ext fun f => ?_
    rw [next.findLocal?_eq_some_iff, listed.findLocal?_eq_some_iff, mem]
    constructor
    · rintro ⟨member | ⟨rfl, -, rfl⟩, rfl⟩
      · exact ⟨member, congrArg Field.name (listed.insertField_old new member).symm⟩
      · exact absurd ⟨rfl, last⟩ other
    · rintro ⟨member, rfl⟩
      exact ⟨.inl member, congrArg Field.name (listed.insertField_old new member)⟩

end Listed

theorem modifyScope_listing (t : ScopeTree) (id : ScopeId) (f : Scope → Scope) (s : ScopeId)
    (same : ∀ s, (f s).listing = s.listing) : ((t.modifyScope id f).scope s).listing = (t.scope s).listing :=
  t.modifyScope_keeps Scope.listing id f same s

theorem pushScope_listing (kind : ScopeKind) {parent : ScopeId} (owner : Option NodeId)
    (inside : parent.index < t.scopes.size) (s : ScopeId) :
    ((t.pushScope kind parent owner).2.scope s).listing = (t.scope s).listing := by
  rw [pushScope_scope kind parent owner inside]
  split_ifs with new
  · rw [t.scope_outside s (Nat.le_of_eq new.symm)]
    rfl
  all_goals rfl

theorem collapsed_listing (id p s : ScopeId) : ((t.collapsed id p).scope s).listing = (t.scope s).listing := by
  dsimp only [collapsed]
  rw [modifyScope_listing, modifyScope_listing, reparent_scope]
  · split <;> exact modifyScope_listing t id _ s fun _ => rfl
  all_goals exact fun _ => rfl

theorem adoptScopes_listing (since : Nat) (old new s : ScopeId) :
    ((t.adoptScopes since old new).scope s).listing = (t.scope s).listing := by
  dsimp only [adoptScopes]
  split
  · rfl
  · rw [modifyScope_listing, reparent_scope]
    · split <;> exact modifyScope_listing t old _ s fun _ => rfl
    · exact fun _ => rfl

theorem insertField_nesting (new : Field) (s : ScopeId) :
    ((t.insertField new).2.scope s).nesting = (t.scope s).nesting :=
  t.insertField_keeps Scope.nesting new (fun _ _ _ => rfl) s

theorem insertField_live_iff (new : Field) (s : ScopeId) : (t.insertField new).2.Live s ↔ t.Live s :=
  live_congr (t.insertField_scopes_size new) (insertField_nesting new) s

structure Held (t : ScopeTree) : Prop where
  nested : t.Nested
  owned : ∀ s f, f ∈ (t.scope s).fields ↔ f.index < t.fields.size ∧ (t.field f).scope = s
  inside : ∀ f, f.index < t.fields.size → (t.field f).scope.index < t.scopes.size
  distinct : ∀ f g, f.index < t.fields.size → g.index < t.fields.size →
    (t.field f).scope = (t.field g).scope → (t.field f).name = (t.field g).name → f = g
  own_live : ∀ f, f.index < t.fields.size → (t.field f).outer = none → t.Live (t.field f).scope
  indexed : t.Indexed

theorem held_new : ({} : ScopeTree).Held where
  nested := nested_new
  owned s f := by
    obtain ⟨_ | i⟩ := s <;> simp [scope]
  inside f range := absurd range (Nat.not_lt_zero _)
  distinct f _ range := absurd range (Nat.not_lt_zero _)
  own_live f range := absurd range (Nat.not_lt_zero _)
  indexed s n := by
    obtain ⟨_ | i⟩ := s <;> simp [findLocal?, scope]

namespace Held

variable (held : t.Held)

include held

theorem listed : t.Listed := by
  refine ⟨fun s f => (held.owned s f).mp, fun s f first g second => ?_, held.indexed⟩
  obtain ⟨range, rfl⟩ := (held.owned s f).mp first
  obtain ⟨rangeG, same⟩ := (held.owned _ g).mp second
  exact held.distinct f g range rangeG same.symm

theorem findLocal?_some (found : t.findLocal? s n = some f) :
    f.index < t.fields.size ∧ (t.field f).scope = s ∧ (t.field f).name = n := by
  obtain ⟨member, named⟩ := held.indexed.findLocal?_some found
  obtain ⟨range, own⟩ := (held.owned s f).mp member
  exact ⟨range, own, named⟩

/-- A field is what its scope finds under its name. -/
theorem findLocal?_of_field (range : f.index < t.fields.size) :
    t.findLocal? (t.field f).scope (t.field f).name = some f :=
  held.listed.findLocal?_eq_some_iff.mpr ⟨(held.owned _ f).mpr ⟨range, rfl⟩, rfl⟩

/-- Fields stay held when scopes are rearranged around them. -/
theorem rearranged (nested : t'.Nested) (fields : t'.fields = t.fields) (grown : t.scopes.size ≤ t'.scopes.size)
    (listing : ∀ s, (t'.scope s).listing = (t.scope s).listing)
    (live : ∀ f, f.index < t.fields.size → t.Live (t.field f).scope → t'.Live (t.field f).scope) : t'.Held := by
  have same := field_congr fields
  refine ⟨nested, ?_, ?_, ?_, ?_, held.indexed.rearranged fields listing⟩
  · intro s f
    rw [show (t'.scope s).fields = (t.scope s).fields from congrArg (·.1) (listing s), same, fields]
    exact held.owned s f
  · intro f range
    rw [same]
    rw [fields] at range
    exact Nat.lt_of_lt_of_le (held.inside f range) grown
  · simpa only [same, fields] using held.distinct
  · intro f range own
    rw [same] at own ⊢
    rw [fields] at range
    exact live f range (held.own_live f range own)

theorem pushScope (kind : ScopeKind) (parent : ScopeId) (owner : Option NodeId) (live : t.Live parent) :
    (t.pushScope kind parent owner).2.Held := by
  refine held.rearranged (held.nested.pushScope kind parent owner live) rfl ?_ (pushScope_listing kind owner live.1) ?_
  · rw [pushScope_size]
    exact Nat.le_succ _
  · intro f _ old
    exact (pushScope_live_iff kind parent owner live.1 _).mpr (.inr old)

theorem collapsed (id p : ScopeId) (live : t.Live id) (link : (t.scope id).parent = some p)
    (empty : (t.scope id).fields = #[]) (block : (t.scope id).kind = .block) : (t.collapsed id p).Held := by
  refine held.rearranged (held.nested.collapsed live link block) ?_ ?_ ?_ ?_
  · exact collapsed_fields
  · exact Nat.le_of_eq collapsed_size.symm
  · exact collapsed_listing id p
  · intro f range old
    refine (collapsed_live_iff held.nested live link _).mpr ⟨?_, old⟩
    intro here
    have member := (held.owned id f).mpr ⟨range, here⟩
    rw [empty] at member
    simp at member

theorem adoptScopes (since : Nat) (old new : ScopeId) (live : t.Live new)
    (link : (t.scope new).parent = some old) : (t.adoptScopes since old new).Held := by
  refine held.rearranged (held.nested.adoptScopes since live link) ?_ ?_ ?_ ?_
  · exact adoptScopes_fields t since old new
  · exact Nat.le_of_eq (adoptScopes_size ..).symm
  · exact adoptScopes_listing since old new
  · intro f _ wasLive
    exact (adoptScopes_live_iff since held.nested live link _).mpr wasLive

theorem modifyScope (id : ScopeId) (f : Scope → Scope) (nesting : ∀ s, (f s).nesting = s.nesting)
    (listing : ∀ s, (f s).listing = s.listing) : (t.modifyScope id f).Held := by
  have size := t.modifyScope_size id f
  have same := t.modifyScope_keeps Scope.nesting id f nesting
  refine held.rearranged (held.nested.congr size same) rfl (Nat.le_of_eq size.symm) ?_ ?_
  · exact fun s => t.modifyScope_listing id f s listing
  · intro g _ live
    exact (live_congr size same _).mpr live

theorem alike (alike : t.Alike t') : t'.Held := by
  refine ⟨held.nested.congr (congrArg _ alike.scopes) fun s => congrArg _ (alike.scope s), ?_, ?_, ?_, ?_,
    held.indexed.alike alike⟩
  · simpa only [alike.scope, alike.size, alike.home] using held.owned
  · simpa only [alike.scopes, alike.size, alike.home] using held.inside
  · simpa only [alike.size, alike.home, alike.name] using held.distinct
  · simpa only [Live, alike.scopes, alike.scope, alike.size, alike.home, alike.outer] using held.own_live

theorem modifyField (id : FieldId) (f : Field → Field)
    (position : ∀ g, (f g).position = g.position) : (t.modifyField id f).Held :=
  held.alike (t.alike_modifyField id f position)

/-- A field under a name that is free in its scope can be added. -/
theorem insertField (new : Field) (inside : new.scope.index < t.scopes.size)
    (live : new.outer = none → t.Live new.scope) (free : t.findLocal? new.scope new.name = none) :
    (t.insertField new).2.Held := by
  have fields := t.insertField_field new
  have next := held.listed.insertField new free
  have owned (s : ScopeId) (f : FieldId) : f ∈ ((t.insertField new).2.scope s).fields ↔
      f.index < (t.insertField new).2.fields.size ∧ ((t.insertField new).2.field f).scope = s := by
    refine ⟨next.own s f, ?_⟩
    rintro ⟨range, rfl⟩
    rw [t.mem_insertField]
    rcases Nat.lt_or_ge f.index t.fields.size with old | late
    · rw [fields, if_neg (Nat.ne_of_lt old)]
      exact .inl ((held.owned _ f).mpr ⟨old, rfl⟩)
    · obtain rfl := t.insertField_only new late range
      rw [t.insertField_last]
      exact .inr ⟨rfl, inside, rfl⟩
  refine ⟨held.nested.congr (t.insertField_scopes_size new) (insertField_nesting new), owned, ?_, ?_, ?_,
    next.indexed⟩
  · intro f range
    rw [insertField_size] at range
    rw [insertField_scopes_size, fields]
    split
    · exact inside
    · exact held.inside f (by omega)
  · intro f g rangeF rangeG home
    exact next.distinct _ f ((owned _ f).mpr ⟨rangeF, home⟩) g ((owned _ g).mpr ⟨rangeG, rfl⟩)
  · intro f range own
    rw [insertField_size] at range
    rw [insertField_live_iff]
    rw [fields] at own ⊢
    split
    · rename_i last
      rw [if_pos last] at own
      exact live own
    · rename_i earlier
      rw [if_neg earlier] at own
      exact held.own_live f (by omega) own

theorem createField (s : ScopeId) (name : String) (kind : FieldKind)
    (live : t.Live s) (free : t.findLocal? s name = none) : (t.createField s name kind).2.Held :=
  held.insertField { name, kind, scope := s } live.1 (fun _ => live) free

end Held

end ScopeTree

end Condense
