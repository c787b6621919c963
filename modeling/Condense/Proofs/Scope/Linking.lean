import Condense.Proofs.Scope.Holding

/-!
Links between fields. A field that stands for another one has its name and leads one scope outward, out of the body of
a `with` statement any number of scopes.
-/

namespace Condense

variable {f o : FieldId}

/-- A field that gets no generated name, whatever the settings say. -/
def Field.Fixed (f : Field) : Prop :=
  f.canCrunch = false ∨ f.kind ≠ .localName ∧ f.kind ≠ .argument ∧ f.kind ≠ .catchError

namespace ScopeTree

variable {t t' : ScopeTree}

/-- A field of the name in the scope may stand for the field `o`. -/
structure Reaches (t : ScopeTree) (s : ScopeId) (name : String) (o : FieldId) : Prop where
  inside : o.index < t.fields.size
  name : (t.field o).name = name
  outward : (t.field o).scope ∈ t.ancestors s
  away : (t.field o).scope ≠ s
  next : (t.scope s).kind ≠ .withBody → (t.scope s).parent = some (t.field o).scope

/-- The field `o` may be what the field `f` stands for. -/
abbrev LinksTo (t : ScopeTree) (f o : FieldId) : Prop :=
  t.Reaches (t.field f).scope (t.field f).name o

structure Chained (t : ScopeTree) : Prop extends t.Held where
  links : ∀ f o, f.index < t.fields.size → (t.field f).outer = some o → t.LinksTo f o

theorem Held.ancestors_shorter (held : t.Held) (range : f.index < t.fields.size) (link : t.LinksTo f o) :
    (t.ancestors (t.field o).scope).length < (t.ancestors (t.field f).scope).length := by
  have inside := held.inside f range
  cases parent : (t.scope (t.field f).scope).parent with
  | none =>
    have alone := held.nested.ancestors_eq_cons inside
    rw [parent] at alone
    have outward := link.outward
    rw [alone] at outward
    exact absurd (List.mem_singleton.mp outward) link.away
  | some p =>
    have outward := (held.nested.mem_ancestors_iff inside parent).mp link.outward
    have above := outward.resolve_left link.away
    have short := held.nested.ancestors_length_le (held.nested.parent_inside _ _ parent) above
    have longer := held.nested.ancestors_length_parent inside parent
    omega

theorem outerChain_eq_walk (t : ScopeTree) (f : FieldId) :
    t.outerChain f = walk (fun f => (t.field f).outer) (t.fields.size + 1) f :=
  t.outerChainUpTo_eq_walk _ f

theorem outermost_of_none (t : ScopeTree) (last : (t.field f).outer = none) : t.outermost f = f := by
  simp [outermost, outerChain, outerChainUpTo, last]

theorem outermost_of_some (descends : Descends (fun f => (t.field f).outer) FieldId.index t.fields.size)
    (range : f.index < t.fields.size) (link : (t.field f).outer = some o) : t.outermost f = t.outermost o := by
  have first := descends.walk_eq_cons f range (Nat.le_succ t.fields.size)
  simp only [link] at first
  simp only [outermost, outerChain_eq_walk]
  rw [first, descends.walk_eq_cons o (descends.inside f o range link) (Nat.le_succ t.fields.size),
    List.getLast?_cons_cons, List.getLast?_cons, Option.getD_some, Option.getD_some]

/-- The end of a chain is a field of its own under the same name, further out. -/
structure Ends (t : ScopeTree) (f r : FieldId) : Prop where
  inside : r.index < t.fields.size
  last : (t.field r).outer = none
  name : (t.field r).name = (t.field f).name
  outward : (t.field r).scope ∈ t.ancestors (t.field f).scope

namespace Chained

variable (chained : t.Chained)

include chained

theorem descends : Descends (fun f => (t.field f).outer) FieldId.index t.fields.size where
  injective := by
    rintro ⟨i⟩ ⟨j⟩ same
    exact congrArg FieldId.mk same
  inside f o range link := (chained.links f o range link).inside
  ranked := ⟨fun f => (t.ancestors (t.field f).scope).length, fun f o range link =>
    chained.toHeld.ancestors_shorter range (chained.links f o range link)⟩

/-- What holds at the end of a chain and is passed inward along links holds of every field. -/
theorem inward_induction {motive : FieldId → Prop}
    (last : ∀ f, f.index < t.fields.size → (t.field f).outer = none → motive f)
    (step : ∀ f o, f.index < t.fields.size → (t.field f).outer = some o → t.LinksTo f o → motive o → motive f)
    (range : f.index < t.fields.size) : motive f := by
  obtain ⟨rank, ranked⟩ := chained.descends.ranked
  induction level : rank f using Nat.strongRecOn generalizing f with
  | ind level ih =>
    cases link : (t.field f).outer with
    | none => exact last f range link
    | some o =>
      have linked := chained.links f o range link
      have lower := ranked f o range link
      exact step f o range link linked (ih (rank o) (by omega) linked.inside rfl)

variable (range : f.index < t.fields.size)

include range

theorem outermost_of_some (link : (t.field f).outer = some o) : t.outermost f = t.outermost o :=
  ScopeTree.outermost_of_some chained.descends range link

theorem outermost_ends : t.Ends f (t.outermost f) := by
  have nested := chained.nested
  refine chained.inward_induction (motive := fun f => t.Ends f (t.outermost f)) ?_ ?_ range
  · intro f range last
    rw [t.outermost_of_none last]
    exact ⟨range, last, rfl, nested.self_mem_ancestors (chained.inside f range)⟩
  · intro f o range link linked ends
    rw [chained.outermost_of_some range link]
    exact ⟨ends.inside, ends.last, ends.name.trans linked.name,
      nested.ancestors_trans (chained.inside f range) linked.outward ends.outward⟩

/-- The field that another one of its scope stands for is in another scope. -/
theorem outermost_away (away : t.outermost f ≠ f) : (t.field (t.outermost f)).scope ≠ (t.field f).scope := by
  have ends := chained.outermost_ends range
  exact fun here => away (chained.distinct _ f ends.inside range here ends.name)

/-- Up to the first body of a `with` statement, every scope on the way to a field sees it. -/
theorem seen_on_the_way {s : ScopeId} (above : s ∈ t.ancestors (t.field f).scope)
    (between : (t.field (t.outermost f)).scope ∈ t.ancestors s)
    (plain : ∀ x ∈ t.ancestors (t.field f).scope, s ∈ t.ancestors x → x ≠ s → (t.scope x).kind ≠ .withBody) :
    ∃ h, t.findLocal? s (t.field f).name = some h ∧ t.outermost h = t.outermost f := by
  have nested := chained.nested
  have self {a : FieldId} (range : a.index < t.fields.size) (here : (t.field a).scope = s) :
      ∃ h, t.findLocal? s (t.field a).name = some h ∧ t.outermost h = t.outermost a :=
    ⟨a, here ▸ chained.findLocal?_of_field range, rfl⟩
  refine chained.inward_induction (motive := fun a => s ∈ t.ancestors (t.field a).scope →
    (t.field (t.outermost a)).scope ∈ t.ancestors s →
      (∀ x ∈ t.ancestors (t.field a).scope, s ∈ t.ancestors x → x ≠ s → (t.scope x).kind ≠ .withBody) →
        ∃ h, t.findLocal? s (t.field a).name = some h ∧ t.outermost h = t.outermost a) ?_ ?_ range above between plain
  · intro a range last above between _
    rw [t.outermost_of_none last] at between
    exact self range (nested.ancestors_antisymm (chained.inside a range) above between)
  · intro a o range link toO ih above between plain
    by_cases here : (t.field a).scope = s
    · exact self range here
    have inside := chained.inside a range
    have next := toO.next (plain _ (nested.self_mem_ancestors inside) above here)
    have above := ((nested.mem_ancestors_iff inside next).mp above).resolve_left (Ne.symm here)
    rw [chained.outermost_of_some range link] at between ⊢
    rw [← toO.name]
    exact ih above between fun x outer => plain x (nested.ancestors_trans inside toO.outward outer)

/-- Chains end where they did as long as the links of the fields on them stay. -/
theorem outermost_congr (chained' : t'.Chained) (grown : t.fields.size ≤ t'.fields.size)
    (same : ∀ f, f.index < t.fields.size → (t'.field f).outer = (t.field f).outer) : t'.outermost f = t.outermost f := by
  refine chained.inward_induction (motive := fun f => t'.outermost f = t.outermost f) ?_ ?_ range
  · intro f range last
    rw [t.outermost_of_none last, t'.outermost_of_none ((same f range).trans last)]
  · intro f o range link _ ih
    rw [chained.outermost_of_some range link,
      chained'.outermost_of_some (Nat.lt_of_lt_of_le range grown) ((same f range).trans link), ih]

end Chained

structure Linked (t : ScopeTree) : Prop extends t.Chained where
  pinned : ∀ f, f.index < t.fields.size → (t.field f).outer ≠ none →
    (t.scope (t.field f).scope).kind = .withBody → (t.field (t.outermost f)).Fixed

/-- Fields of a tree that is built on another one: the old ones stay where they are, and those that are fixed
stay so. -/
structure Keeps (t t' : ScopeTree) : Prop where
  grown : t.fields.size ≤ t'.fields.size
  position : ∀ f, f.index < t.fields.size → (t'.field f).position = (t.field f).position
  fixed : ∀ f, f.index < t.fields.size → (t.field f).Fixed → (t'.field f).Fixed

namespace Keeps

theorem refl (t : ScopeTree) : t.Keeps t :=
  ⟨.refl, fun _ _ => rfl, fun _ _ => id⟩

theorem trans {t'' : ScopeTree} (first : t.Keeps t') (second : t'.Keeps t'') : t.Keeps t'' where
  grown := Nat.le_trans first.grown second.grown
  position f range :=
    (second.position f (Nat.lt_of_lt_of_le range first.grown)).trans (first.position f range)
  fixed f range old :=
    second.fixed f (Nat.lt_of_lt_of_le range first.grown) (first.fixed f range old)

variable (keeps : t.Keeps t') (range : f.index < t.fields.size)

include keeps range

theorem name : (t'.field f).name = (t.field f).name :=
  congrArg (·.1) (keeps.position f range)

theorem scope : (t'.field f).scope = (t.field f).scope :=
  congrArg (·.2.1) (keeps.position f range)

theorem outer : (t'.field f).outer = (t.field f).outer :=
  congrArg (·.2.2) (keeps.position f range)

theorem outermost (chained : t.Chained) (chained' : t'.Chained) : t'.outermost f = t.outermost f :=
  chained.outermost_congr range chained' keeps.grown fun _ => keeps.outer

end Keeps

/-- Seen from a scope outward, the tree is as it was. -/
structure Stands (t t' : ScopeTree) (s : ScopeId) : Prop where
  ancestors : t'.ancestors s = t.ancestors s
  parent : (t'.scope s).parent = (t.scope s).parent
  kind : (t'.scope s).kind = (t.scope s).kind

theorem Reaches.kept {s : ScopeId} {name : String} (reaches : t.Reaches s name o) (keeps : t.Keeps t')
    (stands : t.Stands t' s) : t'.Reaches s name o := by
  obtain ⟨inside, named, outward, away, next⟩ := reaches
  refine ⟨Nat.lt_of_lt_of_le inside keeps.grown, ?_, ?_, ?_, ?_⟩ <;>
    simpa only [keeps.name inside, keeps.scope inside, stands.ancestors, stands.parent, stands.kind]

section

variable (held : t'.Held) (keeps : t.Keeps t') (stands : ∀ s, s.index < t.scopes.size → t.Stands t' s)

include held keeps stands

/-- Chains stay chains if the fields that are added to them are linked. -/
theorem Chained.extended (chained : t.Chained)
    (added : ∀ f o, t.fields.size ≤ f.index → f.index < t'.fields.size → (t'.field f).outer = some o → t'.LinksTo f o) :
    t'.Chained := by
  refine ⟨held, fun f o range link => ?_⟩
  by_cases old : f.index < t.fields.size
  · have before := chained.links f o old ((keeps.outer old).symm.trans link)
    rw [LinksTo, keeps.scope old, keeps.name old]
    exact before.kept keeps (stands _ (chained.inside f old))
  · exact added f o (by omega) range link

/-- A tree stays linked if the fields that are added to it are. -/
theorem Linked.extended (linked : t.Linked)
    (added : ∀ f o, t.fields.size ≤ f.index → f.index < t'.fields.size → (t'.field f).outer = some o →
      t'.LinksTo f o ∧ o.index < t.fields.size ∧
        ((t'.scope (t'.field f).scope).kind = .withBody → (t'.field (t.outermost o)).Fixed)) :
    t'.Linked := by
  have chained := linked.toChained.extended held keeps stands fun f o new range link =>
    (added f o new range link).1
  refine ⟨chained, fun f range shim inWith => ?_⟩
  by_cases old : f.index < t.fields.size
  · rw [keeps.outer old] at shim
    rw [keeps.scope old, (stands _ (linked.inside f old)).kind] at inWith
    rw [keeps.outermost old linked.toChained chained]
    exact keeps.fixed _ (linked.outermost_ends old).inside (linked.pinned f old shim inWith)
  · obtain ⟨o, link⟩ := Option.ne_none_iff_exists'.mp shim
    obtain ⟨_, inside, pinned⟩ := added f o (by omega) range link
    rw [chained.outermost_of_some range link, keeps.outermost inside linked.toChained chained]
    exact pinned inWith

end

/-- Besides, the scopes stay as they are. -/
structure Extends (t t' : ScopeTree) : Prop extends t.Keeps t' where
  size : t'.scopes.size = t.scopes.size
  nesting : ∀ s, (t'.scope s).nesting = (t.scope s).nesting
  unnamed : t.Unnamed → t'.Unnamed

theorem Extends.stands (extension : t.Extends t') (s : ScopeId) : t.Stands t' s where
  ancestors := ancestors_congr extension.size extension.nesting s
  parent := parent_congr extension.nesting s
  kind := kind_congr extension.nesting s

theorem Extends.refl (t : ScopeTree) : t.Extends t :=
  ⟨.refl t, rfl, fun _ => rfl, id⟩

theorem Extends.trans {t'' : ScopeTree} (first : t.Extends t') (second : t'.Extends t'') : t.Extends t'' where
  toKeeps := first.toKeeps.trans second.toKeeps
  size := second.size.trans first.size
  nesting s := (second.nesting s).trans (first.nesting s)
  unnamed old := second.unnamed (first.unnamed old)

/-- Fields were added, all of them to certain scopes. -/
structure Grows (t t' : ScopeTree) (into : ScopeId → Prop) : Prop where
  linked : t'.Linked
  extension : t.Extends t'
  added : ∀ f, t.fields.size ≤ f.index → f.index < t'.fields.size → into (t'.field f).scope

theorem Linked.kept (linked : t.Linked) (held : t'.Held) (extension : t.Extends t')
    (size : t'.fields.size = t.fields.size) : t.Grows t' fun _ => False := by
  have none (f : FieldId) (new : t.fields.size ≤ f.index) : ¬ f.index < t'.fields.size := by
    rw [size]
    omega
  refine ⟨?_, extension, fun f new range => none f new range⟩
  exact linked.extended held extension.toKeeps (fun s _ => extension.stands s) fun f _ new range =>
    absurd range (none f new)

theorem modifyField_extends (id : FieldId) (f : Field → Field) (identity : ∀ g, (f g).identity = g.identity)
    (fixed : ∀ g : Field, g.Fixed → (f g).Fixed) : t.Extends (t.modifyField id f) where
  size := rfl
  nesting _ := rfl
  grown := Nat.le_of_eq (t.modifyField_size id f).symm
  position g _ := Field.position_of_identity (t.modifyField_keeps Field.identity id f identity g)
  fixed g _ old := by
    rw [modifyField_field]
    split
    · exact fixed _ old
    · exact old
  unnamed old g :=
    (congrArg (·.2.2.2) (t.modifyField_keeps Field.identity id f identity g)).trans (old g)

theorem Linked.marked (linked : t.Linked) (id : FieldId) (f : Field → Field)
    (identity : ∀ g, (f g).identity = g.identity) (fixed : ∀ g : Field, g.Fixed → (f g).Fixed) :
    t.Grows (t.modifyField id f) fun _ => False :=
  linked.kept (linked.toHeld.modifyField id f fun g => Field.position_of_identity (identity g))
    (modifyField_extends id f identity fixed) (t.modifyField_size id f)

theorem modifyScope_extends (id : ScopeId) (f : Scope → Scope)
    (nesting : ∀ s, (f s).nesting = s.nesting) : t.Extends (t.modifyScope id f) where
  toKeeps := ⟨.refl, fun _ _ => rfl, fun _ _ old => old⟩
  size := t.modifyScope_size id f
  nesting := t.modifyScope_keeps Scope.nesting id f nesting
  unnamed old := old

theorem Linked.modifyScope (linked : t.Linked) (id : ScopeId) (f : Scope → Scope)
    (nesting : ∀ s, (f s).nesting = s.nesting) (listing : ∀ s, (f s).listing = s.listing) :
    t.Grows (t.modifyScope id f) fun _ => False :=
  linked.kept (linked.toHeld.modifyScope id f nesting listing) (modifyScope_extends id f nesting) rfl

theorem insertField_extends (new : Field) (unnamed : new.crunchedName = none) : t.Extends (t.insertField new).2 where
  size := t.insertField_scopes_size new
  nesting := insertField_nesting new
  grown := by
    rw [insertField_size]
    exact Nat.le_succ _
  position f range := by rw [insertField_field, if_neg (Nat.ne_of_lt range)]
  fixed f range old := by rwa [insertField_field, if_neg (Nat.ne_of_lt range)]
  unnamed old f := by
    rw [insertField_field]
    split
    · exact unnamed
    · exact old f

section Insertion

variable (new : Field) (inside : new.scope.index < t.scopes.size) (unnamed : new.crunchedName = none)
  (live : new.outer = none → t.Live new.scope) (free : t.findLocal? new.scope new.name = none)
  (reaches : ∀ o ∈ new.outer, t.Reaches new.scope new.name o)

include unnamed reaches

theorem insertField_linksTo (link : new.outer = some o) : (t.insertField new).2.LinksTo ⟨t.fields.size⟩ o := by
  have extension := insertField_extends (t := t) new unnamed
  rw [LinksTo, t.insertField_last]
  exact (reaches o link).kept extension.toKeeps (extension.stands _)

include inside live free

theorem Chained.insertField (chained : t.Chained) : (t.insertField new).2.Chained := by
  have extension := insertField_extends (t := t) new unnamed
  refine chained.extended (chained.toHeld.insertField new inside live free) extension.toKeeps
    (fun s _ => extension.stands s) fun f o old range link => ?_
  obtain rfl := t.insertField_only new old range
  rw [t.insertField_last] at link
  exact insertField_linksTo new unnamed reaches link

/-- A field can be added to a scope that has its name free. In the body of a `with` statement it may stand only
for one that is fixed. -/
theorem Linked.grows_insertField (linked : t.Linked)
    (pinned : (t.scope new.scope).kind = .withBody → ∀ o ∈ new.outer, (t.field (t.outermost o)).Fixed) :
    t.Grows (t.insertField new).2 (· = new.scope) := by
  have extension := insertField_extends (t := t) new unnamed
  refine ⟨linked.extended (linked.toHeld.insertField new inside live free) extension.toKeeps
    (fun s _ => extension.stands s) fun f o old range link => ?_, extension, fun f old range => ?_⟩
  all_goals obtain rfl := t.insertField_only new old range
  · rw [t.insertField_last] at link ⊢
    refine ⟨insertField_linksTo new unnamed reaches link, (reaches o link).inside, fun inWith => ?_⟩
    rw [(extension.stands _).kind] at inWith
    exact extension.fixed _ (linked.outermost_ends (reaches o link).inside).inside (pinned inWith o link)
  · rw [t.insertField_last]

end Insertion

end ScopeTree

end Condense
