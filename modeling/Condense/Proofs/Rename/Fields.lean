import Condense.Proofs.Rename.Name
import Condense.Proofs.Rename.Renaming

/-!
What the generated names of fields are.
-/

namespace Condense.ScopeTree

open List Option

variable {t t' : ScopeTree}
variable {ids : List FieldId} {f g : FieldId} (avoid : FieldId → List String)

theorem clearNames_renaming (t : ScopeTree) (ids : List FieldId) : t.Renaming (t.clearNames ids) := by
  induction ids generalizing t with
  | nil => exact .refl t
  | cons id rest ih => exact (Renaming.modifyField t id none).trans (ih _)

theorem clearNames_other (t : ScopeTree) (other : f ∉ ids) : (t.clearNames ids).field f = t.field f := by
  induction ids generalizing t with
  | nil => rfl
  | cons id rest ih =>
    rw [mem_cons, not_or] at other
    refine (ih _ other.2).trans ?_
    rw [modifyField_field, if_neg fun same => other.1 same.1]

theorem assignNames_renaming (t : ScopeTree) (ids : List FieldId)
    (taken : List String) : t.Renaming (assignNames avoid ids taken t) := by
  induction ids generalizing t taken with
  | nil => exact .refl t
  | cons id rest ih => exact (Renaming.modifyField t id _).trans (ih _ _)

theorem assignNames_other (t : ScopeTree) (taken : List String) (other : f ∉ ids) :
    (assignNames avoid ids taken t).field f = t.field f := by
  induction ids generalizing t taken with
  | nil => rfl
  | cons id rest ih =>
    rw [mem_cons, not_or] at other
    refine (ih _ _ other.2).trans ?_
    rw [modifyField_field, if_neg fun same => other.1 same.1]

/-- Every field gets a name that can be written, that is not taken and that it does not have to avoid. No two get the
same one, and the names do not depend on those that the fields have. -/
theorem assignNames_given (ids : List FieldId) (taken : List String) : ∃ given : FieldId → String,
    (∀ f ∈ ids, given f ∉ taken ∧ given f ∉ avoid f ∧ isReservedWord (given f) = false) ∧
      (∀ f ∈ ids, ∀ g ∈ ids, f ≠ g → given f ≠ given g) ∧
      ∀ t : ScopeTree, ∀ f ∈ ids, f.index < t.fields.size →
        ((assignNames avoid ids taken t).field f).crunchedName = some (given f) := by
  induction ids generalizing taken with
  | nil => simp
  | cons id rest ih =>
    let first := freeName (taken ++ avoid id)
    obtain ⟨given, free, apart, sets⟩ := ih (first :: taken)
    obtain ⟨unused, word⟩ := freeName_free (taken ++ avoid id)
    rw [mem_append, not_or] at unused
    -- the name of the first field is taken for all that follow
    have later (f : FieldId) (member : f ∈ rest) : first ≠ given f :=
      fun same => (free f member).1 (same ▸ .head _)
    have here {f : FieldId} (member : f ∈ id :: rest) (last : f ∉ rest) : f = id :=
      (mem_cons.mp member).resolve_right last
    let names (f : FieldId) := if f ∈ rest then given f else first
    have old {f : FieldId} (more : f ∈ rest) : names f = given f := if_pos more
    have new {f : FieldId} (last : f ∉ rest) : names f = first := if_neg last
    refine ⟨names, fun f member => ?_, fun f memberF g memberG different => ?_, fun t f member range => ?_⟩
    · by_cases more : f ∈ rest
      · rw [old more]
        exact ⟨fun used => (free f more).1 (.tail _ used), (free f more).2⟩
      · rw [new more, here member more]
        exact ⟨unused.1, unused.2, word⟩
    · by_cases moreF : f ∈ rest <;> by_cases moreG : g ∈ rest
      · rw [old moreF, old moreG]
        exact apart f moreF g moreG different
      · rw [old moreF, new moreG]
        exact (later f moreF).symm
      · rw [new moreF, old moreG]
        exact later g moreG
      · exact absurd ((here memberF moreF).trans (here memberG moreG).symm) different
    · rw [assignNames]
      by_cases more : f ∈ rest
      · rw [old more, sets _ f more (by rwa [modifyField_size])]
      · rw [new more, assignNames_other avoid _ _ more, modifyField_field, if_pos ⟨here member more, range⟩]

/-- The generated name of a field tells it from the other fields of its scope, and does not hide it from a scope
that sees it. -/
structure NamedAs (settings : Settings) (reserved : List String) (t : ScopeTree) (f : FieldId)
    (name : String) : Prop where
  given : (t.field f).crunchedName = some name
  writable : isReservedWord name = false
  unreserved : name ∉ reserved
  beside : ∀ g ∈ (t.scope (t.field f).scope).fields, t.canBeShortened settings g = false →
    t.outputName g ≠ name
  apart : ∀ g ∈ (t.scope (t.field f).scope).fields, t.canBeShortened settings g = true → g ≠ f →
    (t.field g).crunchedName ≠ some name
  unhidden : name ∉ t.hidingNames settings (t.field f).scope f

section Scope

variable (settings : Settings) (reserved : List String) (t : ScopeTree) (s : ScopeId)

def candidates (t : ScopeTree) (s : ScopeId) : List FieldId :=
  (t.scope s).fields.toList.filter (t.canBeShortened settings)

/-- The names that the fields of a scope must not get, whichever field it is. -/
def takenNames (t : ScopeTree) (s : ScopeId) : List String :=
  reserved ++ (((t.scope s).fields.toList.filter fun id => !(t.candidates settings s).contains id).map
    (t.clearNames (t.candidates settings s)).outputName)

variable {t} in
theorem mem_candidates {s : ScopeId} :
    f ∈ t.candidates settings s ↔ f ∈ (t.scope s).fields ∧ t.canBeShortened settings f := by
  rw [candidates, mem_filter, Array.mem_toList_iff]

theorem mem_namingOrder : f ∈ t.namingOrder ids ↔ f ∈ ids :=
  (mergeSort_perm _ _).mem_iff

variable {t} in
theorem not_mem_candidates (kept : t.canBeShortened settings f = false) : f ∉ t.candidates settings s := by
  simp [mem_candidates, kept]

variable {t s} in
theorem Chained.not_mem_candidates (chained : t.Chained) (away : (t.field f).scope ≠ s) :
    f ∉ t.candidates settings s :=
  fun member => away ((chained.owned s f).mp ((mem_candidates settings).mp member).1).2

theorem shortenScope_eq :
    (t.shortenScope settings reserved s).1 =
      assignNames ((t.clearNames (t.candidates settings s)).hidingNames settings s)
        (t.namingOrder (t.candidates settings s)) (t.takenNames settings reserved s)
        (t.clearNames (t.candidates settings s)) :=
  rfl

theorem shortenScope_renaming : t.Renaming (t.shortenScope settings reserved s).1 :=
  (t.clearNames_renaming _).trans (assignNames_renaming _ _ _ _)

theorem shortenScope_other (other : f ∉ t.candidates settings s) :
    (t.shortenScope settings reserved s).1.field f = t.field f := by
  rw [shortenScope_eq, assignNames_other, clearNames_other t other]
  exact fun member => other (t.mem_namingOrder.mp member)

theorem shortenScope_named (chained : t.Chained) (member : f ∈ (t.scope s).fields)
    (short : t.canBeShortened settings f) :
    ∃ name, (t.shortenScope settings reserved s).1.NamedAs settings reserved f name := by
  let candidates := t.candidates settings s
  let cleared := t.clearNames candidates
  let taken := t.takenNames settings reserved s
  let avoid := cleared.hidingNames settings s
  let named := assignNames avoid (t.namingOrder candidates) taken cleared
  have result : (t.shortenScope settings reserved s).1 = named := rfl
  have clearing : t.Renaming cleared := t.clearNames_renaming candidates
  have naming : cleared.Renaming named := assignNames_renaming avoid cleared _ taken
  have whole := clearing.trans naming
  have isCandidate {g : FieldId} := mem_candidates (t := t) settings (s := s) (f := g)
  have rangeOf {g : FieldId} (listed : g ∈ (t.scope s).fields) :
      g.index < cleared.fields.size ∧ (t.field g).scope = s := by
    rw [clearing.size]
    exact (chained.owned s g).mp listed
  have untouched {g : FieldId} (other : g ∉ candidates) : named.field g = cleared.field g :=
    assignNames_other avoid cleared taken fun member => other (t.mem_namingOrder.mp member)
  obtain ⟨range, here⟩ := rangeOf member
  have here' : (named.field f).scope = s := (whole.owner f).trans here
  obtain ⟨given, good, apart, sets⟩ := assignNames_given avoid (t.namingOrder candidates) taken
  have known := t.mem_namingOrder.mpr (isCandidate.mpr ⟨member, short⟩)
  obtain ⟨free, clear, word⟩ := good f known
  simp only [taken, takenNames, mem_append, not_or] at free
  rw [result]
  refine ⟨given f, sets cleared f known range, word, free.1, ?_, ?_, ?_⟩
  · rw [here', whole.scope]
    intro g listed kept same
    rw [whole.canBeShortened] at kept
    have other : g ∉ candidates := not_mem_candidates settings s kept
    -- what the field stands for is not a candidate either, so it is written as before
    have root : t.outermost g ∉ candidates := by
      intro rooted
      obtain ⟨owned, -⟩ := isCandidate.mp rooted
      by_cases self : t.outermost g = g
      · exact other (self ▸ rooted)
      · exact chained.outermost_away ((chained.owned s g).mp listed).1 self
          ((rangeOf owned).2.trans (rangeOf listed).2.symm)
    have written : named.outputName g = cleared.outputName g := by
      refine naming.outputName ?_
      rw [clearing.outermost, untouched root]
    refine free.2 (mem_map.mpr ⟨g, ?_, written.symm.trans same⟩)
    rw [mem_filter, Array.mem_toList_iff]
    exact ⟨listed, by simpa using other⟩
  · rw [here', whole.scope]
    intro g listed shortG different same
    rw [whole.canBeShortened] at shortG
    have knownG := t.mem_namingOrder.mpr (isCandidate.mpr ⟨listed, shortG⟩)
    rw [sets cleared g knownG (rangeOf listed).1] at same
    exact apart g knownG f known different (Option.some.inj same)
  · rw [here', naming.hidingNames]
    · exact clear
    · intro g kept
      rw [clearing.canBeShortened] at kept
      rw [untouched (not_mem_candidates settings s kept)]

end Scope

/-- The fields of some scopes have their names, and no others have one. -/
structure NamedIn (settings : Settings) (reserved : List String) (done : List ScopeId) (t : ScopeTree) :
    Prop where
  linked : t.Linked
  pending : ∀ f, (t.field f).scope ∉ done ∨ t.canBeShortened settings f = false →
    (t.field f).crunchedName = none
  named : ∀ f, f.index < t.fields.size → (t.field f).scope ∈ done → t.canBeShortened settings f = true →
    ∃ name, t.NamedAs settings reserved f name

section Run

variable {settings : Settings} {reserved : List String}

/-- Naming a scope does not concern the scopes that it does not stand around. -/
theorem NamedAs.shortenScope {name : String} (named : t.NamedAs settings reserved f name)
    (chained : t.Chained) (range : f.index < t.fields.size) {s : ScopeId} (inner : s ∉ t.ancestors (t.field f).scope) :
    (t.shortenScope settings reserved s).1.NamedAs settings reserved f name := by
  have renamed := t.shortenScope_renaming settings reserved s
  have apart : (t.field f).scope ≠ s := by
    rintro rfl
    exact inner (chained.nested.self_mem_ancestors (chained.inside f range))
  have same {g : FieldId} (away : (t.field g).scope ≠ s) :
      (t.shortenScope settings reserved s).1.field g = t.field g :=
    t.shortenScope_other settings reserved s (chained.not_mem_candidates settings away)
  refine ⟨by rw [same apart, named.given], named.writable, named.unreserved, ?_, ?_, ?_⟩
  · rw [same apart, renamed.scope]
    intro g listed kept
    obtain ⟨rangeG, here⟩ := (chained.owned _ g).mp listed
    rw [renamed.canBeShortened] at kept
    rw [renamed.outputName]
    · exact named.beside g listed kept
    · rw [same]
      rintro rfl
      exact inner (here ▸ (chained.outermost_ends rangeG).outward)
  · rw [same apart, renamed.scope]
    intro g listed short different
    obtain ⟨-, here⟩ := (chained.owned _ g).mp listed
    rw [renamed.canBeShortened] at short
    rw [same (here.trans_ne apart)]
    exact named.apart g listed short different
  · rw [same apart, renamed.hidingNames]
    · exact named.unhidden
    · intro g kept
      rw [t.shortenScope_other settings reserved s (not_mem_candidates settings s kept)]

theorem NamedIn.step {done : List ScopeId} (namedIn : t.NamedIn settings reserved done) {s : ScopeId}
    (inner : ∀ d ∈ done, s ∉ t.ancestors d) :
    (t.shortenScope settings reserved s).1.NamedIn settings reserved (done ++ [s]) := by
  have chained := namedIn.linked.toChained
  have renamed := t.shortenScope_renaming settings reserved s
  refine ⟨renamed.linked namedIn.linked, fun f waiting => ?_, fun f range ready short => ?_⟩
  · rw [renamed.owner, renamed.canBeShortened, mem_append, mem_singleton, not_or] at waiting
    have other : f ∉ t.candidates settings s :=
      waiting.elim (chained.not_mem_candidates settings ·.2) (not_mem_candidates settings s)
    rw [t.shortenScope_other settings reserved s other]
    exact namedIn.pending f (waiting.imp_left And.left)
  · rw [renamed.size] at range
    rw [renamed.owner, mem_append, mem_singleton] at ready
    rw [renamed.canBeShortened] at short
    rcases ready with earlier | here
    · obtain ⟨name, named⟩ := namedIn.named f range earlier short
      exact ⟨name, named.shortenScope chained range (inner _ earlier)⟩
    · exact t.shortenScope_named settings reserved s chained ((chained.owned s f).mpr ⟨range, here⟩) short

variable (settings reserved) in
/-- Names the fields of scopes, one scope after the other. -/
def shortenScopes (t : ScopeTree) (scopes : List ScopeId) : ScopeTree :=
  scopes.foldl (fun t s => (t.shortenScope settings reserved s).1) t

theorem shortenNames_eq (settings : Settings) (t : ScopeTree) :
    (t.shortenNames settings).1 = t.shortenScopes settings (t.reservedNames settings) t.topDown :=
  (foldl_hom Prod.fst fun _ _ => rfl).symm

theorem NamedIn.run (rest : List ScopeId) {done : List ScopeId} (namedIn : t.NamedIn settings reserved done)
    (order : (done ++ rest).Pairwise fun x y => y ∉ t.ancestors x) :
    (t.shortenScopes settings reserved rest).NamedIn settings reserved (done ++ rest) := by
  induction rest generalizing t done with
  | nil => simpa [shortenScopes] using namedIn
  | cons s rest ih =>
    have next := namedIn.step fun d member =>
      (pairwise_append.mp order).2.2 d member s (.head _)
    have renamed := t.shortenScope_renaming settings reserved s
    rw [shortenScopes, foldl_cons, ← singleton_append, ← append_assoc]
    refine ih next ?_
    rw [append_assoc, singleton_append]
    exact order.imp fun outside => by rwa [renamed.ancestors]

end Run

/-- A field that may get a generated name stands for itself and is not fixed. -/
theorem canBeShortened_true {settings : Settings}
    (short : t.canBeShortened settings f) : (t.field f).outer = none ∧ ¬ (t.field f).Fixed := by
  simp only [canBeShortened, Bool.and_eq_true, Bool.or_eq_true, beq_iff_eq, Bool.not_eq_true',
    Field.isShim, Bool.and_eq_false_iff, isSome_eq_false_iff, isNone_iff_eq_none,
    bne_eq_false_iff_eq] at short
  obtain ⟨⟨⟨⟨⟨⟨⟨⟨⟨⟨kind, shim⟩, -⟩, crunch⟩, -⟩, -⟩, -⟩, -⟩, -⟩, -⟩, -⟩ := short
  refine ⟨shim.resolve_right fun withField => ?_, ?_⟩
  · rw [withField] at kind
    simp at kind
  · rintro (kept | ⟨notLocal, notArgument, notError⟩)
    · exact absurd (kept.symm.trans crunch) Bool.false_ne_true
    · exact kind.elim (·.elim notLocal notArgument) notError

/-- Every field that may get a generated name has one that does its work. -/
structure Shortened (settings : Settings) (reserved : List String) (t : ScopeTree) : Prop extends t.Linked where
  kept : ∀ f, t.canBeShortened settings f = false → (t.field f).crunchedName = none
  named : ∀ f, f.index < t.fields.size → t.canBeShortened settings f = true →
    ∃ name, t.NamedAs settings reserved f name

theorem shortenNames_renaming (settings : Settings) (t : ScopeTree) : t.Renaming (t.shortenNames settings).1 := by
  rw [shortenNames_eq]
  exact List.foldlRecOn _ _ (.refl t) fun t' renamed s _ => renamed.trans (t'.shortenScope_renaming settings _ s)

theorem Linked.shortenNames (linked : t.Linked) (unnamed : t.Unnamed) (settings : Settings) :
    (t.shortenNames settings).1.Shortened settings (t.reservedNames settings) := by
  have start : t.NamedIn settings (t.reservedNames settings) [] :=
    ⟨linked, fun f _ => unnamed f, fun f _ none => absurd none not_mem_nil⟩
  have final := start.run t.topDown linked.nested.topDown_pairwise
  rw [← shortenNames_eq] at final
  have renamed := t.shortenNames_renaming settings
  refine ⟨final.linked, fun f kept => final.pending f (.inr kept), fun f range short => ?_⟩
  have live := final.linked.own_live f range (canBeShortened_true short).1
  rw [← final.linked.nested.mem_topDown_iff, renamed.topDown] at live
  exact final.named f range live short

/-- In every scope, fields that are written alike stand for the same field. -/
def Unambiguous (t : ScopeTree) : Prop :=
  ∀ f g, f.index < t.fields.size → g.index < t.fields.size → (t.field f).scope = (t.field g).scope →
    t.outputName f = t.outputName g → t.outermost f = t.outermost g

/-- A field is written as the field it stands for is. -/
theorem outputName_eq (t : ScopeTree) (plain : (t.field f).kind = .withField → (t.field f).crunchedName = none) :
    t.outputName f = ((t.field (t.outermost f)).crunchedName).getD (t.field (t.outermost f)).name := by
  dsimp only [outputName]
  split
  · rename_i alone
    simp only [Bool.and_eq_true, beq_iff_eq, isNone_iff_eq_none] at alone
    rw [t.outermost_of_none alone.2, plain alone.1]
    rfl
  · rfl

theorem Linked.unambiguous (linked : t.Linked) (unnamed : t.Unnamed) : t.Unambiguous := by
  intro f g rangeF rangeG here same
  rw [t.outputName_eq fun _ => unnamed f, t.outputName_eq fun _ => unnamed g, unnamed, unnamed,
    getD_none, getD_none, (linked.outermost_ends rangeF).name,
    (linked.outermost_ends rangeG).name] at same
  rw [linked.distinct f g rangeF rangeG here same]

namespace Shortened

variable {settings : Settings} {reserved : List String} (shortened : t.Shortened settings reserved)

include shortened

theorem outputName_eq (f : FieldId) :
    t.outputName f = ((t.field (t.outermost f)).crunchedName).getD (t.field (t.outermost f)).name := by
  refine t.outputName_eq fun inWith => shortened.kept f (Bool.eq_false_iff.mpr fun short => ?_)
  exact (canBeShortened_true short).2 (.inr (by simp [inWith]))

theorem outputName_congr (same : t.outermost f = t.outermost g) : t.outputName f = t.outputName g := by
  rw [shortened.outputName_eq, shortened.outputName_eq, same]

/-- A field is written under its own name unless what it stands for may get a generated one. -/
theorem outputName_of_kept (range : f.index < t.fields.size)
    (kept : t.canBeShortened settings (t.outermost f) = false) : t.outputName f = (t.field f).name := by
  rw [shortened.outputName_eq, shortened.kept _ kept]
  exact (shortened.outermost_ends range).name

theorem outputName_of_named {name : String} (short : t.canBeShortened settings f)
    (named : t.NamedAs settings reserved f name) : t.outputName f = name := by
  rw [shortened.outputName_eq, t.outermost_of_none (canBeShortened_true short).1, named.given]
  rfl

section

variable (rangeF : f.index < t.fields.size) (rangeG : g.index < t.fields.size)
  (here : (t.field f).scope = (t.field g).scope)

include rangeF rangeG here

/-- A field of a scope is never written like an outer one that the scope sees. -/
theorem outer_unhidden (shim : (t.field f).outer ≠ none) (own : (t.field g).outer = none)
    (kept : t.canBeShortened settings g = false) : t.outputName f ≠ t.outputName g := by
  have ends := shortened.outermost_ends rangeF
  have away : t.outermost f ≠ f := fun self => shim (self ▸ ends.last)
  have written : t.outputName g = (t.field g).name :=
    shortened.outputName_of_kept rangeG (by rwa [t.outermost_of_none own])
  intro same
  cases short : t.canBeShortened settings (t.outermost f) with
  | false =>
    rw [shortened.outputName_of_kept rangeF short, written] at same
    exact shim (shortened.distinct f g rangeF rangeG here same ▸ own)
  | true =>
    obtain ⟨name, named⟩ := shortened.named _ ends.inside short
    have live := shortened.own_live g rangeG own
    rw [← here] at live
    -- the scope of the two is one that the outer field must not be hidden from
    refine named.unhidden (mem_flatMap.mpr ⟨(t.field f).scope, ?_, ?_⟩)
    · rw [mem_filter]
      refine ⟨shortened.nested.mem_below live ends.outward ?_, ?_⟩
      · exact (shortened.toChained.outermost_away rangeF away).symm
      · rw [reaches, Array.any_eq_true']
        refine ⟨f, (shortened.owned _ f).mpr ⟨rangeF, rfl⟩, ?_⟩
        simpa [isSome_iff_ne_none] using shim
    · refine mem_filterMap.mpr ⟨g, ?_, ?_⟩
      · rw [Array.mem_toList_iff]
        exact (shortened.owned _ g).mpr ⟨rangeG, here.symm⟩
      · rw [if_pos (by simp [own, kept]), ← same, shortened.outputName_eq, named.given]
        rfl

/-- Of two fields of one scope that are written alike, none has a name of its own unless they are the same. -/
theorem kept_of_alike
    (same : t.outputName f = t.outputName g) (different : f ≠ g) : t.canBeShortened settings f = false := by
  refine Bool.eq_false_iff.mpr fun short => ?_
  obtain ⟨name, named⟩ := shortened.named f rangeF short
  have listed : g ∈ (t.scope (t.field f).scope).fields := (shortened.owned _ g).mpr ⟨rangeG, here.symm⟩
  rw [shortened.outputName_of_named short named] at same
  cases shortG : t.canBeShortened settings g with
  | false => exact named.beside g listed shortG same.symm
  | true =>
    obtain ⟨other, namedG⟩ := shortened.named g rangeG shortG
    rw [shortened.outputName_of_named shortG namedG] at same
    exact named.apart g listed shortG different.symm (same ▸ namedG.given)

end

/-- A scope that links two fields which are written alike sees both in the scope around it, so the two can be
followed outward until one of them is a field of its own. -/
theorem unambiguous : t.Unambiguous := by
  intro f g rangeF
  refine shortened.inward_induction (motive := fun f => ∀ g, g.index < t.fields.size →
    (t.field f).scope = (t.field g).scope → t.outputName f = t.outputName g →
      t.outermost f = t.outermost g) ?_ ?_ rangeF g
  · intro f rangeF own g rangeG here same
    by_cases different : f = g
    · rw [different]
    have keptF := shortened.kept_of_alike rangeF rangeG here same different
    have keptG := shortened.kept_of_alike rangeG rangeF here.symm same.symm (Ne.symm different)
    cases link : (t.field g).outer with
    | none =>
      have writtenF := shortened.outputName_of_kept rangeF (by rwa [t.outermost_of_none own])
      have writtenG := shortened.outputName_of_kept rangeG (by rwa [t.outermost_of_none link])
      exact absurd (shortened.distinct f g rangeF rangeG here (writtenF.symm.trans (same.trans writtenG))) different
    | some _ =>
      have hidden := shortened.outer_unhidden rangeG rangeF here.symm (by simp [link]) own keptF
      exact absurd same.symm hidden
  · intro f o rangeF linkF toO ih g rangeG here same
    by_cases different : f = g
    · rw [different]
    have keptG := shortened.kept_of_alike rangeG rangeF here.symm same.symm (Ne.symm different)
    cases linkG : (t.field g).outer with
    | none => exact absurd same (shortened.outer_unhidden rangeF rangeG here (by simp [linkF]) linkG keptG)
    | some p =>
      have toP := shortened.links g p rangeG linkG
      have rootF := shortened.outermost_of_some rangeF linkF
      have rootG := shortened.outermost_of_some rangeG linkG
      by_cases inWith : (t.scope (t.field f).scope).kind = .withBody
      · -- what is seen from the body of a `with` statement keeps its name
        have pinned {x : FieldId} (rangeX : x.index < t.fields.size) (shim : (t.field x).outer ≠ none)
            (at' : (t.field f).scope = (t.field x).scope) : t.outputName x = (t.field x).name := by
          refine shortened.outputName_of_kept rangeX (Bool.eq_false_iff.mpr fun short => ?_)
          exact (canBeShortened_true short).2 (shortened.pinned x rangeX shim (at' ▸ inWith))
        have writtenF := pinned rangeF (by simp [linkF]) rfl
        have writtenG := pinned rangeG (by simp [linkG]) here
        exact absurd (shortened.distinct f g rangeF rangeG here (writtenF.symm.trans (same.trans writtenG)))
          different
      · have around : (t.field o).scope = (t.field p).scope := by
          have next := toP.next (here ▸ inWith)
          rw [← here, toO.next inWith] at next
          exact Option.some.inj next
        rw [rootF, rootG]
        refine ih p toP.inside around ?_
        rw [← shortened.outputName_congr rootF, ← shortened.outputName_congr rootG, same]

end Shortened

end Condense.ScopeTree
