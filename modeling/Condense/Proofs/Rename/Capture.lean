import Condense.Proofs.Rename.Properties
import Condense.Proofs.Rename.Stability
import Condense.Proofs.Scoping.Resolved

/-!
Which references renaming leaves to their fields, and where it may capture one.
-/

namespace Condense

variable {settings : Settings} {g a : FieldId} {s : ScopeId} {t : ScopeTree}

theorem Form.relabeled_reference? (labels : Tree.Labels) (form : Form NodeId) :
    (form.relabeled labels).reference? = form.reference? := by
  unfold relabeled
  split <;> rfl

theorem Tree.Retitled.reference? {a b : Form NodeId} (retitled : Tree.Retitled a b) : b.reference? = a.reference? := by
  cases retitled <;> rfl

theorem rename_references (settings : Settings) {t : Tree} {root : NodeId} (scopes : ScopeTree) (rooted : t.Rooted root)
    (id : NodeId) : ((rename settings t scopes [root]).tree.form id).reference? = (t.form id).reference? := by
  obtain ⟨t₁, relabels, -, retitling⟩ := Tree.renameNodes_forms settings
    (show ∀ x ∈ [root], t.Rooted x by simpa using rooted) (List.nodup_singleton root)
  rw [rename_tree, (retitling.form id).reference?]
  by_cases inside : id ∈ if settings.renamesLocals then [root].flatMap t.descendants else []
  · rw [relabels.inside id inside, Form.relabeled_reference?]
  · rw [relabels.outside id inside]

/-- A scope tree in which fields have their final names. -/
structure ScopeTree.Settled (t : ScopeTree) : Prop extends t.Linked where
  unambiguous : t.Unambiguous
  written : ∀ f, t.outputName f =
    ((t.field (t.outermost f)).crunchedName).getD (t.field (t.outermost f)).name
  fixed : ∀ f, (t.field f).Fixed → (t.field f).crunchedName = none

theorem rename_scopes (settings : Settings) (t : Tree) (scopes : ScopeTree) (roots : List NodeId)
    (pairs : settings.renamePairs = []) :
    (rename settings t scopes roots).scopes =
      if settings.renamesLocals then (scopes.shortenNames settings).1 else scopes := by
  have paired : scopes.Paired settings := fun f => by
    simp [Settings.pairedName?, Settings.renameTarget?, pairs, Text.Dictionary.get?]
  dsimp only [rename]
  rw [paired.applyRenamePairs]
  split <;> rfl

theorem rename_settled (source : String) (pairs : settings.renamePairs = []) :
    let parsed := parse source settings
    let renamed := rename settings parsed.tree parsed.scopes [parsed.root]
    parsed.scopes.Renaming renamed.scopes ∧ renamed.scopes.Settled ∧ renamed.tree.ResolvedIn renamed.scopes := by
  obtain ⟨linked, unnamed, resolved⟩ := parse_ready source settings
  have references := rename_references settings (parse source settings).scopes (parse_proper source settings).rooted
  generalize parse source settings = parsed at *
  have result : parsed.scopes.Renaming (rename settings parsed.tree parsed.scopes [parsed.root]).scopes ∧
      (rename settings parsed.tree parsed.scopes [parsed.root]).scopes.Settled := by
    rw [rename_scopes settings _ _ _ pairs]
    split
    · have shortened := linked.shortenNames unnamed settings
      refine ⟨parsed.scopes.shortenNames_renaming settings, shortened.toLinked, shortened.unambiguous,
        shortened.outputName_eq, fun f fixed => shortened.kept f (Bool.eq_false_iff.mpr fun short => ?_)⟩
      exact (ScopeTree.canBeShortened_true short).2 fixed
    · exact ⟨.refl _, linked, linked.unambiguous unnamed, fun f => parsed.scopes.outputName_eq fun _ => unnamed f,
        fun f _ => unnamed f⟩
  refine ⟨result.1, result.2, fun id f form => ?_⟩
  rw [result.1.size]
  exact resolved id f ((references id).symm.trans form)

namespace ScopeTree.Settled

variable (settled : t.Settled)

include settled

theorem outputName_congr {f : FieldId} (same : t.outermost f = t.outermost g) : t.outputName f = t.outputName g := by
  rw [settled.written, settled.written, same]

/-- No other field of a scope is written like one that the scope sees. -/
theorem unhidden {h : FieldId} (seen : h ∈ (t.scope s).fields) (leads : t.outermost h = t.outermost a)
    (other : g ∈ (t.scope s).fields) (alike : t.outputName g = t.outputName a) : t.outermost g = t.outermost a := by
  obtain ⟨rangeG, hereG⟩ := (settled.owned s g).mp other
  obtain ⟨rangeH, hereH⟩ := (settled.owned s h).mp seen
  rw [← leads]
  refine settled.unambiguous g h rangeG rangeH (hereG.trans hereH.symm) ?_
  rw [alike, settled.outputName_congr leads]

/-- Where no body of a `with` statement is in between, every scope on the way to a field sees it. -/
theorem seen_on_the_way (plain : ∀ s, (t.scope s).kind ≠ .withBody) (range : a.index < t.fields.size)
    (above : s ∈ t.ancestors (t.field a).scope) (between : (t.field (t.outermost a)).scope ∈ t.ancestors s) :
    ∃ h ∈ (t.scope s).fields, t.outermost h = t.outermost a := by
  obtain ⟨h, found, leads⟩ := settled.toChained.seen_on_the_way range above between fun x _ _ _ => plain x
  exact ⟨h, (settled.indexed.findLocal?_some found).1, leads⟩

/-- What the body of a `with` statement sees of the scopes around it is written under its own name. -/
theorem outputName_of_pinned {w : FieldId} (range : w.index < t.fields.size) (shim : (t.field w).outer ≠ none)
    (inWith : (t.scope (t.field w).scope).kind = .withBody) : t.outputName w = (t.field w).name := by
  rw [settled.written, settled.fixed _ (settled.pinned w range shim inWith)]
  exact (settled.outermost_ends range).name

end ScopeTree.Settled

namespace ScopeTree

/-- The field of a scope that is written in a certain way. -/
def writtenLocal? (t : ScopeTree) (written : String) (s : ScopeId) : Option FieldId :=
  (t.scope s).fields.find? fun g => t.outputName g == written

/-- The nearest field that is written in a certain way, looking outward from a scope. -/
def writtenField? (t : ScopeTree) (s : ScopeId) (written : String) : Option FieldId :=
  (t.ancestors s).findSome? (t.writtenLocal? written)

end ScopeTree

/-- Looking up what a field is written as leads to where the field leads. -/
theorem ScopeTree.Settled.writtenField? (settled : t.Settled)
    (plain : ∀ s, (t.scope s).kind ≠ .withBody) (range : a.index < t.fields.size) :
    ∃ g, t.writtenField? (t.field a).scope (t.outputName a) = some g ∧ t.outermost g = t.outermost a := by
  have nested := settled.nested
  have inside := settled.inside a range
  have ends := settled.outermost_ends range
  have root : t.outermost (t.outermost a) = t.outermost a := t.outermost_of_none ends.last
  -- the search ends in the scope of the field itself at the latest
  have last : t.writtenLocal? (t.outputName a) (t.field (t.outermost a)).scope ≠ none := by
    intro none
    have owned := (settled.owned _ _).mpr ⟨ends.inside, rfl⟩
    have written := settled.outputName_congr root
    simpa [written] using Array.find?_eq_none.mp none _ owned
  cases found : t.writtenField? (t.field a).scope (t.outputName a) with
  | none => exact absurd (List.findSome?_eq_none_iff.mp found _ ends.outward) last
  | some g =>
      obtain ⟨before, s, more, chain, here, earlier⟩ := List.findSome?_eq_some_iff.mp found
      have between : (t.field (t.outermost a)).scope ∈ t.ancestors s := by
        rw [nested.ancestors_suffix inside chain]
        have outward := ends.outward
        rw [chain, List.mem_append] at outward
        exact outward.resolve_left fun member => last (earlier _ member)
      have listed := Array.mem_of_find?_eq_some here
      have alike : t.outputName g = t.outputName a := by simpa using Array.find?_some here
      obtain ⟨h, seen, leads⟩ := settled.seen_on_the_way plain range (by simp [chain]) between
      exact ⟨g, rfl, settled.unhidden seen leads listed alike⟩

/-- On the way from a name outward to the field it means, only what stands for that field is written like it, so
looking up what is written leads there again. -/
def Renamed.CapturesNothing (renamed : Renamed) : Prop :=
  let scopes := renamed.scopes
  ∀ id name a how, renamed.tree.form id = .lookup name (some a) how →
    (∀ s ∈ scopes.ancestors (scopes.field a).scope,
      (scopes.field (scopes.outermost a)).scope ∈ scopes.ancestors s →
        ∀ g ∈ (scopes.scope s).fields, scopes.outputName g = scopes.outputName a →
          scopes.outermost g = scopes.outermost a) ∧
    ∃ g, scopes.writtenField? (scopes.field a).scope (scopes.outputName a) = some g ∧
      scopes.outermost g = scopes.outermost a

theorem Renamed.capturesNothing {renamed : Renamed} (settled : renamed.scopes.Settled)
    (resolved : renamed.tree.ResolvedIn renamed.scopes)
    (plain : ∀ s, (renamed.scopes.scope s).kind ≠ .withBody) : renamed.CapturesNothing := by
  intro id name a how form
  have range := resolved id a (by rw [form]; rfl)
  refine ⟨fun s above between g listed alike => ?_, settled.writtenField? plain range⟩
  obtain ⟨h, seen, leads⟩ := settled.seen_on_the_way plain range above between
  exact settled.unhidden seen leads listed alike

/-- Renaming captures no reference of a text without `with` statements. -/
theorem rename_captures_no_reference (source : String) (settings : Settings)
    (pairs : settings.renamePairs = [])
    (plain : ∀ s, ((parse source settings).scopes.scope s).kind ≠ .withBody) :
    let parsed := parse source settings
    (rename settings parsed.tree parsed.scopes [parsed.root]).CapturesNothing := by
  obtain ⟨same, settled, resolved⟩ := rename_settled source pairs
  refine Renamed.capturesNothing settled resolved fun s => ?_
  rw [same.scope]
  exact plain s

theorem ScopeTree.kind_ne_withBody (plain : t.scopes.all (·.kind != .withBody))
    (s : ScopeId) : (t.scope s).kind ≠ .withBody := by
  unfold ScopeTree.scope
  cases found : t.scopes[s.index]? with
  | none => exact nofun
  | some scope => simpa using Array.all_eq_true_iff_forall_mem.mp plain scope (Array.mem_of_getElem? found)

set_option maxRecDepth 100000 in
/-- The inner function has a name of its own beside the argument that it sees. -/
theorem rename_captures_no_argument :
    let parsed := parse "b=>()=>\x7blet a;a+b\x7d" {}
    let renamed := rename {} parsed.tree parsed.scopes [parsed.root]
    let scopes := renamed.scopes
    (renamed.tree.form ⟨5⟩).reference? = some ⟨2⟩ ∧ scopes.outputName ⟨0⟩ = scopes.outputName ⟨2⟩ ∧
      scopes.outermost ⟨0⟩ = scopes.outermost ⟨2⟩ ∧
      ∃ g, scopes.writtenField? (scopes.field ⟨2⟩).scope (scopes.outputName ⟨2⟩) = some g ∧
        scopes.outermost g = scopes.outermost ⟨2⟩ := by
  have facts :
      let parsed := parse "b=>()=>\x7blet a;a+b\x7d" {}
      let renamed := rename {} parsed.tree parsed.scopes [parsed.root]
      let scopes := renamed.scopes
      parsed.scopes.scopes.all (·.kind != .withBody) = true ∧
        (renamed.tree.form ⟨5⟩).reference? = some ⟨2⟩ ∧
        ⟨1⟩ ∈ scopes.ancestors (scopes.field ⟨2⟩).scope ∧
        (scopes.field (scopes.outermost ⟨2⟩)).scope ∈ scopes.ancestors ⟨1⟩ ∧
        ⟨0⟩ ∈ (scopes.scope ⟨1⟩).fields ∧ scopes.outputName ⟨0⟩ = scopes.outputName ⟨2⟩ := by
    decide +kernel
  have capture := rename_captures_no_reference "b=>()=>\x7blet a;a+b\x7d" {} rfl
  -- nothing below is evaluated any more
  generalize parse "b=>()=>\x7blet a;a+b\x7d" {} = parsed at facts capture ⊢
  obtain ⟨plain, found, above, between, listed, alike⟩ := facts
  obtain ⟨name, how, form⟩ := Form.lookup_of_reference? found
  obtain ⟨apart, lookup⟩ := capture (ScopeTree.kind_ne_withBody plain) ⟨5⟩ name ⟨2⟩ how form
  exact ⟨found, alike, apart ⟨1⟩ above between ⟨0⟩ listed alike, lookup⟩

/-- A block that sees a declaration of a scope around it keeps its own names apart from it. Where a declaration only
stands in the block, as that of a `var` may, one of the names of the block can be the same. -/
theorem rename_block_collides_unseen (source : String) (settings : Settings)
    (pairs : settings.renamePairs = []) :
    let parsed := parse source settings
    let scopes := (rename settings parsed.tree parsed.scopes [parsed.root]).scopes
    ∀ v b, v ∈ scopes.ancestors b → ∀ a ∈ (scopes.scope v).fields, ∀ g ∈ (scopes.scope b).fields,
      (scopes.field g).name ≠ (scopes.field a).name → scopes.outputName g = scopes.outputName a →
        ∀ h ∈ (scopes.scope b).fields, scopes.outermost h ≠ scopes.outermost a := by
  intro parsed scopes
  have settled : scopes.Settled := (rename_settled source pairs).2.1
  clear_value scopes
  intro v b _ a owned g other renamed alike h seen leads
  have same := settled.unhidden seen leads other alike
  have nameA := (settled.outermost_ends ((settled.owned v a).mp owned).1).name
  have nameG := (settled.outermost_ends ((settled.owned b g).mp other).1).name
  exact renamed (by rw [← nameG, same, nameA])

set_option maxRecDepth 100000 in
/-- The block gives its `x` the name that the `y` of the function has, which it declares but does not use. -/
theorem rename_block_collides :
    let parsed := parse "()=>\x7b\x7blet x;var y;x\x7dy\x7d" {}
    let scopes := (rename {} parsed.tree parsed.scopes [parsed.root]).scopes
    (scopes.field ⟨0⟩).name ≠ (scopes.field ⟨1⟩).name ∧ scopes.outputName ⟨0⟩ = scopes.outputName ⟨1⟩ ∧
      ∀ h ∈ (scopes.scope ⟨2⟩).fields, scopes.outermost h ≠ scopes.outermost ⟨1⟩ := by
  intro parsed scopes
  have facts : ⟨1⟩ ∈ scopes.ancestors ⟨2⟩ ∧ ⟨1⟩ ∈ (scopes.scope ⟨1⟩).fields ∧
      ⟨0⟩ ∈ (scopes.scope ⟨2⟩).fields ∧ (scopes.field ⟨0⟩).name ≠ (scopes.field ⟨1⟩).name ∧
      scopes.outputName ⟨0⟩ = scopes.outputName ⟨1⟩ := by
    decide +kernel
  obtain ⟨above, owned, other, different, alike⟩ := facts
  exact ⟨different, alike, rename_block_collides_unseen "()=>\x7b\x7blet x;var y;x\x7dy\x7d" {} rfl
    ⟨1⟩ ⟨2⟩ above ⟨1⟩ owned ⟨0⟩ other different alike⟩

/-- What a name in the body of a `with` statement falls back to keeps its name, and every scope on the way that sees
it keeps its own names apart from it. The others, which a `with` statement skips, may have a field written alike. -/
def Renamed.FallbacksApart (renamed : Renamed) : Prop :=
  let scopes := renamed.scopes
  ∀ id name w how, renamed.tree.form id = .lookup name (some w) how →
    (scopes.scope (scopes.field w).scope).kind = .withBody → (scopes.field w).outer ≠ none →
      scopes.outputName (scopes.outermost w) = (scopes.field (scopes.outermost w)).name ∧
      ∀ s ∈ scopes.ancestors (scopes.field w).scope,
        (scopes.field (scopes.outermost w)).scope ∈ scopes.ancestors s →
          ∀ g ∈ (scopes.scope s).fields, scopes.outermost g ≠ scopes.outermost w →
            scopes.outputName g = scopes.outputName (scopes.outermost w) →
              ∀ h ∈ (scopes.scope s).fields, scopes.outermost h ≠ scopes.outermost w

theorem Renamed.fallbacksApart {renamed : Renamed} (settled : renamed.scopes.Settled)
    (resolved : renamed.tree.ResolvedIn renamed.scopes) : renamed.FallbacksApart := by
  intro id name w how form inWith shim
  have range := resolved id w (by rw [form]; rfl)
  have root : renamed.scopes.outermost (renamed.scopes.outermost w) = renamed.scopes.outermost w :=
    renamed.scopes.outermost_of_none (settled.outermost_ends range).last
  have written := settled.outputName_congr root
  refine ⟨?_, fun s _ _ g other different alike h seen leads => ?_⟩
  · rw [written, settled.outputName_of_pinned range shim inWith, (settled.outermost_ends range).name]
  · exact different (settled.unhidden seen leads other (alike.trans written))

theorem rename_fallback_collides_unseen (source : String) (settings : Settings)
    (pairs : settings.renamePairs = []) :
    let parsed := parse source settings
    (rename settings parsed.tree parsed.scopes [parsed.root]).FallbacksApart := by
  obtain ⟨-, settled, resolved⟩ := rename_settled source pairs
  exact Renamed.fallbacksApart settled resolved

set_option maxRecDepth 100000 in
/-- The inner function gives its argument the name of the outer one, which only the body of its `with` statement
looks for. -/
theorem rename_fallback_collides :
    let parsed := parse "n=>a=>\x7bwith(a)n\x7d" {}
    let renamed := rename {} parsed.tree parsed.scopes [parsed.root]
    let scopes := renamed.scopes
    scopes.outermost ⟨1⟩ ≠ scopes.outermost ⟨2⟩ ∧
      scopes.outputName ⟨1⟩ = scopes.outputName (scopes.outermost ⟨2⟩) ∧
      scopes.outputName (scopes.outermost ⟨2⟩) = (scopes.field (scopes.outermost ⟨2⟩)).name ∧
      ∀ h ∈ (scopes.scope ⟨2⟩).fields, scopes.outermost h ≠ scopes.outermost ⟨2⟩ := by
  have facts :
      let parsed := parse "n=>a=>\x7bwith(a)n\x7d" {}
      let renamed := rename {} parsed.tree parsed.scopes [parsed.root]
      let scopes := renamed.scopes
      (renamed.tree.form ⟨3⟩).reference? = some ⟨2⟩ ∧
        (scopes.scope (scopes.field ⟨2⟩).scope).kind = .withBody ∧ (scopes.field ⟨2⟩).outer ≠ none ∧
        ⟨2⟩ ∈ scopes.ancestors (scopes.field ⟨2⟩).scope ∧
        (scopes.field (scopes.outermost ⟨2⟩)).scope ∈ scopes.ancestors ⟨2⟩ ∧
        ⟨1⟩ ∈ (scopes.scope ⟨2⟩).fields ∧ scopes.outermost ⟨1⟩ ≠ scopes.outermost ⟨2⟩ ∧
        scopes.outputName ⟨1⟩ = scopes.outputName (scopes.outermost ⟨2⟩) := by
    decide +kernel
  have fallbacks := rename_fallback_collides_unseen "n=>a=>\x7bwith(a)n\x7d" {} rfl
  generalize parse "n=>a=>\x7bwith(a)n\x7d" {} = parsed at facts fallbacks ⊢
  obtain ⟨found, inWith, shim, above, between, other, different, alike⟩ := facts
  obtain ⟨name, how, form⟩ := Form.lookup_of_reference? found
  obtain ⟨kept, apart⟩ := fallbacks ⟨3⟩ name ⟨2⟩ how form inWith shim
  exact ⟨different, alike, kept, apart ⟨2⟩ above between ⟨1⟩ other different alike⟩

/-- A name that a field is given can be written. -/
theorem ScopeTree.Shortened.writable {reserved : List String} {f : FieldId} {name : String}
    (shortened : t.Shortened settings reserved) (given : (t.field f).crunchedName = some name) :
    isReservedWord name = false := by
  by_cases short : t.canBeShortened settings f
  · have range : f.index < t.fields.size := by
      by_contra outside
      rw [t.field_outside f (not_lt.1 outside)] at given
      cases given
    obtain ⟨other, named⟩ := shortened.named f range short
    exact Option.some.inj (named.given.symm.trans given) ▸ named.writable
  · simp [shortened.kept f (Bool.eq_false_iff.2 short)] at given

/-- Renaming gives no field a reserved word, and no label around which fewer than 56 others stand. -/
theorem rename_gives_no_reserved_word (source : String) (settings : Settings) (pairs : settings.renamePairs = []) :
    let parsed := parse source settings
    let t := parsed.tree
    let renamed := rename settings t parsed.scopes [parsed.root]
    (∀ f, ∀ name ∈ (renamed.scopes.field f).crunchedName, isReservedWord name = false) ∧
    (settings.renamesLocals = true → ∀ id ∈ t.descendants parsed.root,
      ((t.labelsAround id).length < 56 → ∀ label ∈ (renamed.tree.form id).label?, isReservedWord label = false) ∧
      ((t.labelsAround id).length ≤ 56 → ∀ label ∈ (t.form id).jumpLabel?, (t.labelTarget? id label).isSome →
        ∀ short ∈ (renamed.tree.form id).jumpLabel?, isReservedWord short = false)) := by
  intro parsed t renamed
  have rooted : t.Rooted parsed.root := (parse_proper source settings).rooted
  obtain ⟨linked, unnamed, -⟩ : parsed.scopes.Linked ∧ parsed.scopes.Unnamed ∧ _ := parse_ready source settings
  have scopes : renamed.scopes = _ := rename_scopes settings t parsed.scopes [parsed.root] pairs
  refine ⟨fun f name given => ?_, fun locals id member => ?_⟩
  · rw [scopes] at given
    split at given
    · exact (linked.shortenNames unnamed settings).writable given
    · exact absurd (given.symm.trans (unnamed f)) (Option.some_ne_none name)
  · obtain ⟨t₁, relabels, -, retitling⟩ := Tree.renameNodes_forms settings
      (show ∀ x ∈ [parsed.root], t.Rooted x by simpa using rooted) (List.nodup_singleton parsed.root)
    have form := relabels.inside id (by simpa [locals] using member)
    rw [← rename_tree settings t parsed.scopes] at retitling
    obtain ⟨-, labels, jumps⟩ := (retitling.form id).labels
    refine ⟨fun few label named => ?_, fun few label leads resolved short named => ?_⟩
    · rw [labels, form, Form.relabeled_label?, Tree.newNames_length] at named
      obtain ⟨_, -, rfl⟩ := Option.map_eq_some_iff.1 named
      exact generatedName_writable _ few
    · obtain ⟨target, found⟩ := Option.isSome_iff_exists.1 resolved
      obtain ⟨depth, less, lookup, -⟩ := Tree.find?_renumbered found
      rw [jumps, form, Form.relabeled_jumpLabel?, leads, Option.map_some, lookup, Option.getD_some] at named
      exact Option.some.inj named ▸ generatedName_writable depth (Nat.lt_of_lt_of_le less few)

/-- The argument, the label and the jump of a function get names that can be written. -/
theorem rename_gives_no_reserved_word_loop :
    let parsed := parse "x=>\x7by:for(;;)break y\x7d" {}
    let renamed := rename {} parsed.tree parsed.scopes [parsed.root]
    (∃ name ∈ (renamed.scopes.field ⟨0⟩).crunchedName, isReservedWord name = false) ∧
      (∃ label ∈ (renamed.tree.form ⟨3⟩).label?, isReservedWord label = false) ∧
      ∃ short ∈ (renamed.tree.form ⟨1⟩).jumpLabel?, isReservedWord short = false := by
  intro parsed renamed
  obtain ⟨fields, labels⟩ := rename_gives_no_reserved_word "x=>\x7by:for(;;)break y\x7d" {} rfl
  have facts : (renamed.scopes.field ⟨0⟩).crunchedName = some "n" ∧ (renamed.tree.form ⟨3⟩).label? = some "n" ∧
      (renamed.tree.form ⟨1⟩).jumpLabel? = some "n" ∧ ⟨3⟩ ∈ parsed.tree.descendants parsed.root ∧
      ⟨1⟩ ∈ parsed.tree.descendants parsed.root ∧ (parsed.tree.labelsAround ⟨3⟩).length < 56 ∧
      (parsed.tree.labelsAround ⟨1⟩).length ≤ 56 ∧ (parsed.tree.form ⟨1⟩).jumpLabel? = some "y" ∧
      (parsed.tree.labelTarget? ⟨1⟩ "y").isSome := by
    decide +kernel
  obtain ⟨field, label, jump, outer, inner, above, within, leads, resolved⟩ := facts
  exact ⟨⟨_, field, fields _ _ field⟩, ⟨_, label, (labels rfl _ outer).1 above _ label⟩,
    ⟨_, jump, (labels rfl _ inner).2 within _ leads resolved _ jump⟩⟩

end Condense
