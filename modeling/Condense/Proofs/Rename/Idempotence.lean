import Condense.Proofs.Compilation.References
import Condense.Proofs.Rename.Properties
import Condense.Proofs.Rename.Stability

/-!
Renaming is idempotent. Whatever chunks were added and analyzed, the scopes are linked and the chunks are proper trees
that have no nodes in common.
-/

namespace Condense

namespace ScopeTree

def renameFields (t : ScopeTree) (settings : Settings) : ScopeTree × Nat :=
  let (t, paired) := t.applyRenamePairs settings
  let (t, shortened) := if settings.renamesLocals then t.shortenNames settings else (t, 0)
  (t, paired + shortened)

theorem Linked.renameFields_again {t : ScopeTree} (linked : t.Linked) (settings : Settings) :
    (t.renameFields settings).1.renameFields settings = ((t.renameFields settings).1, 0) := by
  have pairs := paired_applyRenamePairs settings t
  have linked := (applyRenamePairs_renaming settings t).linked linked
  unfold renameFields
  by_cases locals : settings.renamesLocals
  · simp only [locals, if_true, pairs.shortenNames.applyRenamePairs, linked.shortenNames_again]
  · simp only [locals, Bool.false_eq_true, if_false, pairs.applyRenamePairs]

end ScopeTree

namespace Tree

theorem renameNodes_again {t : Tree} {settings : Settings} {roots : List NodeId}
    (rooted : ∀ root ∈ roots, t.Rooted root) (distinct : roots.Nodup)
    (final : ∀ name target, settings.renameTarget? name = some target → settings.renameTarget? target = none) :
    (t.renameNodes settings roots).tree.renameNodes settings roots =
      { tree := (t.renameNodes settings roots).tree } := by
  obtain ⟨t₁, relabels, result, retitling⟩ := renameNodes_forms settings rooted distinct
  have settled (on : (settings.manualRenamesProperties && settings.allows .propertyRenaming)) :
      ∀ root ∈ roots, ∀ id ∈ (t.renameNodes settings roots).tree.descendants root,
        (t.renameNodes settings roots).tree.PropertySettled settings id := by
    rw [result, if_pos on]
    exact (renameProperties_settled (fun root member => relabels.links.rooted (rooted root member)) final).2
  generalize (t.renameNodes settings roots).tree = t₂ at retitling settled
  have first : (if settings.renamesLocals then Changed.each roots renameLabels t₂ else { tree := t₂ } : Changed) =
      { tree := t₂ } := by
    split
    · rename_i locals
      refine renameLabels_again rooted fun root member => retitling.numbered (relabels.numbered fun x inside => ?_)
      rw [if_pos locals]
      exact List.mem_flatMap.2 ⟨root, member, inside⟩
    · rfl
  have second : (if settings.manualRenamesProperties && settings.allows .propertyRenaming then
      Changed.each roots (renameProperties settings) t₂ else { tree := t₂ } : Changed) = { tree := t₂ } := by
    split
    · rename_i on
      exact renameProperties_again (settled on)
    · rfl
  simp only [renameNodes, Changed.andThen, first, second]

end Tree

theorem rename_eq (settings : Settings) (t : Tree) (scopes : ScopeTree) (roots : List NodeId) :
    rename settings t scopes roots =
      { tree := (t.renameNodes settings roots).tree
        scopes := (scopes.renameFields settings).1
        changes := (scopes.renameFields settings).2 + (t.renameNodes settings roots).changes } :=
  rfl

/-- However chunks were added and analyzed before, and whatever settings they were parsed with, a second renaming
changes no node and no field and counts no change, if the settings ask for no other name of a name they ask for. -/
theorem rename_again (parsing settings : Settings) (calls : List Compilation.Call)
    (final : ∀ name target, settings.renameTarget? name = some target → settings.renameTarget? target = none) :
    let c := calls.foldl Compilation.perform { settings := parsing }
    let r := rename settings c.tree c.scopes c.roots
    rename settings r.tree r.scopes c.roots = { r with changes := 0 } := by
  intro c r
  obtain ⟨divided, ⟨linked, -, -, -⟩, -⟩ := Compilation.counted_perform parsing calls
  have rooted (root : NodeId) (member : root ∈ c.roots) : c.tree.Rooted root := by
    obtain ⟨part, among, rfl⟩ := List.mem_map.1 member
    obtain ⟨inside, top⟩ := divided.tops part among
    exact ⟨top, inside, fun id _ => divided.tied.tidy id⟩
  have nodes : r.tree.renameNodes settings c.roots = { tree := r.tree } :=
    Tree.renameNodes_again rooted divided.distinct final
  have fields : r.scopes.renameFields settings = (r.scopes, 0) := linked.renameFields_again settings
  rw [rename_eq, nodes, fields]
  rfl

set_option maxRecDepth 100000 in
/-- The first run changes four names, of a local variable, a label, its jump and a property. -/
theorem rename_again_local :
    let settings : Settings := { renamePairs := [("width", "w")] }
    let c := [Compilation.Call.add "a.js"
      "function f(count) \x7b outer: for (;;) \x7b break outer \x7d return count.width \x7d", .analyze].foldl
        Compilation.perform { settings }
    let r := rename settings c.tree c.scopes c.roots
    r.changes = 4 ∧ rename settings r.tree r.scopes c.roots = { r with changes := 0 } := by
  refine ⟨by decide +kernel, rename_again _ _ _ ?_⟩
  intro name target asked
  have only : target = "w" := by
    obtain ⟨before, after, split, -⟩ := List.lookup_eq_some_iff.1 asked
    have pair : (name, target) ∈ [("width", "w")] := by
      rw [show [("width", "w")] = before ++ (name, target) :: after from split]
      simp
    simp only [List.mem_singleton, Prod.mk.injEq] at pair
    exact pair.2
  rw [only]
  rfl

end Condense
