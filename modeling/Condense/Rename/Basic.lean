import Condense.Rename.Fields
import Condense.Rename.Labels

/-!
Renaming of fields, labels and properties.
-/

namespace Condense

structure Renamed where
  tree : Tree
  scopes : ScopeTree
  changes : Nat

def rename (settings : Settings) (t : Tree) (scopes : ScopeTree) (roots : List NodeId) : Renamed :=
  let (scopes, paired) := scopes.applyRenamePairs settings
  let (scopes, shortened) :=
    if settings.renamesLocals then scopes.shortenNames settings else (scopes, 0)
  let labels : Changed :=
    if settings.renamesLocals then Changed.each roots Tree.renameLabels t else { tree := t }
  let properties := labels.andThen fun t =>
    if settings.manualRenamesProperties && settings.allows .propertyRenaming then
      Changed.each roots (Tree.renameProperties settings) t
    else { tree := t }
  { tree := properties.tree, scopes, changes := paired + shortened + properties.changes }

end Condense
