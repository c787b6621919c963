import Condense.Minify.Combine
import Condense.Minify.DeadCode
import Condense.Minify.Debug
import Condense.Minify.Literals
import Condense.Minify.Shorten

/-!
All passes in their order.
-/

namespace Condense

def runPasses (settings : Settings) (scopes : ScopeTree) (t : Tree) (root : NodeId) : Changed :=
  let debug :=
    if settings.stripDebugStatements && settings.allows .stripDebugStatements then
      Debug.run settings root t
    else { tree := t }
  let shortened := (debug.andThen (Literals.run settings root)).andThen (Shorten.run settings scopes root)
  let pruned :=
    if settings.removeUnneededCode then shortened.andThen (DeadCode.run settings scopes root)
    else shortened
  pruned.andThen (Combine.run settings root)

def runAllPasses (settings : Settings) (scopes : ScopeTree) (roots : List NodeId) (t : Tree) : Changed :=
  Changed.each roots (runPasses settings scopes) t

end Condense
