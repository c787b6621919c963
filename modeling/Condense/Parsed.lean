import Condense.Grammar.Chunk
import Condense.Scope.Resolution

/-!
A source text parsed on its own, with its names resolved.
-/

namespace Condense

structure Parsed where
  tree : Tree
  scopes : ScopeTree
  root : NodeId
  diagnostics : List Diagnostic
  /-- Where the input ended in the middle of a construct. -/
  abortedAt : Option (UInt32 × UInt32)
  /-- Whether the steps that parsing may take ran out before it was done. -/
  isExhausted : Bool

def parse (source : String) (settings : Settings) : Parsed :=
  let (chunk, tree, scopes) := parseChunk source "input" settings {} {}
  let resolved := resolveNames settings tree scopes chunk.root
  { tree := resolved.tree
    scopes := resolved.scopes
    root := chunk.root
    diagnostics := chunk.diagnostics ++ resolved.diagnostics.toList
    abortedAt := chunk.abortedAt
    isExhausted := chunk.isExhausted }

/-- How an input that ended too early is described. -/
def abortText (place : UInt32 × UInt32) : String :=
  "unexpected end of input at " ++ toString place.1 ++ ":" ++ toString place.2

end Condense
