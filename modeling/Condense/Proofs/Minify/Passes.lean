import Condense.Compilation
import Condense.Proofs.Meaning.Combine
import Condense.Proofs.Meaning.DeadCode
import Condense.Proofs.Minify.Expressions
import Condense.Proofs.Rename.Properties

/-!
Whatever passes run over a parsed text, in whatever order and with whatever settings, what is below its root stays a
proper tree.
-/

namespace Condense

variable {root : NodeId} {t : Tree}

theorem rename_proper (settings : Settings) (scopes : ScopeTree) (proper : t.Proper root) :
    (rename settings t scopes [root]).tree.Proper root := by
  obtain ⟨t₁, relabels, -, retitling⟩ := Tree.renameNodes_forms settings
    (show ∀ x ∈ [root], t.Rooted x by simpa using proper.rooted) (List.nodup_singleton root)
  obtain ⟨statements, scope, program⟩ := proper.program
  have same : t₁.form root = t.form root := by
    by_cases inside : root ∈ if settings.renamesLocals then [root].flatMap t.descendants else []
    · rw [relabels.inside root inside, program]
      rfl
    · exact relabels.outside root inside
  refine proper.congr (relabels.links.trans retitling.links) ((retitling.form root).isProgram ?_)
  exact ⟨statements, scope, same.trans program⟩

theorem runPasses_proper (settings : Settings) (scopes : ScopeTree) (proper : t.Proper root) :
    (runPasses settings scopes t root).tree.Proper root := by
  unfold runPasses
  have start : (if settings.stripDebugStatements && settings.allows .stripDebugStatements then
      Debug.run settings root t else { tree := t }).tree.Proper root := by
    split
    · exact Debug.run_proper settings proper
    · exact proper
  generalize (if settings.stripDebugStatements && settings.allows .stripDebugStatements then
    Debug.run settings root t else { tree := t }) = debugged at start
  have shortened := Shorten.run_proper settings scopes (Literals.run_proper settings start)
  rw [Changed.andThen_tree]
  refine (Combine.run_refines settings ?_).proper
  split
  · rw [Changed.andThen_tree]
    exact (DeadCode.run_refines settings scopes shortened).proper
  · exact shortened

/-- Parsing, resolving, shortening and renaming one text leaves a proper tree below its program node. -/
theorem Compilation.minify_proper (settings : Settings) (source : String) :
    let added := ({ settings } : Compilation).add "input" source
    added.2.minify.2.tree.Proper added.1 := by
  have resolved := parse_proper source settings
  dsimp only [parse, add] at resolved ⊢
  generalize parseChunk source "input" settings {} {} = chunk at resolved ⊢
  unfold minify
  generalize analyzed : analyze _ = c
  have roots : c.roots = [chunk.1.root] := by
    rw [← analyzed]
    rfl
  have tree : c.tree.Proper chunk.1.root := by
    rw [← analyzed]
    exact resolved
  dsimp only
  rw [roots]
  refine rename_proper _ _ ?_
  split
  · exact runPasses_proper _ _ tree
  · exact tree

/-- What can be run over a parsed text. -/
inductive Pass
  | debug
  | literals
  | shorten
  | deadCode
  | combine
  | rename

def Pass.run (settings : Settings) (root : NodeId) (t : Tree) (scopes : ScopeTree) : Pass → Tree × ScopeTree
  | debug => ((Debug.run settings root t).tree, scopes)
  | literals => ((Literals.run settings root t).tree, scopes)
  | shorten => ((Shorten.run settings scopes root t).tree, scopes)
  | deadCode => ((DeadCode.run settings scopes root t).tree, scopes)
  | combine => ((Combine.run settings root t).tree, scopes)
  | rename => ((Condense.rename settings t scopes [root]).tree, (Condense.rename settings t scopes [root]).scopes)

theorem Pass.run_proper (pass : Pass) (settings : Settings) (scopes : ScopeTree)
    (proper : t.Proper root) : (pass.run settings root t scopes).1.Proper root := by
  cases pass <;> dsimp only [Pass.run]
  case debug => exact Debug.run_proper settings proper
  case literals => exact Literals.run_proper settings proper
  case shorten => exact Shorten.run_proper settings scopes proper
  case deadCode => exact (DeadCode.run_refines settings scopes proper).proper
  case combine => exact (Combine.run_refines settings proper).proper
  case rename => exact rename_proper settings scopes proper

def Pass.runAll (calls : List (Pass × Settings)) (root : NodeId) (t : Tree) (scopes : ScopeTree) : Tree × ScopeTree :=
  calls.foldl (fun s call => call.1.run call.2 root s.1 s.2) (t, scopes)

theorem Pass.runAll_proper (calls : List (Pass × Settings)) (scopes : ScopeTree)
    (proper : t.Proper root) : (Pass.runAll calls root t scopes).1.Proper root :=
  List.foldlRecOn (motive := fun s : Tree × ScopeTree => s.1.Proper root) _ _ proper
    fun s proper call _ => call.1.run_proper call.2 s.2 proper

/-- Every pass keeps the tree of a parsed text a tree: after any passes with any settings the way down comes to an end
and starts with the root, every child is linked to the node that holds it, nothing holds the root, and no node is met
twice. -/
theorem passes_keep_tree (source : String) (settings : Settings) (calls : List (Pass × Settings)) :
    let p := parse source settings
    let t := (Pass.runAll calls p.root p.tree p.scopes).1
    p.root ∈ t.descendants p.root ∧ t.linksAgree p.root = true ∧ t.parent? p.root = none ∧ (t.descendants p.root).Nodup := by
  intro p t
  have proper : t.Proper p.root := Pass.runAll_proper calls p.scopes (parse_proper source settings)
  exact ⟨proper.rooted.root_mem_descendants, proper.rooted.linksAgree, proper.rooted.top, proper.rooted.descendants_nodup⟩

end Condense
