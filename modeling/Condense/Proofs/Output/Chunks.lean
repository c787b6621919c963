import Condense.Output.Emission

/-!
Chunks that are written one after the other make the text that their statements make in one chunk: what separates two
chunks is what separates two statements.
-/

namespace Condense

namespace Printer

variable (p : Printer) (c : Style)

theorem statements_append (isOpen : Bool) (first second : List NodeId) :
    p.statements c isOpen true (first ++ second) =
      after (p.statements c isOpen true first).1 (p.statements c (p.statements c isOpen true first).2 true second) := by
  induction first generalizing isOpen with
  | nil => rfl
  | cons id rest ih => simp [statements, ih, after]

/-- The first statement of a chunk is separated from what stands before it like any other. -/
theorem statements_separated (isOpen : Bool) {items : List NodeId} (some : items.isEmpty = false) :
    after ((if isOpen then [.token ";"] else []) ++ c.newLine) (p.statements c false false items) =
      p.statements c isOpen true items := by
  cases items with
  | nil => cases some
  | cons id rest => simp [statements, after]

/-- Chunks are one list of statements, of which the empty ones are no part. -/
theorem chunks_eq_statements (isOpen : Bool) (lists : List (List NodeId)) :
    p.chunks c isOpen lists = p.statements c isOpen true lists.flatten := by
  induction lists generalizing isOpen with
  | nil => rfl
  | cons items rest ih =>
    rw [chunks, List.flatten_cons]
    cases none : items.isEmpty with
    | true =>
      rw [List.isEmpty_iff.mp none]
      exact ih isOpen
    | false =>
      rw [statements_append, ← statements_separated p c isOpen none]
      simp [after, ih]

end Printer

theorem Style.visible_flatMap (c : Style) (roots : List NodeId) (f : NodeId → List NodeId) :
    c.visible (roots.flatMap f) = roots.flatMap fun root => c.visible (f root) :=
  List.filter_flatMap ..

/-- Chunks give the same code, mappings and diagnostics as one program with all their statements. -/
theorem emit_joined_chunks (tree : Tree) (scopes : ScopeTree) (settings : Settings) (roots : List NodeId) (whole : NodeId)
    (scope : ScopeId) (joined : tree.form whole = .program (roots.flatMap tree.statements) scope) :
    emit tree scopes settings roots = emit tree scopes settings [whole] := by
  have list : tree.statements whole = roots.flatMap tree.statements := by
    simp [Tree.statements, joined, Form.statementList?]
  have shown (c : Style) (same : c.tree = tree) :
      roots.flatMap (fun root => c.visible (c.tree.statements root)) = c.visible (c.tree.statements whole) := by
    rw [same, list, c.visible_flatMap]
  unfold emit
  dsimp only
  split
  · simp only [emitJson, List.flatMap_cons, List.flatMap_nil, List.append_nil, shown]
  · simp only [emitCode, Printer.chunks_eq_statements, List.map_cons, List.map_nil, List.flatten_cons, List.flatten_nil,
      List.append_nil, ← List.flatMap_def, shown]

/-- The statement of the first chunk gets its semicolon from the second. -/
theorem emit_joined_chunks_debugger :
    let tree : Tree := { nodes := #[⟨.debugger, {}, none⟩, ⟨.program [⟨0⟩] ScopeTree.global, {}, none⟩,
      ⟨.debugger, {}, none⟩, ⟨.program [⟨2⟩] ScopeTree.global, {}, none⟩,
      ⟨.program [⟨0⟩, ⟨2⟩] ScopeTree.global, {}, none⟩] }
    (emit tree {} {} [⟨1⟩, ⟨3⟩]).code = "debugger;debugger" ∧ emit tree {} {} [⟨1⟩, ⟨3⟩] = emit tree {} {} [⟨4⟩] := by
  intro tree
  exact ⟨by decide +kernel, emit_joined_chunks tree {} {} [⟨1⟩, ⟨3⟩] ⟨4⟩ ScopeTree.global rfl⟩

end Condense
