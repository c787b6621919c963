import Condense.Proofs.Statement.Printing
import Condense.Proofs.Statement.Reading

/-!
Statements that are printed as a program and parsed again are the same statements, up to empty statements and blocks
that their place does not need.
-/

namespace Condense

open List

namespace Stmt

theorem At.agrees {t t' : Tree} {s : Stmt} {id : NodeId} (here : s.At t id) (agrees : t.Agrees t') : s.At t' id := by
  refine here.transfer agrees.size.ge (fun i _ control => agrees.form_eq rfl ?_) fun e i here => here.agrees agrees
  intro name field type form
  rw [form] at control
  cases control

theorem Separate.chain {tokens : List Token} (separate : Separate tokens) : tokens.IsChain Token.Precedes := by
  induction tokens with
  | nil => exact .nil
  | cons t rest ih =>
    obtain ⟨⟨plain, first⟩, others⟩ := forall_mem_cons.mp separate
    refine isChain_cons.mpr ⟨fun u next => ?_, ih others⟩
    exact Token.precedes_of_isSeparate plain first (others u (mem_of_head? next)).2

/-- Statements are written as the tokens of the statements that are shown for them. -/
theorem AllAt.emit_renders {tree : Tree} {scopes : ScopeTree} {settings : Settings} {root : NodeId} {ids : List NodeId}
    {scope : ScopeId} {items : List Stmt} (form : tree.form root = .program ids scope) (all : AllAt tree items ids)
    (valid : ∀ item ∈ items, item.Valid) (code : settings.outputMode ≠ .json)
    (ownNames : ∀ i name field type, tree.form i = .lookup name (some field) type → scopes.outputName field = name) :
    ∃ pretty tokens, WritesAll (shownAll pretty items) tokens ∧
      Renders settings.inlineSafeStrings true tokens (emit tree scopes settings [root]).code.toList := by
  let c : Style := { settings, tree, scopes }
  have plain : c.Plain :=
    { allowsIn := rfl
      ownNames := by
        intro i name field type lookup
        cases field with
        | none => rfl
        | some field => exact ownNames i name field type lookup }
  have covers := upTo_covers plain (tree.size + 1)
  have kept : AllAt c.tree (Stmt.visible items) (c.visible ids) := AllAt.visible (c := c) all
  have each : ∀ item ∈ Stmt.visible items, ∀ id, item.At c.tree id → Shows settings.inlineSafeStrings
      ((Printer.ofTree c.tree).statement c id) (item.shown c.isPretty false) := fun item _ id here =>
    covers.statement 0 item id here (Nat.le_succ_of_le here.depth_le_size)
  obtain ⟨tokens, writes, spells, final⟩ := statements_shows kept each (fun same : false = true => by cases same) false
  rw [← shownAll_eq] at writes final
  generalize printed : (Printer.ofTree c.tree).statements c false false (c.visible ids) = output at spells final
  obtain ⟨pieces, isOpen⟩ := output
  have emitted : (emit tree scopes settings [root]).code = (emitCode c [root]).code := by
    have noJson : (settings.outputMode == .json) = false := by simpa using code
    simp [emit, noJson, c]
  obtain ⟨whole, writes, spells⟩ : ∃ whole, WritesAll (shownAll c.isPretty items) whole ∧
      Spells settings.inlineSafeStrings
        (pieces ++ if isOpen && (c.settings.termSemicolons || c.isPretty) then [.token ";"] else []) whole := by
    split
    · rename_i due
      exact ⟨_, final (.inr rfl) (Bool.and_eq_true_iff.mp due).1, spells.append (.single rfl)⟩
    · exact ⟨tokens, writes, by simpa using spells⟩
  have separate : Separate whole := by
    refine writes.separate fun item member _ inner => ?_
    obtain ⟨original, inside, -, rfl⟩ := mem_shownAll member
    exact (valid original inside).shown.separate inner
  refine ⟨c.isPretty, whole, writes, ?_⟩
  rw [emitted, emitCode_code c form printed fun piece member => ?_, String.toList_ofList]
  · refine spells.renders (fun t member => (separate t member).1) separate.chain (fun t next divides => ?_) none [] rfl
      fun _ _ _ => not_mem_nil
    have first := (separate t (mem_of_head? next)).2
    unfold Token.divides at divides
    split at divides <;> first | cases first | cases divides
  · exact spells.isPlain piece (mem_append_left _ member)

end Stmt

/-- Printing statements is inverted by parsing: on one line as on several, the text of a program is read without errors
as a program of statements that have the same normal form. -/
theorem parse_emit_statements {tree : Tree} {scopes : ScopeTree} {settings reading : Settings} {root : NodeId}
    {ids : List NodeId} {scope : ScopeId} {items : List Stmt} (form : tree.form root = .program ids scope)
    (here : Stmt.AllAt tree items ids) (valid : ∀ item ∈ items, item.Valid) (text : settings.outputMode ≠ .json)
    (ownNames : ∀ i name field type, tree.form i = .lookup name (some field) type → scopes.outputName field = name)
    (noMarkers : reading.hasReplacements = false) (code : reading.outputMode ≠ .json) :
    let parsed := parse (emit tree scopes settings [root]).code reading
    (∀ d ∈ parsed.diagnostics, d.isError = false) ∧ ∃ (ids' : List NodeId) (scope' : ScopeId) (items' : List Stmt),
      parsed.tree.form parsed.root = .program ids' scope' ∧ Stmt.AllAt parsed.tree items' ids' ∧
        Stmt.normalAll false items' = Stmt.normalAll false items := by
  intro parsed
  obtain ⟨pretty, tokens, writes, renders⟩ := here.emit_renders form valid text ownNames
  have validShown : ∀ item ∈ Stmt.shownAll pretty items, item.Valid := by
    intro item member
    obtain ⟨original, inside, -, rfl⟩ := Stmt.mem_shownAll member
    exact (valid original inside).shown
  have paired : ∀ item ∈ Stmt.shownAll pretty items, item.Paired := by
    intro item member
    obtain ⟨original, -, -, rfl⟩ := Stmt.mem_shownAll member
    exact original.paired_shown pretty false
  obtain ⟨mild, -, ids', scope', program, readAt⟩ := parse_of_list
    (P := fun t ids => Stmt.AllAt t (Stmt.shownAll pretty items) ids)
    (fun all agrees => all.imp fun _ _ _ here => here.agrees agrees) renders noMarkers code (by
      obtain ⟨-, reads⟩ := Parse.rulesUpTo_readsBack (4 * (emit tree scopes settings [root]).code.toList.length + 15)
      rw [← List.append_nil tokens]
      exact (Parse.statementList_readsAll reads ⟨validShown, paired, writes⟩ (.inl ⟨rfl, rfl⟩)).mono (by omega))
  exact ⟨mild, ids', scope', Stmt.shownAll pretty items, program, readAt,
    Stmt.normalAll_shownAll fun item _ => (item.normal_shown pretty).1 false⟩

/-- The braces around a branch that would take up the `else` are kept: the outer of two branches is read back with its
`else`, the inner one without. -/
theorem parse_emit_statements_else :
    let tree : Tree := { nodes := #[⟨.lookup "a" none .variable, {}, some ⟨8⟩⟩, ⟨.lookup "b" none .variable, {}, some ⟨4⟩⟩,
      ⟨.lookup "c" none .function, {}, some ⟨3⟩⟩, ⟨.call ⟨2⟩ [] false false, {}, some ⟨4⟩⟩, ⟨.ifStatement ⟨1⟩ ⟨3⟩ none, {}, some ⟨6⟩⟩,
      ⟨.empty, {}, some ⟨6⟩⟩, ⟨.block [⟨5⟩, ⟨4⟩] none false, {}, some ⟨8⟩⟩, ⟨.lookup "d" none .variable, {}, some ⟨8⟩⟩,
      ⟨.ifStatement ⟨0⟩ ⟨6⟩ (some ⟨7⟩), {}, some ⟨9⟩⟩, ⟨.program [⟨8⟩] ScopeTree.global, {}, none⟩] }
    let item : Stmt := .ifElse (.name "a") (.block [.empty, .ifThen (.name "b") (.expression (.call "c" []))])
      (.expression (.name "d"))
    let parsed := parse (emit tree {} {} [⟨9⟩]).code {}
    (∀ d ∈ parsed.diagnostics, d.isError = false) ∧ ∃ (ids' : List NodeId) (scope' : ScopeId) (items' : List Stmt),
      parsed.tree.form parsed.root = .program ids' scope' ∧ Stmt.AllAt parsed.tree items' ids' ∧
        Stmt.normalAll false items' = Stmt.normalAll false [item] := by
  intro tree item
  have a : (Token.identifier "a" false).Plain := ⟨by decide, by decide, rfl⟩
  have b : (Token.identifier "b" false).Plain := ⟨by decide, by decide, rfl⟩
  have c : (Token.identifier "c" false).Plain := ⟨by decide, by decide, rfl⟩
  have d : (Token.identifier "d" false).Plain := ⟨by decide, by decide, rfl⟩
  have valid : ∀ other ∈ [item], other.Valid := by
    refine List.forall_mem_singleton.mpr ⟨a, ⟨trivial, ⟨b, c, ?_⟩, trivial⟩, d⟩
    exact fun arg member => absurd member List.not_mem_nil
  have ifThen : (Stmt.ifThen (.name "b") (.expression (.call "c" []))).At tree ⟨4⟩ :=
    ⟨⟨1⟩, ⟨3⟩, rfl, ⟨none, .variable, rfl⟩, ⟨2⟩, [], rfl, ⟨none, .function, rfl⟩, rfl⟩
  have whole : item.At tree ⟨8⟩ :=
    ⟨⟨0⟩, ⟨6⟩, ⟨7⟩, rfl, ⟨none, .variable, rfl⟩,
      ⟨[⟨5⟩, ⟨4⟩], rfl, ⟨5⟩, [⟨4⟩], rfl, ⟨by decide, rfl⟩, ⟨4⟩, [], rfl, ifThen, rfl⟩, none, .variable, rfl⟩
  have ownNames : ∀ i name field type, tree.form i = .lookup name (some field) type →
      ({} : ScopeTree).outputName field = name := by
    rintro ⟨i⟩ name field type lookup
    rcases i with _ | _ | _ | _ | _ | _ | _ | _ | _ | _ | i
    all_goals simp [tree, Tree.form, Tree.node?] at lookup
  have program : tree.form ⟨9⟩ = .program [⟨8⟩] ScopeTree.global := rfl
  exact parse_emit_statements program ⟨⟨8⟩, [], rfl, whole, rfl⟩ valid (by decide) ownNames (by decide)
    (by decide)

end Condense
