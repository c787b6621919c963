import Condense.Proofs.Expression.Phrase
import Condense.Proofs.Expression.Printing
import Condense.Proofs.Expression.Statement

/-!
An expression that is printed as a program and parsed again is the same expression, up to parentheses and the nesting
of chains of one associative operator.
-/

namespace Condense

open List

namespace Parse

variable {rest : List Token} {n : Nat}

/-- A program of one statement is read as this statement. -/
theorem statementList_of_item {rules : Rules} {t : Token} {here : Tree → NodeId → Prop} (opens : t.opens)
    (item : Reads true n (rules .item) (t :: rest) [] here) :
    Reads true n (statementList rules none true) (t :: rest) [] fun t result =>
      result.2 = none ∧ ∃ id, result.1 = [id] ∧ here t id := by
  rw [statementList, reverse_nil]
  refine reads_cycle (listStep_item ?_ ?_ item (by simp) fun id _ => ?_)
  · exact Bool.eq_false_iff.mpr fun isEnd => by cases t <;> first | (cases isEnd; done) | cases opens
  · intro p same
    rw [headD_cons] at same
    refine ⟨by simp, ?_⟩
    rintro rfl
    rw [Token.eq_of_is same] at opens
    cases opens
  · exact listStep_last (.inl rfl) fun t here => ⟨rfl, id, rfl, here⟩

theorem statementList_reads {source : List Char} {e : Expr} (valid : e.Valid) (ends : EndsStatement rest []) :
    Reads true source.length (statementList (rulesFor source) none true) (e.bare ++ rest) [] fun t result =>
      result.2 = none ∧ ∃ id, result.1 = [id] ∧ e.reread.At t id := by
  obtain ⟨t, more, first, opens⟩ := e.opens_bare
  have read := statement_reads (rulesUpTo_reads (4 * source.length + 15)) valid ends
  rw [first] at read ⊢
  exact statementList_of_item opens (item_of_statement (Token.declares_of_opens opens) (read.mono (by omega)))

end Parse

namespace Expr

/-- The tokens of an expression as the only statement of a program. -/
def program (settings : Settings) (e : Expr) : List Token :=
  e.bare ++ if settings.termSemicolons then [.punctuator .semicolon] else []

/-- A program of one expression is written on one line as the tokens of that expression. -/
theorem At.emit_renders {tree : Tree} {scopes : ScopeTree} {settings : Settings} {root id : NodeId} {scope : ScopeId}
    {e : Expr} (form : tree.form root = .program [id] scope) (here : e.At tree id) (valid : e.Valid)
    (oneLine : settings.outputMode = .singleLine)
    (ownNames : ∀ i name field type, tree.form i = .lookup name (some field) type → scopes.outputName field = name) :
    Renders settings.inlineSafeStrings true (e.program settings)
      (emit tree scopes settings [root]).code.toList := by
  let c : Style := { settings, tree, scopes }
  have notPretty : c.isPretty = false := by simp [c, Style.isPretty, oneLine]
  have plain : c.Plain :=
    { allowsIn := rfl
      ownNames := by
        intro i name field type lookup
        cases field with
        | none => rfl
        | some field => exact ownNames i name field type lookup }
  let pieces := (Printer.upTo (tree.size + 1)).expression c id .comma
  have spells : Spells settings.inlineSafeStrings pieces e.bare :=
    e.tokens_comma ▸ here.prints plain (Nat.le_succ_of_le here.depth_le_size) .comma
  have printed : (Printer.ofTree c.tree).statements c false false (c.visible [id]) = (pieces, true) := by
    have statement : (Printer.ofTree c.tree).statement c id = (pieces, true) := here.statementAt
    have visible : c.visible [id] = [id] := here.visible
    rw [visible]
    simp [Printer.statements, statement, notPretty]
  have code : (emit tree scopes settings [root]).code = (emitCode c [root]).code := by
    simp [emit, oneLine, c]
  rw [code, emitCode_code c form printed spells.isPlain, String.toList_ofList, Bool.true_and]
  have all : Spells settings.inlineSafeStrings
      (pieces ++ if settings.termSemicolons || c.isPretty then [.token ";"] else []) (e.program settings) := by
    refine spells.append ?_
    rw [notPretty, Bool.or_false]
    split
    · exact .single rfl
    · exact .nil
  have phrase := valid.phrase
  have opens : ∃ t ∈ (e.program settings).head?, t.opens := by
    obtain ⟨t, head, opens⟩ := phrase.opens
    exact ⟨t, by rw [program, head?_append, Option.mem_def.mp head]; rfl, opens⟩
  have last : ∀ t ∈ (if settings.termSemicolons then [Token.punctuator .semicolon] else []), t.Plain := by
    split <;> simp [Token.Plain]
  have plainAll : ∀ t ∈ e.program settings, t.Plain := by
    simp only [program, mem_append, or_imp, forall_and]
    exact ⟨phrase.plain, last⟩
  have chain : (e.program settings).IsChain Token.Precedes := by
    refine isChain_append.mpr ⟨phrase.chain, ?_, fun t ends u _ => ?_⟩
    · split
      · exact .singleton _
      · exact .nil
    · obtain ⟨plain, closes⟩ := phrase.last_closes t ends
      exact Token.precedes_of_closes plain closes u
  refine all.renders plainAll chain (fun t next divides => ?_) none [] rfl fun _ _ _ => not_mem_nil
  obtain ⟨first, head, opens⟩ := opens
  obtain rfl : first = t := Option.mem_unique head next
  unfold Token.divides at divides
  split at divides <;> first | cases opens | cases divides

end Expr

/-- Printing an expression is inverted by parsing: the text of a program of one expression is read without errors as a
program of one expression, which is the same up to parentheses and the nesting of chains of one associative
operator. -/
theorem parse_emit_expression {tree : Tree} {scopes : ScopeTree} {settings reading : Settings} {root id : NodeId}
    {scope : ScopeId} {e : Expr} (form : tree.form root = .program [id] scope) (here : e.At tree id) (valid : e.Valid)
    (oneLine : settings.outputMode = .singleLine)
    (ownNames : ∀ i name field type, tree.form i = .lookup name (some field) type → scopes.outputName field = name)
    (noMarkers : reading.hasReplacements = false) (code : reading.outputMode ≠ .json) :
    let parsed := parse (emit tree scopes settings [root]).code reading
    (∀ d ∈ parsed.diagnostics, d.isError = false) ∧ ∃ (id' : NodeId) (scope' : ScopeId) (e' : Expr),
      parsed.tree.form parsed.root = .program [id'] scope' ∧ e'.At parsed.tree id' ∧ e'.canonical = e.canonical := by
  intro parsed
  have renders := here.emit_renders form valid oneLine ownNames
  obtain ⟨mild, -, ids, scope', program, id', rfl, readAt⟩ := parse_of_list
    (P := fun t ids => ∃ id, ids = [id] ∧ e.reread.At t id)
    (fun ⟨id, same, here⟩ agrees => ⟨id, same, here.agrees agrees⟩) renders noMarkers code
    (Parse.statementList_reads valid (by
      split
      · exact .semicolon []
      · exact .bare rfl))
  exact ⟨mild, id', scope', e.reread, program, readAt, e.canonical_reread⟩

/-- Signs that would fuse are kept apart: the difference of `a` and the negation of `--b` is read back. -/
theorem parse_emit_expression_signs :
    let tree : Tree := { nodes := #[⟨.lookup "a" none .variable, {}, some ⟨4⟩⟩, ⟨.lookup "b" none .variable, {}, some ⟨2⟩⟩,
      ⟨.update .decrement true ⟨1⟩, {}, some ⟨3⟩⟩, ⟨.unary .minus ⟨2⟩, {}, some ⟨5⟩⟩, ⟨.binary .sub ⟨0⟩ ⟨5⟩, {}, some ⟨6⟩⟩,
      ⟨.grouping ⟨3⟩, {}, some ⟨4⟩⟩, ⟨.program [⟨4⟩] ScopeTree.global, {}, none⟩] }
    let e : Expr := .binary .sub (.leaf (.name "a")) (.grouping (.unary .minus (.update .decrement true (.leaf (.name "b")))))
    let parsed := parse (emit tree {} {} [⟨6⟩]).code {}
    (∀ d ∈ parsed.diagnostics, d.isError = false) ∧ ∃ (id' : NodeId) (scope' : ScopeId) (e' : Expr),
      parsed.tree.form parsed.root = .program [id'] scope' ∧ e'.At parsed.tree id' ∧ e'.canonical = e.canonical := by
  intro tree e
  have here : e.At tree ⟨4⟩ :=
    ⟨⟨0⟩, ⟨5⟩, rfl, ⟨none, .variable, rfl⟩, ⟨3⟩, rfl, ⟨2⟩, rfl, ⟨1⟩, rfl, none, .variable, rfl⟩
  have valid : e.Valid := by
    have a : (Token.identifier "a" false).Plain := ⟨by decide, by decide, rfl⟩
    have b : (Token.identifier "b" false).Plain := ⟨by decide, by decide, rfl⟩
    exact ⟨a, ⟨b, rfl⟩, fun assigns => by cases assigns⟩
  have ownNames : ∀ i name field type, tree.form i = .lookup name (some field) type →
      ({} : ScopeTree).outputName field = name := by
    rintro ⟨i⟩ name field type lookup
    rcases i with _ | _ | _ | _ | _ | _ | _ | i
    all_goals simp [tree, Tree.form, Tree.node?] at lookup
  exact parse_emit_expression rfl here valid rfl ownNames (by decide) (by decide)

end Condense
