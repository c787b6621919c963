import Condense.Proofs.Expression.Statement
import Condense.Proofs.Statement.Text

/-!
Reading back a statement that was written: every rule finds the tokens that it asks for, no scope of a block is kept,
and each `else` is taken up by the `if` that it was written for.
-/

namespace Condense

open List Stmt

variable {items list : List Stmt} {test : Simple} {body : Stmt} {init : Option String} {stop : Option Punctuator}

namespace ScopeTree

theorem pushScope_spares (t : ScopeTree) (kind : ScopeKind) (parent : ScopeId) :
    t.Spares (t.pushScope kind parent).2 := by
  let scope : Scope := { kind, parent := some parent, useStrict := (t.scope parent).useStrict }
  have old (id : ScopeId) (range : id.index < t.scopes.size) :
      ({ t with scopes := t.scopes.push scope } : ScopeTree).scope id = t.scope id := by
    simp [ScopeTree.scope, Array.getElem?_push, Nat.ne_of_lt range]
  have pushed : t.Spares { t with scopes := t.scopes.push scope } :=
    { size := by simp
      fields := fun id range => by rw [old id range]
      kind := fun id range => by rw [old id range]
      isNameScope := fun id range => by rw [old id range]
      parent := fun id range inner => by rwa [old id range] }
  exact pushed.trans (.modifyScope _ parent fun _ => ⟨rfl, rfl, rfl, fun inner => inner⟩)

theorem pushScope_fresh (t : ScopeTree) (kind : ScopeKind) (parent : ScopeId) :
    let scope := (t.pushScope kind parent).2.scope (t.pushScope kind parent).1
    scope.fields = #[] ∧ scope.kind = kind ∧ scope.isNameScope = false ∧ scope.parent.isSome := by
  simp only [pushScope, modifyScope_scope]
  split <;> simp [ScopeTree.scope]

theorem collapseIfEmpty_spares (t : ScopeTree) (id : ScopeId) : t.Spares (t.collapseIfEmpty id).2 := by
  have moved (children : List ScopeId) (parent : ScopeId) (t : ScopeTree) :
      t.Spares (children.foldl (fun t child => t.modifyScope child fun s => { s with parent := some parent }) t) := by
    induction children generalizing t with
    | nil => exact .refl t
    | cons child rest ih =>
      refine Spares.trans ?_ (ih _)
      exact .modifyScope t child fun _ => ⟨rfl, rfl, rfl, fun _ => rfl⟩
  dsimp only [collapseIfEmpty]
  split
  · exact .refl t
  · split
    · exact .refl t
    · refine Spares.trans ?_ (.modifyScope _ id fun _ => ⟨rfl, rfl, rfl, fun inner => inner⟩)
      refine Spares.trans ?_ (.modifyScope _ _ fun _ => ⟨rfl, rfl, rfl, fun inner => inner⟩)
      refine Spares.trans ?_ (moved _ _ _)
      exact .modifyScope t id fun _ => ⟨rfl, rfl, rfl, fun inner => inner⟩

theorem collapseIfEmpty_dropped {t : ScopeTree} {id : ScopeId} (fields : (t.scope id).fields = #[])
    (kind : (t.scope id).kind = .block) (isNameScope : (t.scope id).isNameScope = false)
    (inner : (t.scope id).parent.isSome) : (t.collapseIfEmpty id).1 := by
  obtain ⟨parent, link⟩ := Option.isSome_iff_exists.mp inner
  simp [collapseIfEmpty, fields, kind, isNameScope, link]

end ScopeTree

namespace Parse

/-- A scope in which nothing is declared is dropped again. -/
theorem reads_inBlockScope {α : Type} {x : Parse α} {input rest : List Token} {b : Bool} {n : Nat} {here : Tree → α → Prop}
    (inner : Reads b n x input rest here) :
    Reads b n (inBlockScope x) input rest fun t result => result.2 = none ∧ here t result.1 := by
  intro s awaits few
  let pushed := s.scopes.pushScope .block s.context.scope
  let s₁ : ParseState := { s with scopes := pushed.2, context := { s.context with scope := pushed.1 } }
  obtain ⟨a, s₂, run, passes, holds⟩ := inner s₁ ⟨awaits.toStands.beside, awaits.allowed⟩ few
  have opened := s.scopes.pushScope_spares .block s.context.scope
  obtain ⟨fields, kind, isNameScope, link⟩ := s.scopes.pushScope_fresh .block s.context.scope
  have inside : pushed.1.index < pushed.2.scopes.size := by
    rw [ScopeTree.pushScope_size]
    exact Nat.lt_succ_self _
  have dropped : (s₂.scopes.collapseIfEmpty pushed.1).1 :=
    ScopeTree.collapseIfEmpty_dropped ((passes.scopes.fields _ inside).trans fields)
      ((passes.scopes.kind _ inside).trans kind) ((passes.scopes.isNameScope _ inside).trans isNameScope)
      (passes.scopes.parent _ inside link)
  have attempted : attempt (withScope pushed.1 x) { s with scopes := pushed.2 } =
      .ok (.ok a) { s₂ with context := s.context } := by
    have afterwards : withScope pushed.1 x { s with scopes := pushed.2 } = .ok a { s₂ with context := s.context } := by
      show (x.afterwards fun s' => { s' with context := s.context }) s₁ = _
      simp only [Parse.afterwards, run]
    simp only [attempt, afterwards]
  have collapsed : onScopes (·.collapseIfEmpty pushed.1) { s₂ with context := s.context } =
      .ok true { s₂ with scopes := (s₂.scopes.collapseIfEmpty pushed.1).2, context := s.context } := by
    rw [← dropped]
    rfl
  refine ⟨(a, none), _, (bind_run rfl).trans ((bind_run rfl).trans ((bind_run attempted).trans ((bind_run collapsed).trans rfl))),
    ?_, fun t grows => ⟨rfl, holds t grows⟩⟩
  exact { passes with
      scopes := opened.trans (passes.scopes.trans (s₂.scopes.collapseIfEmpty_spares _))
      context := rfl
      stands := passes.stands.beside }

end Parse

namespace Stmt

/-- What may follow a statement: its semicolon if one is due, and no `else` that it would take up. -/
structure Followed (s : Stmt) (rest after : List Token) : Prop where
  ends : if s.isOpen then EndsStatement rest after else rest = after
  noElse : s.dangling = true → (after.headD .endOfInput).isWord .else = false

/-- A statement is ended by its own semicolon. -/
theorem ends_stop (s : Stmt) (rest : List Token) :
    if s.isOpen then EndsStatement (s.stop ++ rest) rest else s.stop ++ rest = rest := by
  unfold stop
  split
  · exact .semicolon rest
  · rfl

end Stmt

namespace Parse

open Stmt (Writes WritesAll Followed)

/-- A statement that can be read back from its tokens. -/
structure Written (st : Stmt) (tokens : List Token) : Prop where
  valid : st.Valid
  paired : st.Paired
  writes : Writes st tokens

/-- Whether the rule reads back all statements of up to so many tokens. -/
def ReadsBack (x : Parse NodeId) (n : Nat) : Prop :=
  ∀ ⦃st : Stmt⦄ ⦃tokens rest after : List Token⦄, Written st tokens → Followed st rest after →
    Reads true n x (tokens ++ rest) after st.At

variable {β : Type} {Q : Tree → β → Prop} {rules : Rules} {n : Nat} {rest after final tokens : List Token} {b : Bool}

theorem condition_reads (reads : ReadsUpTo rules n) (valid : test.Valid) :
    Reads true n (condition rules) (enclosed test.expr.bare ++ rest) rest test.expr.At := by
  have stops : StopsAt .comma (.punctuator .rParen :: rest) := .cons fun _ joins => by cases joins
  have inner := expression_reads reads valid.expr stops
  rw [test.reread_expr] at inner
  rw [enclosed_append]
  exact reads_expect fun _ => inner.bind fun _ => reads_expect fun _ => reads_pure fun _ here => here

theorem reads_eatSemicolon {f : Bool → Parse β} (ends : EndsStatement rest after)
    (then' : ∀ found, Reads b n (f found) after final Q) : Reads b n (eat .semicolon >>= f) rest final Q := by
  cases ends with
  | semicolon => exact reads_eat (then' true)
  | bare last =>
    refine reads_eat_of_ne ?_ (then' false)
    rcases nil_or_rBrace last with rfl | ⟨more, rfl⟩ <;> rfl

section Rules

variable (expressions : ReadsUpTo rules n) (statements : ReadsBack (rules .statement) n)

include statements in
theorem loopBody_reads (written : Written body tokens) (followed : Followed body rest after) :
    Reads true n (loopBody rules) (tokens ++ rest) after body.At :=
  reads_withContext (statements written followed) fun _ _ allowed => allowed rfl

include expressions in
theorem reads_head {word : Keyword} {f : Lexeme → NodeId → Parse β} (valid : test.Valid)
    (then' : ∀ l id, Reads true n (f l id) rest after fun t d => test.expr.At t id → Q t d) :
    Reads true (n + 1) (bump >>= fun l => condition rules >>= f l)
      (.keyword word :: (enclosed test.expr.bare ++ rest)) after Q :=
  reads_bump_less fun l => (condition_reads expressions valid).bind (then' l)

include expressions statements

theorem ifThen_reads (valid : test.Valid) (written : Written body tokens)
    (followed : Followed (.ifThen test body) rest after) :
    Reads true (n + 1) (ifStatement rules) (.keyword .if :: (enclosed test.expr.bare ++ (tokens ++ rest))) after
      (Stmt.ifThen test body).At := by
  have inside : Followed body rest after := ⟨followed.ends, fun _ => followed.noElse rfl⟩
  refine reads_head expressions valid fun l i => (statements written inside).bind fun j => ?_
  have noElse : Reads true n (optionally (isAtWord .else) (rules .statement)) after after fun _ found => found = none := by
    refine reads_isAtWord ?_
    rw [followed.noElse rfl]
    exact reads_pure fun _ => rfl
  exact noElse.value ((reads_allocFrom _ l.span).imp fun t _ form bodyAt testAt => ⟨i, j, form, testAt, bodyAt⟩)

theorem ifElse_reads {consequent alternate : Stmt} {others : List Token} (valid : test.Valid)
    (closed : consequent.dangling = false) (written : Written consequent tokens)
    (writtenAlternate : Written alternate others) (followed : Followed (.ifElse test consequent alternate) rest after) :
    Reads true (n + 1) (ifStatement rules) (.keyword .if :: (enclosed test.expr.bare ++
        (tokens ++ (consequent.stop ++ .keyword .else :: (others ++ rest))))) after
      (Stmt.ifElse test consequent alternate).At := by
  have first : Followed consequent (consequent.stop ++ .keyword .else :: (others ++ rest))
      (.keyword .else :: (others ++ rest)) :=
    ⟨consequent.ends_stop _, fun dangles => absurd (closed.symm.trans dangles) Bool.false_ne_true⟩
  have second : Followed alternate rest after := ⟨followed.ends, followed.noElse⟩
  refine reads_head expressions valid fun l i => (statements written first).bind fun j => ?_
  refine Reads.bind (P := fun t found => ∃ k, found = some k ∧ alternate.At t k) (reads_isAtWord (reads_bump fun _ =>
    (statements writtenAlternate second).bind fun k => reads_pure fun _ at' => ⟨k, rfl, at'⟩)) fun found => ?_
  refine (reads_allocFrom _ l.span).imp fun t _ form ⟨k, isSome, alternateAt⟩ consequentAt testAt => ?_
  exact ⟨i, j, k, isSome ▸ form, testAt, consequentAt, alternateAt⟩

theorem whileLoop_reads (valid : test.Valid) (written : Written body tokens)
    (followed : Followed (.whileLoop test body) rest after) :
    Reads true (n + 1) (whileStatement rules) (.keyword .while :: (enclosed test.expr.bare ++ (tokens ++ rest))) after
      (Stmt.whileLoop test body).At := by
  have inside : Followed body rest after := ⟨followed.ends, followed.noElse⟩
  refine reads_head expressions valid fun l i => (loopBody_reads statements written inside).bind fun j => ?_
  exact (reads_allocFrom _ l.span).imp fun t _ form bodyAt testAt => ⟨i, j, form, testAt, bodyAt⟩

theorem doWhile_reads (valid : test.Valid) (written : Written body tokens) (ends : EndsStatement rest after) :
    Reads true (n + 1) (doWhileStatement rules)
      (.keyword .do :: (tokens ++ (body.stop ++ .keyword .while :: (enclosed test.expr.bare ++ rest)))) after
      (Stmt.doWhile body test).At := by
  have first : Followed body (body.stop ++ .keyword .while :: (enclosed test.expr.bare ++ rest))
      (.keyword .while :: (enclosed test.expr.bare ++ rest)) :=
    ⟨body.ends_stop _, fun _ => rfl⟩
  refine reads_bump_less fun l => (loopBody_reads statements written first).bind fun i => reads_isAtWord ?_
  refine (reads_head expressions valid fun _ j => reads_eatSemicolon ends fun _ => ?_).mono (Nat.le_succ n)
  exact (reads_allocFrom _ l.span).imp fun t _ form testAt bodyAt => ⟨i, j, form, bodyAt, testAt⟩

omit expressions in
theorem labeled_reads {label : String} (written : Written body tokens)
    (followed : Followed (.labeled label body) rest after) :
    Reads true (n + 1) (labeledStatement rules label)
      (.identifier label false :: .punctuator .colon :: (tokens ++ rest)) after (Stmt.labeled label body).At := by
  refine reads_bump_less fun l => reads_bump fun _ => reads_token fun s awaits few => ?_
  let isLoop (t : Token) : Bool := t.isWord .for || t.isWord .while || t.isWord .do
  let inner : ParseState := { s with labels := (label, isLoop ((tokens ++ rest).headD .endOfInput)) :: s.labels }
  obtain ⟨i, s', run, passes, bodyAt⟩ := statements written ⟨followed.ends, followed.noElse⟩ inner
    ⟨awaits.toStands.beside, awaits.allowed⟩ few
  have restored : (rules .statement).afterwards (fun s' => { s' with labels := s.labels }) inner =
      .ok i { s' with labels := s.labels } := by
    simp only [afterwards, run]
  have through : s.Passes (tokens ++ rest) after { s' with labels := s.labels } :=
    { passes with labels := rfl, stands := passes.stands.beside }
  refine .of_run ((bind_run rfl).trans ((bind_run rfl).trans (bind_run restored))) through (.given ?_ bodyAt)
  exact (reads_allocFrom _ l.span).imp (fun t _ form bodyAt => ⟨i, form, bodyAt⟩) _ (awaits.after through)
    (Nat.le_trans through.fewer few)

end Rules

theorem name_reads {text : String} {depth : Nat} (stops : StopsAt .comma rest) :
    Reads b n (expression (rulesUpTo (depth + 1))) (.identifier text false :: rest) rest (Expr.leaf (.name text)).At := by
  have ends : StopsAt .coalesce rest := stops.mono rfl
  exact expression_of_binary rfl (reads_place fun _ => (unary_name (stops.mono rfl)).bind fun _ =>
    reads_cycle (climb_done ends.rank_lt)) stops

/-- Whether the rules read back every name. -/
def ReadsNames (rules : Rules) : Prop :=
  ∀ {b : Bool} {n : Nat} {text : String} {rest : List Token}, StopsAt .comma rest →
    Reads b n (expression rules) (.identifier text false :: rest) rest (Expr.leaf (.name text)).At

section Head

variable (names : ReadsNames rules)

include names

theorem forInit_reads : Reads b n (forInit rules) (partText init ++ .punctuator .semicolon :: rest)
    (.punctuator .semicolon :: rest) (Stmt.PartAt · init) := by
  refine reads_withContext (c := false) (reads_token ?_) fun asked => by cases asked
  cases init with
  | none => exact reads_pure fun _ => rfl
  | some name =>
    have stops : StopsAt .comma (.punctuator .semicolon :: rest) := .cons fun _ joins => by cases joins
    exact (names stops).bind fun i => reads_pure fun _ here => ⟨i, rfl, here⟩

theorem forPart_reads {part : Option String} {stop : Punctuator} (closes : (Token.punctuator stop).joinLevel? = none) :
    Reads b n (forPart rules stop) (partText part ++ .punctuator stop :: rest) rest (Stmt.PartAt · part) := by
  refine reads_isAt ?_
  cases part with
  | none =>
    simp only [partText, nil_append, headD_cons, Token.is, BEq.rfl, if_true]
    exact reads_expect fun _ => reads_pure fun _ => rfl
  | some name =>
    have stops : StopsAt .comma (.punctuator stop :: rest) := .cons fun _ joins => by rw [closes] at joins; cases joins
    exact (names stops).bind fun i => reads_expect fun _ => reads_pure fun _ here => ⟨i, rfl, here⟩

variable {step : Option String} {test : Option String} (statements : ReadsBack (rules .statement) n)
  (written : Written body tokens) (followed : Followed (.forLoop init test step body) rest after)

include statements written followed

theorem forRest_reads (start : Span) :
    Reads true n (forRest rules false start) (partText init ++ .punctuator .semicolon :: (partText test ++
      .punctuator .semicolon :: (partText step ++ .punctuator .rParen :: (tokens ++ rest)))) after
      (Stmt.forLoop init test step body).At := by
  have inside : Followed body rest after := ⟨followed.ends, followed.noElse⟩
  refine (forInit_reads names).bind fun i => reads_isAtName (reads_isAtWord (reads_expect fun _ => ?_))
  refine (forPart_reads names rfl).bind fun j => (forPart_reads names rfl).bind fun k => ?_
  refine (loopBody_reads statements written inside).bind fun l => (reads_allocFrom _ start).imp ?_
  exact fun t _ form bodyAt stepAt testAt initAt => ⟨i, j, k, l, form, initAt, testAt, stepAt, bodyAt⟩

theorem forLoop_reads :
    Reads true (n + 1) (forStatement rules) (.keyword .for :: .punctuator .lParen :: (partText init ++
      .punctuator .semicolon :: (partText test ++ .punctuator .semicolon :: (partText step ++
        .punctuator .rParen :: (tokens ++ rest))))) after (Stmt.forLoop init test step body).At := by
  refine reads_bump_less fun l => reads_isAtWord (reads_expect fun _ => ?_)
  refine (reads_inBlockScope (forRest_reads names statements written followed l.span)).bindAt ?_
  rintro ⟨id, scope⟩ s awaits - holds
  obtain ⟨rfl, i, j, k, m, form, -⟩ := holds _ (.refl _)
  -- The loop has no scope, so nothing is entered into its node.
  let tree := s.tree.modifyForm id (setLoopScope none)
  have unchanged (x : NodeId) : tree.form x = s.tree.form x := by
    rw [Tree.modifyForm_form]
    split
    · rename_i same
      rw [same.1, form]
      rfl
    · rfl
  have grows : s.tree.Grows tree := ⟨(Tree.modifyForm_size ..).ge, fun x _ => unchanged x⟩
  exact ⟨id, { s with tree }, rfl, { awaits.passes with tree := grows, stands := awaits.toStands.beside },
    fun t later => (holds t (grows.trans later)).2⟩

end Head

theorem starts_of_writesAll (writes : WritesAll items tokens) (rest : List Token) :
    Starts Token.starts (tokens ++ rest) ∨ items = [] ∧ tokens = [] := by
  cases writes with
  | nil => exact .inr ⟨rfl, rfl⟩
  | last writes => exact .inl (writes.starts.append rest)
  | cons writes _ => exact .inl ((writes.starts.append _).append rest)

/-- Where a list of statements ends: at the end of the text, or before the brace that closes it. -/
def ListEnds (stop : Option Punctuator) (rest : List Token) : Prop :=
  stop = none ∧ rest = [] ∨ stop = some .rBrace ∧ rest.head? = some (.punctuator .rBrace)

theorem ListEnds.bare (ends : ListEnds stop rest) : EndsStatement rest rest := by
  refine .bare ?_
  rcases ends with ⟨-, rfl⟩ | ⟨-, brace⟩
  · rfl
  · rw [brace]
    rfl

/-- Behind a statement of a list no `else` follows. -/
theorem ListEnds.noElse (ends : ListEnds stop rest)
    (writes : WritesAll items tokens) : ((tokens ++ rest).headD .endOfInput).isWord .else = false := by
  rcases starts_of_writesAll writes rest with ⟨t, more, same, starts⟩ | ⟨-, rfl⟩
  · rw [same]
    exact Token.not_isWord starts rfl
  · rcases ends with ⟨-, rfl⟩ | ⟨-, brace⟩
    · rfl
    · rw [nil_append, headD_eq_head?_getD, brace]
      rfl

/-- The first statement of a list, and the tokens behind it. -/
theorem first_of_writesAll {st : Stmt} (writes : WritesAll (st :: items) tokens) (ends : ListEnds stop rest) :
    ∃ own others following, Writes st own ∧ WritesAll items others ∧ tokens ++ rest = own ++ following ∧
      own.length + others.length ≤ tokens.length ∧ Followed st following (others ++ rest) := by
  cases writes with
  | last writes =>
    refine ⟨tokens, [], rest, writes, .nil, rfl, .refl, ?_, fun _ => ends.noElse .nil⟩
    split
    · exact ends.bare
    · rfl
  | @cons _ _ own others writes more =>
    refine ⟨own, others, st.stop ++ (others ++ rest), writes, more, by simp, ?_, st.ends_stop _,
      fun _ => ends.noElse more⟩
    simp only [length_append]
    omega

/-- Statements that can be read back from their tokens. -/
structure WrittenAll (list : List Stmt) (tokens : List Token) : Prop where
  valid : ∀ st ∈ list, st.Valid
  paired : ∀ st ∈ list, st.Paired
  writes : WritesAll list tokens

variable (reads : ReadsBack (rules .item) n)

include reads

theorem listSteps_read {done : List NodeId} {inPrologue : Bool} (written : WrittenAll list tokens)
    (ends : ListEnds stop rest) :
    Loops true n (listStep rules stop) (done, inPrologue) (tokens ++ rest) rest fun t result =>
      ∃ ids, result = (done.reverse ++ ids, none) ∧ Stmt.AllAt t list ids := by
  obtain ⟨valid, paired, writes⟩ := written
  induction list generalizing tokens done inPrologue with
  | nil =>
    cases writes
    refine listStep_last ?_ fun t => ⟨[], by simp, rfl⟩
    exact ends.imp And.right fun ⟨same, brace⟩ => ⟨.rBrace, same, brace⟩
  | cons st list ih =>
    obtain ⟨own, others, following, writesOwn, more, split, shorter, followed⟩ := first_of_writesAll writes ends
    obtain ⟨t, behind, head, starts⟩ := writesOwn.starts.append following
    have read := reads ⟨valid st (.head _), paired st (.head _), writesOwn⟩ followed
    have fewer : (others ++ rest).length < (own ++ following).length := by
      obtain ⟨u, rest', rfl, -⟩ := writesOwn.starts
      rw [← split]
      simp only [length_append, length_cons] at shorter ⊢
      omega
    rw [split]
    refine listStep_item ?_ ?_ read fewer fun id _ => ?_
    · rw [head]
      cases t <;> first | rfl | cases starts
    · rw [head]
      intro p same
      obtain rfl : t = .punctuator p := Token.eq_of_is same
      refine ⟨fun isStop => ?_, fun isBrace => by subst isBrace; cases starts⟩
      rcases ends with ⟨none, -⟩ | ⟨brace, -⟩
      · cases none.symm.trans isStop
      · cases brace.symm.trans isStop
        cases starts
    · refine (ih (fun st member => valid st (.tail _ member)) (fun st member => paired st (.tail _ member)) more).imp ?_
      rintro t _ ⟨ids, rfl, all⟩ here
      exact ⟨id :: ids, by simp, id, ids, rfl, here, all⟩

theorem statementList_readsAll {directives : Bool} (written : WrittenAll list tokens) (ends : ListEnds stop rest) :
    Reads true n (statementList rules stop directives) (tokens ++ rest) rest fun t result =>
      result.2 = none ∧ Stmt.AllAt t list result.1 := by
  refine (reads_cycle (listSteps_read reads written ends)).imp ?_
  rintro t _ ⟨ids, rfl, all⟩
  exact ⟨rfl, all⟩

theorem block_reads (written : WrittenAll list tokens) :
    Reads true (n + 1) (block rules) (.punctuator .lBrace :: (tokens ++ .punctuator .rBrace :: rest)) rest
      (Stmt.block list).At := by
  have inner : Reads true n (bracedStatements rules false) (tokens ++ .punctuator .rBrace :: rest)
      (.punctuator .rBrace :: rest) (Stmt.AllAt · list) := by
    refine (statementList_readsAll reads written (.inr ⟨rfl, rfl⟩)).bindKnown ?_
    rintro ⟨ids, failure⟩ rfl
    exact reads_pure fun _ all => all
  refine reads_expect_less fun l => (reads_inBlockScope inner).bindKnown ?_
  rintro ⟨ids, scope⟩ rfl
  refine .value (reads_eat (reads_pure fun _ => rfl)) ((reads_allocFrom _ l.span).bind fun id => ?_)
  exact reads_pure fun t form all => ⟨ids, form, all⟩

omit reads

theorem empty_reads (start : Span) :
    Reads b n (leaf .empty start) (.punctuator .semicolon :: rest) rest Stmt.empty.At :=
  reads_bump fun _ => reads_alloc .empty start

theorem debugger_reads (start : Span) (ends : EndsStatement rest after) :
    Reads b n (do
      let _ ← bump
      consumeSemicolon
      alloc .debugger start) (.keyword .debugger :: rest) after Stmt.debugger.At :=
  reads_bump fun _ => reads_consumeSemicolon ends ((reads_alloc _ start).imp fun _ _ => And.right)

theorem statement_readsBack (expressions : ReadsUpTo rules (n + 1)) (names : ReadsNames rules)
    (statements : ReadsBack (rules .statement) n) (items : ReadsBack (rules .item) n) :
    ReadsBack (statement rules) (n + 1) := by
  rintro st tokens rest after ⟨valid, paired, writes⟩ followed
  have inner : ReadsUpTo rules n := fun serves _ _ _ _ valid fits stops =>
    (expressions serves valid fits stops).mono (Nat.le_succ n)
  cases writes with
  | expression e =>
    have ends : EndsStatement rest after := followed.ends
    have read := statement_reads expressions valid.expr ends
    rwa [e.reread_expr] at read
  | empty =>
    obtain rfl : rest = after := followed.ends
    exact reads_place fun _ => reads_token (empty_reads _)
  | debugger => exact reads_place fun _ => reads_token (debugger_reads _ followed.ends)
  | block all =>
    obtain rfl : rest = after := followed.ends
    simp only [cons_append, append_assoc, nil_append]
    exact reads_place fun _ => reads_token (block_reads items ⟨allValid_iff.mp valid, allPaired_iff.mp paired, all⟩)
  | ifThen test writes =>
    simp only [cons_append, append_assoc]
    exact reads_place fun _ => reads_token (ifThen_reads inner statements valid.1 ⟨valid.2, paired, writes⟩ followed)
  | ifElse test writes writesAlternate =>
    simp only [cons_append, append_assoc]
    exact reads_place fun _ => reads_token (ifElse_reads inner statements valid.1 paired.1
      ⟨valid.2.1, paired.2.1, writes⟩ ⟨valid.2.2, paired.2.2, writesAlternate⟩ followed)
  | whileLoop test writes =>
    simp only [cons_append, append_assoc]
    exact reads_place fun _ => reads_token (whileLoop_reads inner statements valid.1 ⟨valid.2, paired, writes⟩ followed)
  | doWhile test writes =>
    simp only [cons_append, append_assoc]
    exact reads_place fun _ => reads_token (doWhile_reads inner statements valid.1 ⟨valid.2, paired, writes⟩ followed.ends)
  | forLoop init test step writes =>
    simp only [cons_append, append_assoc]
    exact reads_place fun _ => reads_token (forLoop_reads names statements ⟨valid.2.2.2, paired, writes⟩ followed)
  | labeled label writes =>
    exact reads_place fun _ => reads_token (reads_peek (labeled_reads statements ⟨valid.2, paired, writes⟩ followed))

theorem item_readsBack (statements : ReadsBack (statement rules) n) : ReadsBack (item rules) n := by
  intro st tokens rest after written followed
  have read := statements written followed
  obtain ⟨t, more, rfl, starts⟩ := written.writes.starts
  refine item_of_statement ?_ read
  cases t with
  | keyword word => cases word <;> first | rfl | cases starts
  | _ => rfl

/-- Rules that may call each other more often than there are tokens read back every statement. -/
theorem rulesUpTo_readsBack (depth : Nat) :
    ReadsBack (rulesUpTo (depth + 1) .statement) depth ∧ ReadsBack (rulesUpTo (depth + 1) .item) depth := by
  induction depth with
  | zero =>
    have none {x : Parse NodeId} : ReadsBack x 0 := by
      intro st tokens rest after written _ s _ few
      obtain ⟨t, more, rfl, -⟩ := written.writes.starts
      cases few
    exact ⟨none, none⟩
  | succ depth ih =>
    have statements : ReadsBack (statement (rulesUpTo (depth + 1))) (depth + 1) :=
      statement_readsBack (rulesUpTo_reads (depth + 1)) name_reads ih.1 ih.2
    exact ⟨statements, item_readsBack statements⟩

end Parse

end Condense
