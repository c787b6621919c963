import Condense.Proofs.Grammar.Expressions

/-!
The rules for statements and module declarations.
-/

namespace Condense.Parse

open ParseState (Good)

attribute [local simp] Form.children List.count_cons

variable [Watch] {base : Tree} {held : List NodeId} {known : List ScopeId}

theorem setLoopScope_carries {id : NodeId} (scope : Option ScopeId) [knows : KnowsAny scope known]
    (member : id ∈ held) :
    Carries base held known (modifyTree (·.modifyForm id (setLoopScope scope))) fun _ => held := by
  refine .of_held member fun new => carries_modifyForm new (fun form => ?_) fun form => ?_
  · cases form <;> rfl
  · cases form with
    | forLoop | forInLoop => exact .inr ⟨trivial, knows.member⟩
    | _ => exact .inl rfl

instance : Makes known continueStatement := by
  refine ⟨fun base => .skip fun first => .skip fun label => .skip fun s => ?_⟩
  split <;> exact .optional (.skip fun _ => carries_allocFrom _ (by simp))

instance : Makes known breakStatement := by
  refine ⟨fun base => .skip fun first => .skip fun label => .skip fun s => ?_⟩
  split <;> exact .optional (.skip fun _ => carries_allocFrom _ (by simp))

instance (name : String) (span : Span) : Makes known (importBinding name span) := by
  refine ⟨fun base => (carries_alloc [] (by simp)).bind fun binding => .here fun scope => ?_⟩
  exact (declarePattern_carries _ _ _ (.head _)).bind fun _ => carries_pure (by simp)

instance : Makes known namedImport :=
  ⟨fun _ => .skip fun start => .skip fun imported => .skip fun renamed => .take fun target =>
    carries_allocFrom _ (by simp)⟩

theorem namedImports_carries (earlier : List NodeId) : Carries base earlier known (namedImports earlier) id :=
  .take fun specifiers => .skip fun _ => carries_pure (by simp +arith)

theorem finishImport_carries (specifiers : List NodeId) (start : Span) :
    Carries base specifiers known (finishImport specifiers start) fun id => [id] :=
  .skip fun _ => .skip fun _ => carries_allocFrom _ (by simp)

theorem importRest_carries (specifiers : List NodeId) (start : Span) :
    Carries base specifiers known (importRest specifiers start) fun id => [id] := by
  refine .skip fun star => ?_
  split
  · refine .skip fun first => .skip fun renamed => ?_
    split
    · exact carries_fail _
    refine .skip fun _ => .skip fun name => .take fun target => ?_
    refine (carries_allocFrom specifiers (by simp)).bind fun specifier => ?_
    exact (finishImport_carries _ _).drop (by simp +arith)
  refine .skip fun brace => ?_
  split
  · exact (namedImports_carries _).bind fun specifiers => finishImport_carries _ _
  · exact finishImport_carries _ _

instance : Makes known importDeclaration := by
  refine ⟨fun base => .skip fun first => .skip fun t => ?_⟩
  split
  · refine .skip fun _ => .skip fun _ => ?_
    exact carries_allocFrom _ (by simp)
  refine .skip fun name => ?_
  cases name with
  | none => exact importRest_carries _ _
  | some name =>
    refine .skip fun l => .take fun target => ?_
    refine (carries_alloc [] (by simp)).bind fun specifier => .skip fun comma => ?_
    split
    · exact importRest_carries _ _
    · exact finishImport_carries _ _

instance (start : Span) : Makes known (exportAll start) :=
  ⟨fun _ => .skip fun _ => .skip fun renamed => .skip fun source => .skip fun _ => carries_allocFrom _ (by simp)⟩

instance (start : Span) : Makes known (exportNamed start) := by
  refine ⟨fun base => .skip fun names => .skip fun source => .skip fun _ => ?_⟩
  refine (Yields.mapM names fun entry => ⟨fun base => ?_⟩).bind fun specifiers => carries_allocFrom _ (by simp)
  split
  · exact (carries_alloc [] (by simp)).bind fun target => carries_allocFrom _ (by simp)
  · exact .take fun target => carries_allocFrom _ (by simp)

/-- At the end of the input, the semicolon that was to come is not missed. -/
theorem consumeSemicolon_ensures (e : Failure) {context : Context} :
    Ensures (fun s => e.Leaves (Good base held context known) s) consumeSemicolon
      (fun _ s => e.Leaves (Good base held context known) s) (Good base [] context known) := by
  cases e with
  | endOfInput line column =>
    intro s left
    obtain ⟨_, _, _, ended, _⟩ := id left
    have run (s : ParseState) (ended : s.current.token.isEnd) : consumeSemicolon s = .ok () s := by
      obtain ⟨_, _, _, ⟨kind, _⟩, _⟩ := s
      cases kind <;> first | rfl | cases ended
    rw [run s ended]
    exact left
  | recover | exhausted => exact Steady.carries consumeSemicolon context

variable {rules : Rules} [sound : Rules.Sound rules]

instance (start : Span) : Makes known (exportDefault rules start) := by
  refine ⟨fun base => .skip fun _ => .skip fun _ => ?_⟩
  refine (Yields.attempt (show Makes known _ from ⟨fun base => ?_⟩)).caught (fun declaration => ?_) fun e context => ?_
  · refine .skip fun t => ?_
    split
    · exact Yields.run base
    · exact Yields.run base
    · extract_lets rest
      have behind (isAsync : Bool) : Carries base [] known (rest isAsync) fun id => [id] := by
        dsimp only [rest]
        split
        · exact Yields.run base
        refine .skip fun _ => (sound.makes .assignment known).attempt.caught (fun value => ?_) fun e context => ?_
        · exact .skip fun _ => carries_pure (by simp)
        · exact (consumeSemicolon_ensures e).bind fun _ => rethrow_ensures e
      split
      · exact .skip fun next => behind _
      · exact behind false
  · exact .skip fun _ => carries_allocFrom _ (by simp)
  · refine Ensures.bind (Q := fun _ s => e.Leaves (Good base [] context known) s) (fun s left => ?_) fun _ =>
      rethrow_ensures e
    exact Failure.Leaves.map (f := fun s => { s with afterDefault := false }) (fun _ _ => rfl) (fun _ => rfl)
      (fun s good => good.aside (good.fits.same rfl rfl rfl) rfl rfl rfl) left

instance (start : Span) : Makes known (exportedDeclaration rules start) := by
  refine ⟨fun base => .take fun declaration => .skip fun form => ?_⟩
  extract_lets rest
  have behind (u : Unit) : Carries base [declaration] known (rest u) fun id => [id] := by
    refine .skip fun s => (Carries.forM fun field _ => ?_).bind fun _ => carries_allocFrom _ (by simp)
    have exported : Steady known (modifyScopes (·.modifyField field fun f =>
        { f with isExported := true, canCrunch := false })) :=
      steady_markField field (fun _ => rfl) (fun _ => rfl) fun _ _ => .inl rfl
    exact Steady.carries _
  split
  · exact .skip fun _ => .skip fun _ => behind ()
  · exact behind ()

instance : Makes known (exportDeclaration rules) := by
  refine ⟨fun base => .skip fun first => .skip fun default => ?_⟩
  split
  · exact Yields.run base
  refine .skip fun star => ?_
  split
  · exact Yields.run base
  refine .skip fun brace => ?_
  split <;> exact Yields.run base

instance (kind : DeclarationKind) : Makes known (variableDeclaration rules kind) := by
  refine ⟨fun base => .skip fun first => .here fun here => .variableScope here fun s => ?_⟩
  extract_lets scopes scope
  have : Knows scope (s.scopes.variableScope here :: here :: known) := by
    dsimp only [scope]
    split <;> infer_instance
  refine (yields_cycle id id rfl fun base done => ?_).bind fun declarators => carries_allocFrom _ (by simp)
  refine .skip fun start => .take fun target => ?_
  refine (declarePattern_carries _ _ _ (.head _)).bind fun _ => .take fun init => ?_
  refine (carries_allocFrom done (by simp +arith)).bind fun declarator => .skip fun more => ?_
  split <;> exact carries_pure (by simp)

instance (kind : DeclarationKind) : Makes known (variableStatement rules kind) :=
  ⟨fun _ => .take fun id => .skip fun _ => carries_pure (by simp)⟩

instance : Makes known (condition rules) :=
  ⟨fun _ => .skip fun _ => .take fun id => .skip fun _ => carries_pure (by simp)⟩

instance : Makes known (ifStatement rules) :=
  ⟨fun _ => .skip fun first => .take fun test => .take fun consequent => .take fun alternate =>
    carries_allocFrom _ (by simp +arith)⟩

instance : Makes known (loopBody rules) :=
  .inside (fun _ => inferInstance) fun _ => rfl

instance : Makes known (whileStatement rules) :=
  ⟨fun _ => .skip fun _ => .take fun test => .take fun body => carries_allocFrom _ (by simp +arith)⟩

instance : Makes known (doWhileStatement rules) := by
  refine ⟨fun base => .skip fun first => .take fun body => .skip fun found => ?_⟩
  split
  · exact carries_fail _
  exact .skip fun _ => .take fun test => .skip fun _ => carries_allocFrom _ (by simp +arith)

instance : Yields known (forInit rules) Option.toList := by
  refine .inside (fun here => ⟨fun base => .skip fun t => ?_⟩) fun _ => rfl
  have value : Carries base [] (here :: known) (do return some (← expression rules)) Option.toList :=
    .take fun id => carries_pure (by simp)
  split
  · exact carries_pure (by simp)
  · exact .take fun id => carries_pure (by simp)
  · exact .take fun id => carries_pure (by simp)
  · refine .skip fun declares => ?_
    split
    · exact .take fun id => carries_pure (by simp)
    · exact value
  · exact value

theorem forInRest_carries (left : NodeId) (isOf isAwait : Bool) (start : Span) :
    Carries base [left] known (forInRest rules left isOf isAwait start) fun id => [id] := by
  refine .skip fun _ => ?_
  extract_lets rest
  have behind (right : NodeId) : Carries base [right, left] known (rest right) fun id => [id] := by
    refine .skip fun _ => .take fun body => ?_
    exact carries_allocFrom _ (by simp +arith)
  split <;> exact .take behind

instance (stop : Punctuator) : Yields known (forPart rules stop) Option.toList := by
  refine ⟨fun base => .skip fun closed => ?_⟩
  split
  · exact .value (.skip fun _ => carries_pure (by simp))
  · exact .take fun id => .value (.skip fun _ => carries_pure (by simp))

instance (isAwait : Bool) (start : Span) : Makes known (forRest rules isAwait start) := by
  refine ⟨fun base => .take fun init => .skip fun isOf => .skip fun isIn => ?_⟩
  split
  · rename_i left found
    obtain rfl : init = some left := by
      split at found
      · exact found
      · cases found
    exact forInRest_carries left _ _ _
  · refine .skip fun _ => .take fun test => .take fun step => .take fun body => ?_
    exact carries_allocFrom _ (by simp +arith)

instance : Makes known (forStatement rules) := by
  refine ⟨fun base => .skip fun first => .skip fun isAwait => .optional (.skip fun _ => ?_)⟩
  refine .inBlockScope fun id scope => ?_
  exact (setLoopScope_carries _ (.head _)).bind fun _ => keepScope_carries _ _

instance : Makes known (returnStatement rules) := by
  refine ⟨fun base => .skip fun first => .skip fun s => .optional (.skip fun l => ?_)⟩
  split
  · exact .value (.skip fun _ => carries_allocFrom _ (by simp))
  · exact .take fun value => .value (.skip fun _ => carries_allocFrom _ (by simp))

instance : Makes known (throwStatement rules) :=
  ⟨fun _ => .skip fun _ => .take fun value => .skip fun _ => carries_allocFrom _ (by simp)⟩

instance : Makes known (withStatement rules) := by
  refine ⟨fun base => .skip fun first => .here fun parent => .skip fun s => .optional ?_⟩
  refine .take fun object => .push fun scope => ?_
  have unknown : Steady (scope :: parent :: known) (modifyScopes (·.makeUnknown scope)) :=
    steady_markScope scope (fun _ => rfl) fun _ => rfl
  refine .skip fun _ => .take fun body => ?_
  refine (carries_allocFrom [] (by simp +arith)).bind fun id => .skip fun _ => ?_
  exact carries_pure (by simp)

instance : Yields known (clauseStatements rules) id := by
  refine yields_cycle id id rfl fun base done => .take fun comments => ?_
  refine .skip fun t => ?_
  split
  · exact carries_pure (by simp +arith)
  exact recovering_yields.beside.caught (fun statement => carries_pure (by simp)) fun e _ => rethrow_ensures e

instance : Yields known (switchCases rules) id := by
  refine yields_cycle Prod.fst id rfl fun base (done, seenDefault) => .skip fun t => ?_
  split
  · exact carries_pure (by simp)
  refine .skip fun start => ?_
  extract_lets rest
  have behind (test : Option NodeId) :
      Carries base (test.toList ++ done) known (rest test) (Turn.holding Prod.fst id) := by
    refine .skip fun _ => .take fun statements => ?_
    exact (carries_allocFrom done (by simp +arith)).bind fun clause => carries_pure (by simp +arith)
  split
  · exact .skip fun _ => .take fun test => behind (some test)
  split
  · refine .skip fun _ => ?_
    split
    · exact .skip fun _ => behind none
    · exact behind none
  · exact (carries_fail _).bind behind

instance : Makes known (switchStatement rules) := by
  refine ⟨fun base => .skip fun first => .take fun discriminant => .skip fun opened => ?_⟩
  have clauses (here scope : ScopeId) : Yields (here :: scope :: known)
      (withContext (fun c => { c with switchDepth := c.switchDepth + 1 }) (switchCases rules)) id :=
    .inside (fun _ => inferInstance) fun _ => rfl
  refine .inBlockScope fun cases scope => ?_
  refine .skip fun _ => (carries_allocFrom [] (by simp)).bind fun id => ?_
  exact keepScope_carries _ _

instance (scope : ScopeId) [Knows scope known] : Yields known (catchClause rules scope) fun r => r.2 :: r.1.toList := by
  refine ⟨fun base => .skip fun found => ?_⟩
  split
  · refine .take fun binding => ?_
    refine (declarePattern_carries _ _ _ (.head _)).bind fun _ => .skip fun _ => ?_
    exact .value (.take fun body => carries_pure (by simp))
  · exact .value (.take fun body => carries_pure (by simp))

instance : Makes known (tryStatement rules) := by
  refine ⟨fun base => .skip fun first => .take fun body => .skip fun isCaught => ?_⟩
  extract_lets rest
  have behind (caught : Option (Option NodeId × NodeId × ScopeId)) (known : List ScopeId)
      [KnowsAny (caught.map (·.2.2)) known] :
      Carries base ((caught.map (·.2.1)).toList ++ (caught.bind (·.1)).toList ++ [body]) known (rest caught)
        fun id => [id] := by
    refine .take fun finalizer => ?_
    extract_lets built
    have owned (u : Unit) : Carries base
        (finalizer.toList ++ ((caught.map (·.2.1)).toList ++ (caught.bind (·.1)).toList ++ [body])) known
        (built u) fun id => [id] := by
      refine (carries_allocFrom [] (by simp +arith)).bind fun id => ?_
      cases caught with
      | none => exact carries_pure (by simp)
      | some caught =>
        have marked : Steady known (modifyScopes (·.modifyScope caught.2.2 fun s => { s with owner := some id })) :=
          steady_markScope _ (fun _ => rfl) fun _ => rfl
        exact .skip fun _ => carries_pure (by simp)
    split
    · exact .skip fun _ => .skip fun _ => owned ()
    · exact owned ()
  split
  · refine .skip fun l => .here fun here => .push fun scope => .take fun handler => .skip fun span => ?_
    have marked : Steady (scope :: here :: known) (modifyScopes (·.modifyScope scope fun s => { s with span })) :=
      steady_markScope _ (fun _ => rfl) fun _ => rfl
    refine .skip fun _ => ?_
    exact @behind (some (handler.1, handler.2, scope)) _ (inferInstanceAs (KnowsAny (some scope) _))
  · exact @behind none _ (inferInstanceAs (KnowsAny none _))

instance (label : String) : Makes known (labeledStatement rules label) := by
  refine ⟨fun base => ?_⟩
  have inside (isLoop : Bool) :
      Steady known (modify fun s => { s with labels := (label, isLoop) :: s.labels } : Parse PUnit) :=
    steady_modify fun _ => ⟨rfl, rfl, rfl, rfl, rfl, rfl⟩
  refine .skip fun first => .skip fun _ => .skip fun t => .skip fun s => .skip fun _ => ?_
  exact (Yields.run base).relabeled.bind fun body => carries_allocFrom _ (by simp)

instance (marker : Marker) (start : Span) : Makes known (markedStatement rules marker start) := by
  refine ⟨fun base => .skip fun _ => ?_⟩
  cases marker with
  | set =>
    refine .skip fun t => ?_
    extract_lets rest
    have behind (name : String) : Carries base [] known (rest name) fun id => [id] :=
      .skip fun _ => .take fun value => carries_allocFrom _ (by simp)
    split
    · exact .skip fun _ => behind _
    · exact (carries_fail _).bind behind
  | ifBranch | elseIf => exact .take fun test => carries_allocFrom _ (by simp)
  | _ => exact carries_alloc _ (by simp)

instance : Makes known (conditionalComment rules) := by
  refine ⟨fun base => .skip fun first => ?_⟩
  refine (yields_cycle id id rfl fun base done => ?_).bind fun statements => carries_allocFrom _ (by simp)
  refine .take fun comments => .skip fun here => .skip fun t => ?_
  have marked (marker : Marker) (done : List NodeId) : Carries base (comments ++ done) known (do
      return .again ((← markedStatement rules marker here) :: (comments.reverse ++ done)))
      (Turn.holding id id) :=
    .take fun id => carries_pure (by simp)
  split
  case h_1 | h_2 => exact .skip fun _ => carries_pure (by simp)
  any_goals exact marked _ _
  · exact recovering_yields.beside.caught (fun statement => carries_pure (by simp)) fun e _ => rethrow_ensures e

instance : Makes known (expressionStatement rules) :=
  ⟨fun _ => .take fun id => .skip fun _ => carries_pure (by simp)⟩

instance : Makes known (statement rules) := by
  refine ⟨fun base => .skip fun start => .skip fun t => ?_⟩
  split
  case h_2 | h_20 => exact leaf_carries rfl _
  case h_15 => exact .skip fun _ => .skip fun _ => carries_alloc _ (by simp)
  case h_16 | h_17 | h_18 => exact .skip fun _ => Yields.run base
  case h_21 =>
    refine .skip fun next => ?_
    split <;> exact Yields.run base
  all_goals exact Yields.run base

instance : Makes known (item rules) := by
  refine ⟨fun base => .skip fun t => ?_⟩
  split
  case h_2 | h_5 | h_6 =>
    refine .skip fun next => ?_
    split <;> exact Yields.run base
  all_goals exact Yields.run base

end Condense.Parse
