import Condense.Proofs.Grammar.Nodes

/-!
The rules for keys, patterns, statement lists, functions and classes.
-/

namespace Condense.Parse

open ParseState (Good)

attribute [local simp] Form.children List.count_cons

variable [Watch] {α β : Type} {base : Tree} {held : List NodeId} {known : List ScopeId} {rules : Rules}

/-- Every nonterminal answers with one new node. -/
class Rules.Sound (rules : Rules) : Prop where
  makes : ∀ goal known, Makes known (rules goal)

instance [sound : Rules.Sound rules] (goal : Goal) : Makes known (rules goal) :=
  sound.makes goal known

instance (afterDefault : Bool) : Steady known (modify fun s => { s with afterDefault } : Parse PUnit) :=
  steady_modify fun _ => ⟨rfl, rfl, rfl, rfl, rfl, rfl⟩

instance (labels : List (String × Bool)) : Steady known (modify fun s => { s with labels } : Parse PUnit) :=
  steady_modify fun _ => ⟨rfl, rfl, rfl, rfl, rfl, rfl⟩

variable [sound : Rules.Sound rules]

instance : Yields known (propertyKey rules) fun key => [key.1] := by
  refine ⟨fun base => .skip fun start => .token fun t fits => ?_⟩
  split
  case h_1 | h_3 => exact .skip fun _ => (carries_alloc [] (by simp)).bind fun key => carries_pure (by simp)
  · have unsigned := sited_number fits.unsigned known
    exact .skip fun _ => (carries_alloc [] (by simp)).bind fun key => carries_pure (by simp)
  · exact .skip fun _ => .take fun key => .skip fun _ => carries_pure (by simp)
  · refine .skip fun name => ?_
    exact (carries_alloc [] (by simp)).bind fun key => carries_pure (by simp)

theorem withDefault_carries (target : NodeId) (start : Span) :
    Carries base [target] known (withDefault rules target start) fun id => [id] := by
  refine .skip fun found => ?_
  split
  · exact .take fun default => carries_allocFrom _ (by simp +arith)
  · exact carries_pure (by simp)

instance : Makes known (bindingElement rules) :=
  ⟨fun _ => .skip fun start => .take fun target => withDefault_carries target start⟩

instance : Makes known (bindingItem rules) := by
  refine ⟨fun base => .skip fun start => .skip fun spread => ?_⟩
  split
  · exact .take fun argument => carries_allocFrom _ (by simp)
  · exact Yields.run base

instance (stop : Punctuator) (item : Parse NodeId) [Makes known item] : Yields known (commaItems stop item) id := by
  refine yields_cycle id id rfl fun base done => .skip fun closed => ?_
  split
  · exact carries_pure (by simp)
  refine .take fun item => .skip fun more => ?_
  split <;> exact carries_pure (by simp)

instance (element : Parse NodeId) [Makes known element] :
    Yields known (commaElements element) (List.filterMap id) := by
  refine yields_cycle (List.filterMap id) (List.filterMap id) rfl fun base done => .skip fun closed => ?_
  split
  · exact carries_pure (by simp)
  refine .skip fun hole => ?_
  split
  · exact carries_pure (by simp)
  refine .take fun element => .skip fun more => ?_
  split <;> exact carries_pure (by simp)

instance (start : Span) : Makes known (arrayPattern rules start) :=
  ⟨fun _ => .take fun elements => .skip fun _ => carries_allocFrom _ (by simp)⟩

instance (name : String) (key : NodeId) (start : Span) : Makes known (shorthandPattern rules name key start) :=
  ⟨fun _ => .skip fun span => (carries_alloc [] (by simp)).bind fun binding => withDefault_carries binding start⟩

instance : Makes known (propertyPattern rules) := by
  refine ⟨fun base => .skip fun start => .skip fun spread => ?_⟩
  split
  · exact .take fun argument => carries_allocFrom _ (by simp)
  refine .skip fun shorthand => .take fun key => .skip fun colon => ?_
  split
  · exact .take fun value => carries_allocFrom _ (by simp +arith)
  split
  · exact .take fun value => carries_allocFrom _ (by simp +arith)
  · exact carries_fail _

instance (start : Span) : Makes known (objectPattern rules start) :=
  ⟨fun _ => .take fun properties => .skip fun _ => carries_allocFrom _ (by simp)⟩

instance : Makes known (bindingTarget rules) := by
  refine ⟨fun base => .skip fun start => .skip fun bracket => ?_⟩
  split
  · exact .last (by simp +arith)
  refine .skip fun brace => ?_
  split
  · exact .last (by simp +arith)
  · exact .skip fun name => carries_alloc _ (by simp)

/-- Whether a statement was read or not, no other nodes are held. -/
theorem recovering_yields : Yields known (recovering rules) (attempted Option.toList []) failure? := by
  refine ⟨fun base context => .read fun s good => ?_⟩
  -- The context is restored, which the statement left as it was.
  have restored (labels : List (String × Bool)) : Ensures (Good base [] context known)
      (modify fun s' => { s' with context := s.context, labels } : Parse PUnit) (fun _ => Good base [] context known)
      (Good base [] context known) := by
    intro s' after
    refine ⟨after.written, after.fits.same rfl rfl rfl,
      fun watched => (after.holding watched).congr rfl, fun watched => (after.within watched).congr rfl rfl ?_⟩
    exact (good.within watched).context_eq.trans (after.within watched).context_eq.symm
  suffices rest : Ensures (Good base [] context known) _ _ _ from
    rest.imp (fun _ same => same ▸ good) (fun _ _ => id) fun _ => id
  refine .get fun t => (Steady.run base [] context).bind fun start => ?_
  refine ((sound.makes .item known).attempt context).bind fun result => ?_
  cases result with
  | ok statement => exact fun _ after => after
  | error failure =>
    cases failure with
    | recover =>
      refine (restored t.labels).bind fun _ => (Steady.run base [] context).bind fun _ => ?_
      exact fun _ after => after
    | endOfInput line column | exhausted => exact fun _ after => after

theorem statementList_carries (stop : Option Punctuator) (directives : Bool) (before : List NodeId) :
    Carries base before known (statementList rules stop directives before) Prod.fst Prod.snd := by
  refine Carries.drop (carries_cycle (before.reverse, directives) (·.1) Prod.fst fun earlier => ?_) (by simp +arith)
  obtain ⟨done, inPrologue⟩ := earlier
  refine .take fun comments => .skip fun ended => ?_
  split
  · exact carries_answer rfl (by simp +arith)
  have behind : Carries base (comments ++ done) known (listItem rules (comments.reverse ++ done) inPrologue)
      (Turn.holding (fun x : List NodeId × Bool => x.1) fun x => x.1) (Turn.failed Prod.snd) := by
    refine recovering_yields.beside.caught (fun statement => ?_) fun e _ s left => ?_
    · cases statement with
      | none => exact carries_answer rfl (by simp)
      | some statement =>
        dsimp only
        split
        · exact .skip fun _ => carries_answer rfl (by simp)
        · exact carries_answer rfl (by simp)
    · exact Failure.Leaves.imp left fun _ good => good.fewer (by simp +arith) fun _ => id
  cases stop with
  | some p =>
    refine .skip fun closed => ?_
    split
    · exact carries_answer rfl (by simp +arith)
    · exact behind
  | none =>
    refine .skip fun stray => ?_
    split
    · refine .skip fun span => .skip fun _ => .skip fun _ => ?_
      exact carries_answer rfl (by simp)
    · exact behind

instance (directives : Bool) : Yields known (bracedStatements rules directives) id := by
  refine ⟨fun base context => (statementList_carries _ _ [] context).bind fun statements => ?_⟩
  obtain ⟨statements, failure⟩ := statements
  cases failure with
  | none => exact fun _ good => good
  | some failure => exact rethrow_ensures failure

theorem keepScope_carries (scope : Option ScopeId) (id : NodeId) :
    Carries base [id] known (keepScope scope id) fun id => [id] := by
  cases scope with
  | none => exact carries_pure (by simp)
  | some scope => exact .skip fun _ => carries_pure (by simp)

instance : Makes known (block rules) := by
  refine ⟨fun base => .skip fun opened => ?_⟩
  refine .inBlockScope fun statements scope => ?_
  exact .skip fun _ => (carries_allocFrom [] (by simp)).bind fun id => keepScope_carries scope id

instance (scope : ScopeId) [Knows scope known] : Yields known (formalParameters rules scope) id := by
  have parameter : Makes known (do
      let param ← bindingItem rules
      declarePattern param scope .argument false
      return param) :=
    ⟨fun _ => .take fun param => (declarePattern_carries _ _ _ (.head _)).bind fun _ => carries_pure (by simp)⟩
  exact ⟨fun _ => .skip fun _ => .take fun params => .skip fun _ => carries_pure (by simp)⟩

instance (scope : ScopeId) (isAsync isGenerator : Bool) [knows : Knows scope known] :
    Makes known (functionBody rules scope isAsync isGenerator) := by
  refine ⟨fun base => .skip fun opened => .skip fun s => .skip fun _ => ?_⟩
  have statements := Yields.around (x := bracedStatements rules true)
    (fun _ => { scope, inFunction := true, inGenerator := isGenerator, inAsync := isAsync })
    (fun _ _ within => within.live scope knows.member) fun _ => inferInstance
  refine (statements.run base).relabeled.bind fun statements => ?_
  exact .skip fun _ => carries_allocFrom _ (by simp)

instance (scope : ScopeId) (isAsync isGenerator : Bool) [knows : Knows scope known] :
    Yields known (signatureAndBody rules scope isAsync isGenerator) fun r => r.2 :: r.1 := by
  refine .around _ (fun _ _ within => within.live scope knows.member) fun here => ⟨fun base => ?_⟩
  exact .take fun params => .take fun body => carries_pure (by simp)

/-- A name that is bound within its function has a scope of its own. -/
theorem Carries.bindFunctionName {kind : FunctionKind} {enclosing : ScopeId} {name : String} {span : Span}
    {f : NodeId × FieldId × Option ScopeId → Parse β} {after : β → List NodeId} [Knows enclosing known]
    (rest : ∀ binding field scope known, [Knows enclosing known] → [KnowsAny scope known] →
      Carries base (binding :: held) known (f (binding, field, scope)) after) :
    Carries base held known (bindFunctionName kind enclosing name span >>= f) after := by
  have isFunction (known : List ScopeId) (field : FieldId) :
      Steady known (modifyScopes (·.modifyField field fun f => { f with isFunction := true })) :=
    steady_markField field (fun _ => rfl) (fun _ => rfl) fun _ => id
  have isNameScope (known : List ScopeId) (scope : ScopeId) :
      Steady known (modifyScopes (·.modifyScope scope fun s => { s with isNameScope := true })) :=
    steady_markScope scope (fun _ => rfl) fun _ => rfl
  have bound (binding : NodeId) (field : FieldId) (known : List ScopeId) :
      Carries base (binding :: held) known (modifyTree (·.modifyForm binding (setBinding field)))
        fun _ => binding :: held :=
    .of_held (.head _) fun new => setBinding_carries field new
  rw [Parse.bindFunctionName, bind_assoc]
  refine (carries_alloc held (by simp)).bind fun binding => ?_
  dsimp only
  split
  · simp only [bind_assoc]
    refine .variableScope enclosing fun s => .skip fun field => .skip fun _ => .value ?_
    exact (bound binding field _).bind fun _ => rest binding field none _
  · simp only [bind_assoc]
    refine .push fun scope => .skip fun _ => .skip fun field => .value ?_
    exact (bound binding field _).bind fun _ => rest binding field (some scope) _

instance (kind : FunctionKind) (isAsync : Bool) (start : Span) :
    Makes known (functionRest rules kind isAsync start) := by
  refine ⟨fun base => .skip fun isGenerator => .skip fun name => .skip fun _ => .here fun enclosing => ?_⟩
  extract_lets rest
  -- From here on the name, if there is one, may have brought a scope of its own.
  have behind (bound : Option (NodeId × FieldId × Option ScopeId)) (known : List ScopeId) [Knows enclosing known]
      [KnowsAny (bound.bind fun name => name.2.2) known] :
      Carries base (bound.map (·.1)).toList known (rest bound) fun id => [id] := by
    refine .push fun scope => .take fun signature => ?_
    refine (carries_allocFrom [] (by simp +arith)).bind fun id => .skip fun _ => ?_
    extract_lets done ghost value
    have last (u : Unit) : Carries base [id] (scope :: known) (ghost u) fun id => [id] := by
      dsimp only [ghost]
      split
      · exact .skip fun _ => carries_pure (by simp)
      · exact carries_pure (by simp)
    have named (u : Unit) : Carries base [id] (scope :: known) (value u) fun id => [id] := by
      cases bound with
      | none => exact last ()
      | some bound => exact .skip fun _ => last ()
    split
    · exact .skip fun _ => named ()
    · exact named ()
  cases name with
  | none => exact @behind none _ inferInstance (inferInstanceAs (KnowsAny none _))
  | some name =>
    apply Carries.bindFunctionName
    intro binding field scope known outer own
    exact @behind (some (binding, field, scope)) known outer own

instance (isAsync : Bool) : Makes known (functionDeclaration rules isAsync) := by
  refine ⟨fun base => .skip fun start => .optional (.skip fun _ => ?_)⟩
  exact .last (by simp +arith)

instance (kind : FunctionKind) (isAsync isGenerator : Bool) (start : Span) :
    Makes known (method rules kind isAsync isGenerator start) := by
  refine ⟨fun base => .here fun here => .push fun scope => .take fun signature => ?_⟩
  refine (carries_allocFrom [] (by simp)).bind fun id => .skip fun _ => ?_
  exact carries_pure (by simp)

instance : Makes known (classMember rules) := by
  refine ⟨fun base => .skip fun start => .skip fun isStatic => .optional (.skip fun modifiers => ?_)⟩
  refine .take fun key => .skip fun call => ?_
  split
  · exact .take fun value => carries_allocFrom _ (by simp +arith)
  have assigned : Makes known (withContext (fun c => { c with inFunction := true }) (rules .assignment)) :=
    .inside (fun _ => inferInstance) fun _ => rfl
  exact .take fun value => .skip fun _ => carries_allocFrom _ (by simp +arith)

instance : Yields known (classMembers rules) id := by
  refine ⟨fun base => ?_⟩
  refine (yields_cycle id id rfl fun base done => ?_).bind fun members => carries_pure (by simp)
  refine .skip fun closed => .skip fun ended => ?_
  split
  · exact carries_pure (by simp)
  refine .skip fun empty => ?_
  split
  · exact carries_pure (by simp)
  · exact .take fun member => carries_pure (by simp)

instance (isExpression : Bool) (enclosing scope : ScopeId) (name : Option (String × Span))
    [outer : Knows enclosing known] [inner : Knows scope known] :
    Yields known (className isExpression enclosing scope name) Option.toList := by
  refine ⟨fun base => ?_⟩
  cases name with
  | some name =>
    have : Knows (if isExpression then scope else enclosing) known := by
      split
      · exact inner
      · exact outer
    refine (carries_alloc [] (by simp)).bind fun binding => ?_
    exact (declarePattern_carries _ _ _ (.head _)).bind fun _ => carries_pure (by simp)
  | none =>
    refine .skip fun s => ?_
    split
    · exact carries_fail _
    · exact carries_pure (by simp)

instance (isExpression : Bool) : Makes known (classDefinition rules isExpression) := by
  refine ⟨fun base => .skip fun first => .here fun enclosing => .skip fun name => ?_⟩
  extract_lets rest
  have behind (name : Option (String × Span)) : Carries base [] (enclosing :: known) (rest name) fun id => [id] := by
    refine .push fun scope => .skip fun _ => .take fun binding => .skip fun _ => .take fun heritage => ?_
    refine .skip fun opened => .take fun members => .skip fun _ => ?_
    refine (carries_allocFrom [] (by simp +arith)).bind fun id => .skip fun _ => ?_
    cases binding with
    | none => exact carries_pure (by simp)
    | some binding =>
      refine .skip fun form => ?_
      split
      · exact .skip fun _ => carries_pure (by simp)
      · exact carries_pure (by simp)
  cases name with
  | none => exact behind none
  | some name => exact .skip fun l => behind (some (name, l.span))

end Condense.Parse
