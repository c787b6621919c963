import Condense.Proofs.Expression.Operand

/-!
Reading back chains of members, elements and calls, and the operators before and behind them.
-/

namespace Condense

open List

variable {e : Expr} {name : String} {escaped : Bool} {args : List Expr} {id : NodeId}

namespace Expr

/-- Only a call with `new` and without arguments binds more tightly than every operator and less than a member. -/
theorem level_cases (tight : e.level.below .bareNew = false) :
    e.level.below .leftHandSide = false ∨ ∃ callee, e.unwrap = call callee [] true := by
  induction e with
  | grouping inner ih => exact ih tight
  | leaf l | member object name | index object key => exact .inl rfl
  | call callee args isNew =>
    cases args with
    | cons e args => exact .inl rfl
    | nil =>
      cases isNew with
      | false => exact .inl rfl
      | true => exact .inr ⟨callee, rfl⟩
  | binary op left right => cases op <;> cases tight
  | update op isPrefix operand => cases isPrefix <;> cases tight
  | _ => cases tight

theorem containsCall_unwrap (e : Expr) : e.unwrap.containsCall = e.containsCall := by
  fun_induction unwrap e with
  | case1 inner ih => exact ih
  | case2 => rfl

theorem level_of_not_containsCall (noCall : e.containsCall = false)
    (tight : e.level.below .bareNew = false) : e.level.below .leftHandSide = false := by
  refine (level_cases tight).resolve_right fun ⟨callee, same⟩ => ?_
  rw [← e.containsCall_unwrap, same] at noCall
  cases noCall

/-- The tokens of an expression that `new` is applied to: a call in it has to stand in parentheses. -/
def calleeTokens (callee : Expr) : List Token :=
  if callee.containsCall then Condense.enclosed callee.bare else fitted callee.level .bareNew callee.bare

def calleeRead (callee : Expr) : Expr :=
  if callee.containsCall then grouping callee.reread else placed callee.level .bareNew callee.reread

def newArguments (args : List Expr) : List Token :=
  if args.isEmpty then [] else enclosed (listed args)

theorem bare_new (callee : Expr) (args : List Expr) :
    (call callee args true).bare = .keyword .new :: (callee.calleeTokens ++ newArguments args) := by
  rfl

theorem reread_new (callee : Expr) (args : List Expr) :
    (call callee args true).reread = call callee.calleeRead (rereadAll args) true := by
  rfl

theorem fitted_callee (callee : Expr) : Fitted .leftHandSide callee callee.calleeTokens callee.calleeRead := by
  unfold calleeTokens calleeRead
  split
  · exact .enclosed
  · rename_i noCall
    unfold Condense.fitted placed
    split
    · exact .enclosed
    · rename_i tight
      exact .bare (level_of_not_containsCall (by simpa using noCall) (by simpa using tight))

theorem bare_unwrap (e : Expr) : e.unwrap.bare = e.bare := by
  fun_induction unwrap e with
  | case1 inner ih => rw [ih, bare]
  | case2 => rfl

theorem reread_unwrap (e : Expr) : e.unwrap.reread = e.reread := by
  fun_induction unwrap e with
  | case1 inner ih => rw [ih, reread]
  | case2 => rfl

theorem Valid.unwrap (valid : e.Valid) : e.unwrap.Valid := by
  fun_induction Expr.unwrap e with
  | case1 inner ih => exact ih valid
  | case2 => exact valid

theorem isTarget_reread (target : e.isTarget) : e.reread.isTarget := by
  unfold isTarget at target
  rw [← e.reread_unwrap]
  split at target
  · rename_i same
    rw [same]
    rfl
  · rename_i same
    rw [same]
    rfl
  · rename_i same
    rw [same]
    rfl
  · cases target

theorem Fitted.isTarget {read : Expr} {min : Level} {tokens : List Token} (fits : Fitted min e tokens read)
    (target : e.isTarget) : read.isTarget := by
  cases fits with
  | bare | enclosed => exact isTarget_reread target

theorem not_containsCall {callee : Expr} (bare : callee.calleeTokens = callee.bare) : callee.containsCall = false := by
  refine Bool.eq_false_iff.mpr fun call => ?_
  rw [calleeTokens, if_pos call] at bare
  have same := congrArg List.length bare
  simp only [enclosed, cons_append, length_cons, length_append] at same
  omega

end Expr

namespace Parse

variable {rules : Rules} {input rest tokens : List Token} {b calls : Bool} {n : Nat} {start : Span} {read : Expr}
  {P : Tree → NodeId → Prop}

theorem expectPropertyName_reads :
    Reads b n expectPropertyName (.identifier name escaped :: rest) rest fun _ found => found.1 = name :=
  reads_token (reads_bump fun _ => reads_pure fun _ => rfl)

/-- Whether a suffix was found, and what it makes of the expression. -/
def Found (P : NodeId → Prop) : Option NodeId → Prop
  | some id => P id
  | none => False

theorem memberSuffix?_member {object : Expr} :
    Reads b n (memberSuffix? rules id start) (.punctuator .dot :: .identifier name escaped :: rest) rest
      fun t => Found fun extended => object.At t id → (Expr.member object name).At t extended := by
  refine reads_token (reads_bump fun _ => expectPropertyName_reads.bind fun found => ?_)
  exact (reads_allocFrom _ start).bind fun extended => reads_pure fun t form same here => ⟨id, same ▸ form, here⟩

theorem memberSuffix?_none {s : ParseState} (awaits : s.Awaits b rest)
    (other : (rest.headD .endOfInput).selects = false) : memberSuffix? rules id start s = .ok none s := by
  refine (bind_run (token_run awaits)).trans ?_
  unfold Token.selects at other
  split at other <;> simp_all [pure_run]

theorem suffixStep_select {object : NodeId} {Q : Tree → Turn NodeId NodeId → Prop}
    (noChain : (input.headD .endOfInput).is .optionalChain = false)
    (noCall : (input.headD .endOfInput).is .lParen = false) (then' : Reads b n (selectStep rules start object) input rest Q) :
    Reads b n (suffixStep rules start object) input rest Q := by
  refine reads_token ?_
  split
  · rename_i same
    rw [same] at noChain
    cases noChain
  · rename_i same
    rw [same] at noCall
    cases noCall
  · exact then'

theorem selectStep_done (other : (rest.headD .endOfInput).selects = false) :
    Reads b n (selectStep rules start id) rest rest fun _ turn => turn = .done id :=
  .look (fun _ awaits => memberSuffix?_none awaits other) (reads_pure fun _ => rfl)

theorem suffixStep_done (stops : StopsAt .leftHandSide rest) :
    Reads b n (suffixStep rules start id) rest rest fun _ turn => turn = .done id :=
  suffixStep_select (stops.not_is rfl rfl) (stops.not_is rfl rfl) (selectStep_done stops.not_selects)

/-- Each of the loops goes on behind a suffix. -/
theorem step_again {step : NodeId → Parse (Turn NodeId NodeId)}
    (steps : step = selectStep rules start ∨ step = suffixStep rules start) (selects : (input.headD .endOfInput).selects)
    (extended : Reads b n (memberSuffix? rules id start) input rest fun t => Found (P t)) :
    Reads b n (step id) input rest fun t => Turn.Again (P t) := by
  have select : Reads b n (selectStep rules start id) input rest fun t => Turn.Again (P t) := by
    refine extended.bindAt fun found s awaits _ holds => ?_
    cases found with
    | some extended => exact ⟨.again extended, s, rfl, awaits.passes, holds⟩
    | none => exact (holds _ (.refl _)).elim
  rcases steps with rfl | rfl
  · exact select
  · exact suffixStep_select (Token.not_is selects rfl) (Token.not_is selects rfl) select

/-- Whether reading the tokens and the suffixes behind them comes to the place where the tokens were read and only
the suffixes behind them are left. What is done at the word `new`, and whether calls are read, differs between the
rules. -/
def ReadsChain (b : Bool) (n : Nat) (rules : Rules) (calls : Bool) (tokens : List Token) (read : Expr) : Prop :=
  ∀ ⦃rest final : List Token⦄ ⦃start : Span⦄ ⦃Q : Tree → NodeId → Prop⦄ ⦃atNew : Parse NodeId⦄
    ⦃step : NodeId → Parse (Turn NodeId NodeId)⦄, StopsAt .primary rest →
    (step = selectStep rules start ∨ step = suffixStep rules start) →
    (calls = true → atNew = newExpression rules ∧ step = suffixStep rules start) →
    (∀ id, Loops b n step id rest final fun t found => read.At t id → Q t found) →
    Reads b n ((if ((tokens ++ rest).headD .endOfInput).isWord .new then atNew else primary rules) >>= fun first =>
      cycle first step) (tokens ++ rest) final Q

namespace ReadsChain

theorem of_primary (noNew : ∀ rest, ((tokens ++ rest).headD .endOfInput).isWord .new = false)
    (head : ∀ {rest}, StopsAt .primary rest → Reads b n (primary rules) (tokens ++ rest) rest read.At) :
    ReadsChain b n rules calls tokens read := by
  intro rest final start Q atNew step stops steps kinds then'
  rw [noNew]
  exact (head stops).bind fun id => reads_cycle (then' id)

theorem extend (chain : ReadsChain b n rules calls tokens read) {suffix : List Token} {longer : Expr}
    (some : suffix ≠ []) (follows : ∀ rest, StopsAt .primary (suffix ++ rest))
    (extends' : ∀ {rest : List Token} {id : NodeId} {start : Span} {step : NodeId → Parse (Turn NodeId NodeId)},
      (step = selectStep rules start ∨ step = suffixStep rules start) → (calls → step = suffixStep rules start) →
      Reads b n (step id) (suffix ++ rest) rest fun t => Turn.Again fun extended => read.At t id → longer.At t extended) :
    ReadsChain b n rules calls (tokens ++ suffix) longer := by
  intro rest final start Q atNew step stops steps kinds then'
  rw [append_assoc]
  refine chain (follows rest) steps kinds fun id => .step (extends' steps fun call => (kinds call).2) ?_ then'
  simpa using length_pos_iff.mpr some

theorem member (chain : ReadsChain b n rules calls tokens read) (name : String) :
    ReadsChain b n rules calls (tokens ++ [.punctuator .dot, .identifier name false]) (.member read name) :=
  chain.extend (by simp) (fun rest => .cons fun level joins => by cases joins; rfl)
    fun steps _ => step_again steps rfl memberSuffix?_member

/-- A chain is read as a whole if nothing of the rest belongs to it. -/
theorem whole (chain : ReadsChain b n rules calls tokens read) {atNew : Parse NodeId}
    {step : NodeId → Parse (Turn NodeId NodeId)} (stops : StopsAt .primary rest)
    (steps : step = selectStep rules start ∨ step = suffixStep rules start)
    (kinds : calls → atNew = newExpression rules ∧ step = suffixStep rules start)
    (last : ∀ id, Reads b n (step id) rest rest fun _ turn => turn = .done id) :
    Reads b n ((if ((tokens ++ rest).headD .endOfInput).isWord .new then atNew else primary rules) >>= fun first =>
      cycle first step) (tokens ++ rest) rest read.At := by
  refine chain stops steps kinds fun id => .done ((last id).imp ?_)
  rintro t _ rfl here
  exact here

end ReadsChain

variable (reads : ReadsUpTo rules n)

include reads

theorem memberSuffix?_index {object key : Expr} (valid : key.Valid) :
    Reads b (n + 1) (memberSuffix? rules id start) (.punctuator .lBracket :: (key.bare ++ .punctuator .rBracket :: rest)) rest
      fun t => Found fun extended => object.At t id → (Expr.index object key.reread).At t extended := by
  have stops : StopsAt .comma (.punctuator .rBracket :: rest) := .cons fun level joins => by cases joins
  refine reads_token (reads_bump_less fun _ => (reads_allowingIn (expression_reads reads valid stops)).bind fun found => ?_)
  refine reads_expect fun _ => (reads_allocFrom _ start).bind fun extended => ?_
  exact reads_pure fun t form keyAt here => ⟨id, found, form, here, keyAt⟩

theorem suffixStep_call {callee : Expr} (valid : Expr.AllValid args) :
    Reads b (n + 1) (suffixStep rules start id) (enclosed (Expr.listed args) ++ rest) rest fun t => Turn.Again fun extended =>
      callee.At t id → (Expr.call callee (Expr.rereadAll args) false).At t extended := by
  refine reads_token ((arguments_reads reads valid).bind fun ids => (reads_allocFrom _ start).bind fun extended => ?_)
  exact reads_pure fun t form all here => ⟨id, ids, form, here, all⟩

theorem ReadsChain.index (chain : ReadsChain b (n + 1) rules calls tokens read) {key : Expr} (valid : key.Valid) :
    ReadsChain b (n + 1) rules calls (tokens ++ .punctuator .lBracket :: key.bare ++ [.punctuator .rBracket])
      (.index read key.reread) := by
  rw [append_assoc, cons_append]
  refine chain.extend (by simp) (fun rest => .cons fun level joins => by cases joins; rfl)
    fun steps _ => step_again steps rfl ?_
  simpa using memberSuffix?_index reads valid

theorem ReadsChain.call (chain : ReadsChain b (n + 1) rules true tokens read) (valid : Expr.AllValid args) :
    ReadsChain b (n + 1) rules true (tokens ++ enclosed (Expr.listed args)) (.call read (Expr.rereadAll args) false) := by
  refine chain.extend (by simp [enclosed]) (fun rest => .cons fun level joins => by cases joins; rfl) fun _ calls => ?_
  rw [calls rfl]
  exact suffixStep_call reads valid

theorem newArguments_reads {β : Type} {f : List NodeId → Parse β} {final : List Token} {Q : Tree → β → Prop}
    (valid : Expr.AllValid args) (stops : args = [] → StopsAt .leftHandSide rest)
    (then' : ∀ ids, Reads b (n + 1) (f ids) rest final fun t found => Expr.AllAt t (Expr.rereadAll args) ids → Q t found) :
    Reads b (n + 1) (do
      let found ← if ← isAt .lParen then arguments rules else pure []
      f found) (Expr.newArguments args ++ rest) final Q := by
  refine reads_isAt ?_
  cases args with
  | nil =>
    have noCall : (rest.headD .endOfInput).is .lParen = false := (stops rfl).not_is rfl rfl
    rw [show Expr.newArguments [] ++ rest = rest from rfl, noCall]
    exact (then' []).imp fun t found result => result rfl
  | cons e args => exact (arguments_reads reads valid).bind then'

section

variable (chain : ReadsChain b (n + 1) rules false tokens read) (opens : Starts Token.opens tokens)
  (valid : Expr.AllValid args)

include chain opens valid

theorem newExpression_reads (stops : args = [] → StopsAt .leftHandSide rest) :
    Reads b (n + 1) (newExpression rules) (.keyword .new :: (tokens ++ (Expr.newArguments args ++ rest))) rest
      (Expr.call read (Expr.rereadAll args) true).At := by
  have noSelect : ((Expr.newArguments args ++ rest).headD .endOfInput).selects = false := by
    cases args with
    | nil => exact (stops rfl).not_selects
    | cons e args => rfl
  have ends : StopsAt .primary (Expr.newArguments args ++ rest) := by
    cases args with
    | nil => exact (stops rfl).mono rfl
    | cons e args => exact .cons fun level joins => by cases joins; rfl
  refine reads_bump fun l => reads_eat_of_ne ?_ (reads_isAtWord (reads_choice ?_))
  · obtain ⟨t, more, rfl, opens⟩ := opens
    exact Token.not_is opens rfl
  rw [← bind_assoc]
  refine (chain.whole ends (.inl rfl) (absurd · Bool.false_ne_true) fun id => selectStep_done noSelect).bind fun id => ?_
  refine newArguments_reads reads valid stops fun ids => (reads_allocFrom _ l.span).imp fun t _ form args here => ?_
  exact ⟨id, ids, form, here, args⟩

theorem ReadsChain.new (some : args ≠ []) :
    ReadsChain b (n + 1) rules true (.keyword .new :: (tokens ++ Expr.newArguments args)) (.call read (Expr.rereadAll args) true) := by
  intro rest final start Q atNew step stops steps kinds then'
  rw [(kinds rfl).1, cons_append, append_assoc]
  exact (newExpression_reads reads chain opens valid fun none => absurd none some).bind fun id => reads_cycle (then' id)

end

theorem readsChain_enclosed (valid : e.Valid) : ReadsChain b (n + 1) rules calls (enclosed e.bare) (.grouping e.reread) :=
  .of_primary (fun _ => rfl) fun stops => primary_enclosed reads valid stops

theorem readsChain_bare (fits : e.Fitted .leftHandSide tokens read) (valid : e.Valid)
    (noCalls : calls = false → tokens = e.bare → e.containsCall = false)
    (bare : e.level.below .leftHandSide = false → (calls = false → e.containsCall = false) →
      ReadsChain b (n + 1) rules calls e.bare e.reread) : ReadsChain b (n + 1) rules calls tokens read := by
  cases fits with
  | enclosed => exact readsChain_enclosed reads valid
  | bare tight => exact bare tight fun none => noCalls none rfl

theorem readsChain (valid : e.Valid) (fits : e.Fitted .leftHandSide tokens read)
    (noCalls : calls = false → tokens = e.bare → e.containsCall = false) : ReadsChain b (n + 1) rules calls tokens read := by
  induction e generalizing calls tokens read with
  | grouping inner ih => exact ih valid fits.grouping noCalls
  | leaf l =>
    refine readsChain_bare reads fits valid noCalls fun _ _ => .of_primary (fun rest => ?_) primary_leaf
    cases l with
    | boolean value => cases value <;> rfl
    | _ => rfl
  | member object name ih =>
    exact readsChain_bare reads fits valid noCalls fun _ noCalls =>
      (ih valid.1 (object.fitted_placed _) fun none _ => noCalls none).member name
  | index object key ih =>
    exact readsChain_bare reads fits valid noCalls fun _ noCalls =>
      (ih valid.1 (object.fitted_placed _) fun none _ => noCalls none).index reads valid.2
  | call callee args isNew ih =>
    refine readsChain_bare reads fits valid noCalls fun tight noCalls => ?_
    obtain rfl : calls := by
      cases calls with
      | false => cases noCalls rfl
      | true => rfl
    cases isNew with
    | false =>
      have chain : ReadsChain b (n + 1) rules true _ _ := ih valid.1 (callee.fitted_placed _) fun none => by cases none
      exact chain.call reads valid.2
    | true =>
      have some : args ≠ [] := by
        rintro rfl
        cases tight
      have chain : ReadsChain b (n + 1) rules false _ _ := ih valid.1 callee.fitted_callee fun _ => Expr.not_containsCall
      exact chain.new reads callee.fitted_callee.opens valid.2 some
  | binary op left right =>
    refine readsChain_bare reads fits valid noCalls fun tight => ?_
    cases op <;> cases tight
  | update op isPrefix operand =>
    refine readsChain_bare reads fits valid noCalls fun tight => ?_
    cases isPrefix <;> cases tight
  | _ => exact readsChain_bare reads fits valid noCalls fun tight => by cases tight

omit reads

theorem leftHandSide_of_chain (chain : ReadsChain b n rules true tokens read) (stops : StopsAt .leftHandSide rest) :
    Reads b n (leftHandSide rules) (tokens ++ rest) rest read.At :=
  reads_place fun _ => reads_isAtWord (reads_choice (chain.whole (stops.mono rfl) (.inr rfl) (fun _ => ⟨rfl, rfl⟩)
    fun _ => suffixStep_done stops))

/-- What may be assigned to is not reported. -/
theorem checkTarget_run {s : ParseState} {allowPattern : Bool} (here : e.At s.tree id) (target : e.isTarget) :
    checkTarget id allowPattern s = .ok ⟨⟩ s := by
  have inner := here.unwrap
  simp only [checkTarget, Bind.bind, EStateM.bind, get_run]
  unfold Expr.isTarget at target
  split at target
  · rename_i same
    obtain ⟨field, type, form⟩ : ∃ field type, s.tree.form _ = .lookup _ field type := same ▸ inner
    rw [form]
    rfl
  · rename_i same
    obtain ⟨i, form, -⟩ : ∃ i, s.tree.form _ = .member i _ false ∧ _ := same ▸ inner
    rw [form]
    rfl
  · rename_i same
    obtain ⟨i, j, form, -⟩ : ∃ i j, s.tree.form _ = .index i j false ∧ _ := same ▸ inner
    rw [form]
    rfl
  · cases target

theorem noOperator_of_begins {t : Token} (begins : t.begins) :
    unaryOp? t = none ∧ updateOp? t = none ∧ t.isWord .await = false := by
  unfold Token.begins at begins
  split at begins <;> first | exact ⟨rfl, rfl, rfl⟩ | cases begins

theorem updateOp?_eq_none (stops : StopsAt .postfixed rest) : updateOp? (rest.headD .endOfInput) = none := by
  have noIncrement := stops.not_is (p := .plusPlus) rfl rfl
  have noDecrement := stops.not_is (p := .minusMinus) rfl rfl
  unfold updateOp?
  split
  · rename_i same
    rw [same] at noIncrement
    cases noIncrement
  · rename_i same
    rw [same] at noDecrement
    cases noDecrement
  · rfl

theorem postfixUpdate_none (operand : Reads b n (leftHandSide rules) input rest read.At)
    (stops : StopsAt .postfixed rest) : Reads b n (postfixUpdate rules start) input rest read.At := by
  refine operand.bind fun id => reads_lexeme fun l token _ => ?_
  rw [token, updateOp?_eq_none stops, ite_self]
  exact reads_pure fun _ here => here

theorem unary_of_begins {P : Tree → NodeId → Prop} (begins : (input.headD .endOfInput).begins)
    (then' : ∀ start, Reads b n (postfixUpdate rules start) input rest P) : Reads b n (unary rules) input rest P := by
  obtain ⟨noUnary, noUpdate, noAwait⟩ := noOperator_of_begins begins
  refine reads_place fun start => reads_token ?_
  rw [noUnary, noUpdate, noAwait]
  exact then' start

theorem unary_name (stops : StopsAt .unary rest) :
    Reads b n (unary rules) (.identifier name escaped :: rest) rest (Expr.leaf (.name name)).At := by
  have chain : ReadsChain b n rules true [.identifier name escaped] (.leaf (.name name)) :=
    .of_primary (fun _ => rfl) primary_name
  exact unary_of_begins rfl fun _ => postfixUpdate_none (leftHandSide_of_chain chain (stops.mono rfl)) (stops.mono rfl)

variable (valid : e.Valid)

include reads valid

theorem leftHandSide_reads (fits : e.Fitted .bareNew tokens read) (stops : StopsAt .leftHandSide rest) :
    Reads b (n + 1) (leftHandSide rules) (tokens ++ rest) rest read.At := by
  have kinds : e.Fitted .leftHandSide tokens read ∨
      ∃ callee, e.unwrap = .call callee [] true ∧ tokens = e.bare ∧ read = e.reread := by
    cases fits with
    | enclosed => exact .inl .enclosed
    | bare tight => exact (Expr.level_cases tight).imp .bare fun ⟨callee, same⟩ => ⟨callee, same, rfl, rfl⟩
  rcases kinds with fits | ⟨callee, same, rfl, rfl⟩
  · exact leftHandSide_of_chain (readsChain reads valid fits fun none => by cases none) stops
  · refine reads_place fun start => reads_isAtWord (reads_choice ?_)
    have validNew := valid.unwrap
    rw [same] at validNew
    rw [← e.reread_unwrap, same, Expr.reread_new, ← e.bare_unwrap, same, Expr.bare_new, cons_append, append_assoc]
    have chain : ReadsChain b (n + 1) rules false _ _ :=
      readsChain reads validNew.1 callee.fitted_callee fun _ => Expr.not_containsCall
    refine (newExpression_reads reads chain callee.fitted_callee.opens validNew.2 fun _ => stops).bind fun id => ?_
    refine reads_cycle (.done ((suffixStep_done stops).imp ?_))
    rintro t _ rfl here
    exact here

theorem postfixUpdate_reads (op : UpdateOp) (target : e.isTarget) (fits : e.Fitted .leftHandSide tokens read) :
    Reads b (n + 1) (postfixUpdate rules start) (tokens ++ op.token :: rest) rest (Expr.update op false read).At := by
  have stops : StopsAt .leftHandSide (op.token :: rest) := by
    refine .cons fun level joins => ?_
    cases op <;> cases joins <;> rfl
  refine (leftHandSide_reads reads valid (fits.mono rfl) stops).bindAt fun id s awaits few here => ?_
  have token : s.current.token = op.token := awaits.token
  have sameLine : s.current.newlineBefore = false := awaits.inLine (by rw [token]; cases op <;> rfl)
  have isOp : updateOp? op.token = some op := by cases op <;> rfl
  refine .of_run (bind_run (a := s.current) rfl) awaits.passes ?_
  rw [sameLine, token, isOp]
  refine .of_run (bind_run (checkTarget_run (here _ (.refl _)) (fits.isTarget target))) awaits.passes ?_
  exact (reads_bump (fun _ => (reads_allocFrom _ start).imp fun t _ form here => ⟨id, form, here⟩) s awaits few).given here

theorem unary_operator (op : UnaryOp) (stops : StopsAt .unary rest) :
    Reads true (n + 1) (unary rules) (op.token :: (e.tokens .unary ++ rest)) rest
      (Expr.unary op (.placed e.level .unary e.reread)).At := by
  refine reads_place fun start => reads_token ?_
  have isOp : unaryOp? op.token = some op := by cases op <;> rfl
  rw [headD_cons, isOp]
  exact reads_bump_less fun _ => (reads .unary valid (e.fitted_placed .unary) stops).bind fun id =>
    (reads_allocFrom _ start).imp fun t _ form here => ⟨id, form, here⟩

theorem unary_update (op : UpdateOp) (target : e.isTarget) (stops : StopsAt .unary rest) :
    Reads true (n + 1) (unary rules) (op.token :: (e.tokens .unary ++ rest)) rest
      (Expr.update op true (.placed e.level .unary e.reread)).At := by
  refine reads_place fun start => reads_token ?_
  have isOp : unaryOp? op.token = none ∧ updateOp? op.token = some op := by cases op <;> exact ⟨rfl, rfl⟩
  rw [headD_cons, isOp.1, isOp.2]
  refine reads_bump_less fun _ => (reads .unary valid (e.fitted_placed .unary) stops).bindAt fun id s awaits few here => ?_
  refine .of_run (bind_run (checkTarget_run (here _ (.refl _)) ((e.fitted_placed .unary).isTarget target))) awaits.passes ?_
  exact ((reads_allocFrom _ start).imp (fun t _ form here => ⟨id, form, here⟩) s awaits few).given here

theorem unary_leftHandSide (fits : e.Fitted .bareNew tokens read) (stops : StopsAt .unary rest) :
    Reads b (n + 1) (unary rules) (tokens ++ rest) rest read.At := by
  refine unary_of_begins ?_ fun _ => postfixUpdate_none (leftHandSide_reads reads valid fits (stops.mono rfl)) (stops.mono rfl)
  obtain ⟨t, more, rfl, begins⟩ := fits.begins
  exact begins

theorem unary_bare (tight : e.level.below .unary = false) (stops : StopsAt .unary rest) :
    Reads true (n + 1) (unary rules) (e.bare ++ rest) rest e.reread.At := by
  induction e with
  | grouping inner ih => exact ih valid tight
  | unary op operand => exact unary_operator (e := operand) reads valid op stops
  | update op isPrefix operand =>
    cases isPrefix with
    | true => exact unary_update reads valid.1 op valid.2 stops
    | false =>
      rw [Expr.bare, append_assoc]
      have fits := operand.fitted_placed .leftHandSide
      refine unary_of_begins ?_ fun _ => postfixUpdate_reads reads valid.1 op valid.2 fits
      have loose : operand.Fitted .bareNew _ _ := fits.mono rfl
      obtain ⟨t, more, same, begins⟩ := loose.begins
      rwa [same]
  | binary op left right => cases op <;> cases tight
  | conditional condition consequent alternate => cases tight
  | call callee args isNew =>
    refine unary_leftHandSide reads valid (.bare ?_) stops
    cases args <;> cases isNew <;> rfl
  | _ => exact unary_leftHandSide reads valid (.bare rfl) stops

theorem unary_reads (fits : e.Fitted .unary tokens read) (stops : StopsAt .unary rest) :
    Reads true (n + 1) (unary rules) (tokens ++ rest) rest read.At := by
  cases fits with
  | enclosed => exact unary_leftHandSide reads valid .enclosed stops
  | bare tight => exact unary_bare reads valid tight stops

end Parse

end Condense
