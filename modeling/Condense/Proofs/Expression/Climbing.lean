import Condense.Proofs.Expression.Chain

/-!
Reading back operators between operands, conditions and assignments, and with them every expression.
-/

namespace Condense

open List

variable {min level : Level} {e : Expr} {op : BinaryOp}

/-- The level that ends an expression of the given level: operators of it or tighter ones belong to its last
operand. -/
def Level.right : Level → Level
  | .exponent => .exponent
  | .unary | .postfixed | .bareNew | .leftHandSide | .primary => .unary
  | l => l.tighter

theorem Level.not_below_right (fits : level.below min = false) (loose : min.below .unary) :
    level.right.below min = false := by
  have tighter : level.rank ≤ level.right.rank ∨ Level.unary.rank ≤ level.right.rank := by cases level <;> decide
  simp only [Level.below, decide_eq_true_eq, decide_eq_false_iff_not] at *
  omega

/-- An operator that binds less tightly than `**` ends every expression of its level. -/
theorem Level.below_right (fits : level.below min = false) (loose : min.below .exponent) :
    min.below level.right := by
  have tighter : level.rank + 1 ≤ level.right.rank ∨ Level.exponent.rank ≤ level.right.rank := by
    cases level <;> decide
  simp only [Level.below, decide_eq_true_eq, decide_eq_false_iff_not] at *
  omega

theorem Level.right_of_not_below_unary (tight : level.below .unary = false) : level.right = .unary := by
  cases level <;> first | rfl | cases tight

theorem Token.joinLevel?_of_binaryOp? {t : Token} (isOp : t.binaryOp? = some op) : t.joinLevel? = some op.level := by
  cases t with
  | punctuator p => cases p <;> first | cases isOp; rfl | cases isOp
  | keyword k => cases k <;> first | cases isOp; rfl | cases isOp
  | _ => cases isOp

theorem Token.joinLevel?_of_assignmentOp? {t : Token} (isOp : t.assignmentOp? = some op) :
    t.joinLevel? = some .assignment := by
  cases t with
  | punctuator p => cases p <;> first | rfl | cases isOp
  | _ => cases isOp

theorem StopsAt.rank_lt {rest : List Token} (stops : StopsAt min rest) :
    ∀ op ∈ (rest.headD .endOfInput).binaryOp?, op.level.rank < min.rank := by
  intro op isOp
  cases rest with
  | nil => cases isOp
  | cons t rest => exact of_decide_eq_true (stops t rfl op.level (Token.joinLevel?_of_binaryOp? isOp))

namespace BinaryOp

theorem level_below_right (notExp : op ≠ .exp) : op.level.below op.level.right := by
  cases op <;> first | rfl | exact absurd rfl notExp

theorem ne_exp_of_isAssociative (associative : op.isAssociative) : op ≠ .exp := by
  rintro rfl
  cases associative

/-- An associative operator is the only one of its level. -/
theorem eq_of_level_eq {other : BinaryOp} (associative : op.isAssociative)
    (tight : other.level.below op.level = false) (loose : other.level.below op.level.right) : other = op := by
  cases op <;> cases associative <;> cases other <;>
    first | rfl | exact absurd tight (by decide) | exact absurd loose (by decide)

theorem leftLevel_of_isAssociative (associative : op.isAssociative) : Expr.leftLevel op = op.level := by
  cases op <;> cases associative <;> rfl

theorem rightLevel_not_below (op : BinaryOp) (right : Expr) : (Expr.rightLevel op right).below op.level = false := by
  unfold Expr.rightLevel
  split
  · simp [Level.below]
  · cases op <;> rfl

theorem leftLevel_not_below (op : BinaryOp) : (Expr.leftLevel op).below op.level = false := by
  cases op <;> rfl

theorem level_below_unary (op : BinaryOp) : op.level.below .unary := by
  cases op <;> rfl

end BinaryOp

section

variable (climbs : op.level.below .coalesce = false)

include climbs

theorem BinaryOp.binaryOp?_token : op.token.binaryOp? = some op := by
  cases op <;> first | rfl | cases climbs

theorem BinaryOp.rank_right : Parse.operandRank op = op.level.right.rank := by
  cases op <;> first | rfl | cases climbs

theorem BinaryOp.serves_right : Goal.Serves (.binary op.level.right.rank) op.level.right := by
  refine .binary ?_ ?_ <;> cases op <;> first | rfl | cases climbs

theorem BinaryOp.below_right_of_leftLevel (fits : level.below (Expr.leftLevel op) = false) :
    op.level.below level.right := by
  by_cases isExp : op = .exp
  · subst isExp
    rw [Level.right_of_not_below_unary]
    · rfl
    · cases level <;> first | rfl | cases fits
  · have plain : Expr.leftLevel op = op.level ∧ op.level.below .exponent := by
      cases op <;> first | exact ⟨rfl, rfl⟩ | exact absurd rfl isExp | cases climbs
    exact Level.below_right (plain.1 ▸ fits) plain.2

theorem BinaryOp.rightLevel_of_not_isAssociative (plain : op.isAssociative = false) (right : Expr) :
    Expr.rightLevel op right = op.level.right := by
  cases op <;> first | rfl | (cases plain; done) | cases climbs

/-- Only a chain of an associative operator has its level. -/
theorem Expr.eq_binary_of_level (associative : op.isAssociative) (tight : e.level.below op.level = false)
    (loose : e.level.below op.level.right) : ∃ first second, e.unwrap = .binary op first second := by
  induction e with
  | grouping inner ih => exact ih tight loose
  | binary other first second =>
    obtain rfl := BinaryOp.eq_of_level_eq associative tight loose
    exact ⟨first, second, rfl⟩
  | conditional => cases op <;> cases associative <;> first | (cases tight; done) | cases climbs
  | update _ isPrefix _ => cases isPrefix <;> cases op <;> cases associative <;> cases loose
  | call _ args isNew => cases isNew <;> cases args <;> cases op <;> cases associative <;> cases loose
  | _ => cases op <;> cases associative <;> cases loose

end

namespace Parse

variable {rules : Rules} {input rest tokens : List Token} {read : Expr} {rank n : Nat} {right : Expr} {b : Bool}
  {start : Span} {id : NodeId}

theorem climb_done {Q : Tree → NodeId → Prop} (ends : ∀ op ∈ (rest.headD .endOfInput).binaryOp?, op.level.rank < rank) :
    Loops b n (climb rules rank start) id rest rest fun t found => Q t id → Q t found := by
  refine .done (reads_token ?_)
  cases isOp : (rest.headD .endOfInput).binaryOp? with
  | none => exact reads_pure fun t holds => holds
  | some op =>
    refine reads_get fun s _ => ?_
    rw [decide_eq_true (ends op isOp), Bool.or_true]
    exact reads_pure fun t holds => holds

/-- An operator of at least the rank is joined to what stands before it and the operand that is read behind it. -/
theorem climb_operator {left : Expr} (climbs : op.level.below .coalesce = false) (reaches : rank ≤ op.level.rank)
    (operand : Reads true n (rules (.binary op.level.right.rank)) input rest read.At) :
    Reads true (n + 1) (climb rules rank start id) (op.token :: input) rest fun t => Turn.Again fun joined =>
      left.At t id → (Expr.binary op left read).At t joined := by
  refine reads_token ?_
  rw [headD_cons, BinaryOp.binaryOp?_token climbs]
  refine reads_get fun s awaits => ?_
  have enough : decide (op.level.rank < rank) = false := by simpa using reaches
  rw [awaits.allowed rfl, Bool.and_false, Bool.false_or, enough]
  refine reads_bump_less fun _ => ?_
  rw [BinaryOp.rank_right climbs]
  exact operand.bind fun right => (reads_allocFrom _ start).bind fun joined =>
    reads_pure fun t form rightAt leftAt => ⟨id, right, form, leftAt, rightAt⟩

/-- Whether climbing reads an operator with its right operand behind what was read before, and joins it to that. -/
def Climbs (n : Nat) (rules : Rules) (rank : Nat) (op : BinaryOp) (tokens : List Token) (read : Expr) : Prop :=
  ∀ ⦃rest final : List Token⦄ ⦃Q : Tree → NodeId → Prop⦄ ⦃start : Span⦄ ⦃left : Expr⦄ ⦃id : NodeId⦄,
    StopsAt op.level.right rest → (∀ joined, Loops true n (climb rules rank start) joined rest final fun t found =>
      (Expr.join op left read).At t joined → Q t found) →
    Loops true n (climb rules rank start) id (op.token :: (tokens ++ rest)) final fun t found => left.At t id → Q t found

theorem Climbs.append {first second : Expr} {more : List Token} (associative : op.isAssociative)
    (left : Climbs n rules rank op tokens first) (right : Climbs n rules rank op more second) :
    Climbs n rules rank op (tokens ++ op.token :: more) (.join op first second) := by
  intro rest final Q start outer id stops then'
  have ends : StopsAt op.level.right (op.token :: (more ++ rest)) :=
    .binary (BinaryOp.level_below_right (BinaryOp.ne_exp_of_isAssociative associative))
  rw [append_assoc]
  refine left ends fun _ => right stops fun joined => ?_
  rw [Expr.join_assoc associative]
  exact then' joined

variable (reads : ReadsUpTo rules n)

include reads

section

variable (climbs : op.level.below .coalesce = false) (reaches : rank ≤ op.level.rank)

include climbs reaches

theorem climbs_tight (valid : e.Valid) (fits : e.Fitted op.level.right tokens read) :
    Climbs (n + 1) rules rank op tokens read := by
  intro rest final Q start left id stops then'
  have notChain (first second : Expr) (same : read = .binary op first second) : op.isAssociative = false := by
    refine Bool.eq_false_iff.mpr fun associative => ?_
    have notExp := BinaryOp.ne_exp_of_isAssociative associative
    exact fits.ne_binary (BinaryOp.level_below_right notExp) first second same
  rw [Expr.join_of_ne notChain] at then'
  refine .step (climb_operator climbs reaches (reads (BinaryOp.serves_right climbs) valid fits stops)) ?_ then'
  rw [length_cons, length_append]
  omega

/-- A chain of one associative operator is read from the left. -/
theorem climbs_chain (associative : op.isAssociative) (valid : e.Valid) (fits : e.Fitted op.level tokens read) :
    Climbs (n + 1) rules rank op tokens read := by
  induction e generalizing tokens read with
  | grouping inner ih => exact ih valid fits.grouping
  | binary inner first second ihFirst ihSecond =>
    cases fits with
    | enclosed => exact climbs_tight reads climbs reaches valid .enclosed
    | bare tight =>
      by_cases loose : (Expr.binary inner first second).level.below op.level.right
      · obtain rfl := BinaryOp.eq_of_level_eq associative tight loose
        have fitsFirst := Expr.fitted_placedOperand inner first (Expr.leftLevel inner)
        have fitsSecond := Expr.fitted_placedOperand inner second (Expr.rightLevel inner second)
        rw [BinaryOp.leftLevel_of_isAssociative associative] at fitsFirst
        rw [Expr.bare, Expr.reread, BinaryOp.leftLevel_of_isAssociative associative]
        exact (ihFirst valid.1 fitsFirst).append associative
          (ihSecond valid.2.1 (fitsSecond.mono (BinaryOp.rightLevel_not_below inner second)))
      · exact climbs_tight reads climbs reaches valid (.bare (by simpa using loose))
  | _ =>
    cases fits with
    | enclosed => exact climbs_tight reads climbs reaches valid .enclosed
    | bare tight =>
      refine climbs_tight reads climbs reaches valid (.bare (Bool.eq_false_iff.mpr fun loose => ?_))
      obtain ⟨_, _, same⟩ := Expr.eq_binary_of_level climbs associative tight loose
      cases same

theorem climbs_operand (valid : right.Valid) :
    Climbs (n + 1) rules rank op (Expr.fittedOperand op right (Expr.rightLevel op right) right.bare)
      (.placedOperand op right (Expr.rightLevel op right) right.reread) := by
  have fits := Expr.fitted_placedOperand op right (Expr.rightLevel op right)
  cases associative : op.isAssociative with
  | true =>
    exact climbs_chain reads climbs reaches associative valid (fits.mono (BinaryOp.rightLevel_not_below op right))
  | false =>
    rw [BinaryOp.rightLevel_of_not_isAssociative climbs associative] at fits ⊢
    exact climbs_tight reads climbs reaches valid fits

end

omit reads in
/-- Whether climbing comes to the place where the tokens were read and only the operators behind them are left. -/
def ReadsClimb (n : Nat) (rules : Rules) (rank : Nat) (stop : Level) (tokens : List Token) (read : Expr) : Prop :=
  ∀ ⦃rest final : List Token⦄ ⦃Q : Tree → NodeId → Prop⦄ ⦃start : Span⦄, StopsAt stop rest →
    (∀ id, Loops true n (climb rules rank start) id rest final fun t found => read.At t id → Q t found) →
    Reads true n (unary rules >>= fun first => cycle first (climb rules rank start)) (tokens ++ rest) final Q

theorem readsClimb_unary (valid : e.Valid) (fits : e.Fitted .unary tokens read) :
    ReadsClimb (n + 1) rules rank .unary tokens read :=
  fun _ _ _ _ stops then' => (unary_reads reads valid fits stops).bind fun id => reads_cycle (then' id)

omit reads in
theorem ReadsClimb.climb {stop : Level} {more : List Token} (operand : ReadsClimb n rules rank stop tokens read)
    (climbs : Climbs n rules rank op more right) (ends : op.level.below stop) :
    ReadsClimb n rules rank op.level.right (tokens ++ op.token :: more) (.join op read right) := by
  intro rest final Q start stops then'
  rw [append_assoc]
  exact operand (.binary ends) fun _ => climbs stops then'

theorem readsClimb (valid : e.Valid) (tight : e.level.below .coalesce = false) (reaches : rank ≤ e.level.rank) :
    ReadsClimb (n + 1) rules rank e.level.right e.bare e.reread := by
  induction e with
  | grouping inner ih => exact ih valid tight reaches
  | binary op left right ihLeft =>
    rw [Expr.bare, Expr.reread]
    have climbs := climbs_operand reads tight reaches valid.2.1
    have fits := Expr.fitted_placedOperand op left (Expr.leftLevel op)
    generalize Expr.fittedOperand op left _ _ = tokens, Expr.placedOperand op left _ _ = read at fits ⊢
    cases fits with
    | enclosed => exact (readsClimb_unary reads valid.1 .enclosed).climb climbs op.level_below_unary
    | bare fits =>
      have least := BinaryOp.leftLevel_not_below op
      have loosest : op.level.below .coalesce = false := tight
      have reaches : rank ≤ op.level.rank := reaches
      refine (ihLeft valid.1 ?_ ?_).climb climbs (BinaryOp.below_right_of_leftLevel tight fits)
      all_goals
        simp only [Level.below, decide_eq_false_iff_not] at *
        omega
  | conditional => cases tight
  | update op isPrefix operand => cases isPrefix <;> exact readsClimb_unary reads valid (.bare rfl)
  | call callee args isNew => cases isNew <;> cases args <;> exact readsClimb_unary reads valid (.bare rfl)
  | _ => exact readsClimb_unary reads valid (.bare rfl)

theorem binary_reads (loosest : min.below .coalesce = false) (loose : min.below .unary) (valid : e.Valid)
    (fits : e.Fitted min tokens read) (stops : StopsAt min rest) :
    Reads true (n + 1) (binary rules min.rank) (tokens ++ rest) rest read.At := by
  have climb : ∃ stop, StopsAt stop rest ∧ ReadsClimb (n + 1) rules min.rank stop tokens read := by
    cases fits with
    | enclosed => exact ⟨.unary, stops.mono (by cases min <;> first | rfl | cases loose),
        readsClimb_unary reads valid .enclosed⟩
    | bare fits =>
      refine ⟨e.level.right, stops.mono (Level.not_below_right fits loose), readsClimb reads valid ?_ ?_⟩
      all_goals
        simp only [Level.below, decide_eq_false_iff_not] at *
        omega
  obtain ⟨stop, ends, climb⟩ := climb
  exact reads_place fun _ => climb ends fun _ => climb_done stops.rank_lt

omit reads

theorem conditional_of_binary (binary : Reads b n (binary rules Level.coalesce.rank) input rest read.At)
    (stops : StopsAt .conditional rest) : Reads b n (conditional rules) input rest read.At :=
  reads_place fun _ => binary.bind fun _ => reads_eat_of_ne (stops.not_is rfl rfl) (reads_pure fun _ here => here)

theorem noYield (fits : e.Fitted min tokens read) : ((tokens ++ rest).headD .endOfInput).isWord .yield = false := by
  obtain ⟨t, more, rfl, opens⟩ := fits.opens
  exact Token.not_isWord opens rfl

theorem assignmentOp?_eq_none (stops : StopsAt .assignment rest) : (rest.headD .endOfInput).assignmentOp? = none := by
  cases rest with
  | nil => rfl
  | cons t rest =>
    refine Option.eq_none_iff_forall_ne_some.mpr fun op isOp => ?_
    have below := stops t rfl .assignment (Token.joinLevel?_of_assignmentOp? isOp)
    cases below

theorem assignment_none (noYield : (input.headD .endOfInput).isWord .yield = false)
    (conditional : Reads b n (conditional rules) input rest read.At) (stops : StopsAt .assignment rest) :
    Reads b n (assignment rules) input rest read.At := by
  refine reads_place fun _ => reads_isAtWord ?_
  rw [noYield]
  refine conditional.bind fun id => reads_token ?_
  rw [assignmentOp?_eq_none stops]
  exact reads_pure fun _ here => here

/-- What operators join is a whole expression where no looser operator follows. -/
theorem expression_of_binary {depth : Nat} (noYield : (input.headD .endOfInput).isWord .yield = false)
    (binary : Reads b n (binary (rulesUpTo depth) Level.coalesce.rank) input rest read.At)
    (stops : StopsAt .comma rest) : Reads b n (expression (rulesUpTo (depth + 1))) input rest read.At := by
  have assignment := assignment_none noYield (conditional_of_binary binary (stops.mono rfl)) (stops.mono rfl)
  exact reads_place fun _ => assignment.bind fun _ =>
    reads_cycle (.done (reads_eat_of_ne (stops.not_is rfl rfl) (reads_pure fun _ here => here)))

theorem assignmentOp?_token (assigns : op.isAssignment) : op.token.assignmentOp? = some op := by
  cases op <;> first | rfl | cases assigns

include reads

theorem conditional_none (valid : e.Valid) (fits : e.Fitted .coalesce tokens read) (stops : StopsAt .conditional rest) :
    Reads true (n + 1) (conditional rules) (tokens ++ rest) rest read.At :=
  conditional_of_binary (binary_reads reads rfl rfl valid fits (stops.mono rfl)) stops

section

variable (valid : e.Valid) (stops : StopsAt .assignment rest)

include valid stops

theorem conditional_reads {condition consequent alternate : Expr}
    (shape : e = .conditional condition consequent alternate) :
    Reads true (n + 1) (conditional rules) (e.bare ++ rest) rest e.reread.At := by
  subst shape
  have atQuestion {more : List Token} : StopsAt .coalesce (.punctuator .question :: more) :=
    .cons fun level joins => by cases joins; rfl
  have atColon {more : List Token} : StopsAt .assignment (.punctuator .colon :: more) :=
    .cons fun level joins => by cases joins
  rw [Expr.bare]
  simp only [append_assoc, cons_append]
  refine reads_place fun start =>
    (binary_reads reads rfl rfl valid.1 (condition.fitted_placed .coalesce) atQuestion).bind fun i => reads_eat_less ?_
  refine (reads_allowingIn (reads .assignment valid.2.1 (consequent.fitted_placed .assignment) atColon)).bind fun j => ?_
  refine reads_expect fun _ => (reads .assignment valid.2.2 (alternate.fitted_placed .assignment) stops).bind fun k => ?_
  exact (reads_allocFrom _ start).imp fun t _ form third second first => ⟨i, j, k, form, first, second, third⟩

theorem assignment_operator {left : Expr} (shape : e = .binary op left right) (assigns : op.isAssignment) :
    Reads true (n + 1) (assignment rules) (e.bare ++ rest) rest e.reread.At := by
  subst shape
  have levels : Expr.leftLevel op = .leftHandSide ∧ Expr.rightLevel op right = .assignment := by
    cases op <;> first | exact ⟨rfl, rfl⟩ | cases assigns
  have noChain : op.isAssociative = false := by cases op <;> first | rfl | cases assigns
  have atOp {more : List Token} : StopsAt .conditional (op.token :: more) := by
    refine .binary ?_
    cases op <;> first | rfl | cases assigns
  have fitsLeft := Expr.fitted_placedOperand op left .leftHandSide
  have fitsRight := Expr.fitted_placedOperand op right .assignment
  rw [Expr.bare, levels.1, levels.2, append_assoc, cons_append, Expr.reread, levels.1, levels.2,
    Expr.join_of_ne fun _ _ _ => noChain]
  refine reads_place fun start => reads_isAtWord ?_
  rw [noYield fitsLeft]
  refine (conditional_none reads valid.1 (fitsLeft.mono rfl) atOp).bindAt fun i s awaits few leftAt => ?_
  refine .of_run (bind_run (token_run awaits)) awaits.passes ?_
  rw [headD_cons, assignmentOp?_token assigns]
  have isTarget := fitsLeft.isTarget (valid.2.2 assigns)
  refine .of_run (bind_run (checkTarget_run (leftAt _ (.refl _)) isTarget)) awaits.passes (.given ?_ leftAt)
  refine reads_bump_less (fun _ => (reads .assignment valid.2.1 fitsRight stops).bind fun j => ?_) s awaits few
  exact (reads_allocFrom _ start).imp fun t _ form rightAt leftAt => ⟨i, j, form, leftAt, rightAt⟩

theorem assignment_climbing (tight : e.level.below .coalesce = false) :
    Reads true (n + 1) (assignment rules) (e.bare ++ rest) rest e.reread.At :=
  assignment_none (noYield (.bare tight)) (conditional_none reads valid (.bare tight) (stops.mono rfl)) stops

theorem assignment_bare (tight : e.level.below .assignment = false) :
    Reads true (n + 1) (assignment rules) (e.bare ++ rest) rest e.reread.At := by
  induction e with
  | grouping inner ih => exact ih valid tight
  | conditional condition consequent alternate =>
    have fits : (Expr.conditional condition consequent alternate).Fitted .assignment _ _ := .bare tight
    exact assignment_none (noYield fits) (conditional_reads reads valid stops rfl) stops
  | binary op left right =>
    by_cases assigns : op.isAssignment
    · exact assignment_operator reads valid stops rfl assigns
    · refine assignment_climbing reads valid stops ?_
      cases op <;> first | rfl | exact absurd rfl assigns | cases tight
  | update op isPrefix operand => cases isPrefix <;> exact assignment_climbing reads valid stops rfl
  | call callee args isNew =>
    cases isNew <;> cases args <;> exact assignment_climbing reads valid stops rfl
  | _ => exact assignment_climbing reads valid stops rfl

end

theorem assignment_reads (valid : e.Valid) (fits : e.Fitted .assignment tokens read) (stops : StopsAt .assignment rest) :
    Reads true (n + 1) (assignment rules) (tokens ++ rest) rest read.At := by
  cases fits with
  | bare tight => exact assignment_bare reads valid stops tight
  | enclosed =>
    have fits : e.Fitted .coalesce _ _ := .enclosed
    exact assignment_none (noYield fits) (conditional_none reads valid .enclosed (stops.mono rfl)) stops

omit reads in
/-- Rules that may call each other as often as there are tokens read back every operand. -/
theorem rulesUpTo_reads (depth : Nat) : ReadsUpTo (rulesUpTo depth) depth := by
  induction depth with
  | zero =>
    intro goal min serves e read tokens rest valid fits stops s awaits few
    obtain ⟨t, more, rfl, -⟩ := fits.opens
    cases few
  | succ depth ih =>
    intro goal min serves e read tokens rest valid fits stops
    cases serves with
    | assignment => exact assignment_reads ih valid fits stops
    | unary => exact unary_reads ih valid fits stops
    | binary loosest loose => exact binary_reads ih loosest loose valid fits stops

end Parse

end Condense
