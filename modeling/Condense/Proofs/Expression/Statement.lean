import Condense.Proofs.Expression.Climbing
import Condense.Proofs.Grammar.Program

/-!
Reading back an expression that stands as a statement: its first token starts no statement of another kind, and no
name in front of it is a label.
-/

namespace Condense

/-- Whether no name in front of the tokens would be taken for a label. -/
def NoLabel (tokens : List Token) : Prop :=
  ∀ name escaped more rest, tokens = .identifier name escaped :: more →
    (rest.headD .endOfInput).is .colon = false → ((more ++ rest).headD .endOfInput).is .colon = false

namespace NoLabel

variable {tokens others : List Token} {t : Token}

theorem single (t : Token) : NoLabel [t] := by
  rintro name escaped more rest same after
  obtain ⟨-, rfl⟩ := List.cons.inj same
  exact after

theorem of_head (other : ∀ name escaped, t ≠ .identifier name escaped) : NoLabel (t :: tokens) :=
  fun name escaped _ _ same _ => absurd (List.cons.inj same).1 (other name escaped)

theorem append (first : NoLabel tokens) (some : tokens ≠ []) (apart : t.is .colon = false) :
    NoLabel (tokens ++ t :: others) := by
  rintro name escaped more rest same after
  cases tokens with
  | nil => exact absurd rfl some
  | cons u tokens =>
    rw [List.cons_append] at same
    obtain ⟨rfl, rfl⟩ := List.cons.inj same
    rw [List.append_assoc]
    exact first name escaped tokens _ rfl apart

theorem enclosed (tokens : List Token) : NoLabel (enclosed tokens) :=
  of_head fun _ _ => by simp

end NoLabel

namespace Expr

theorem Fitted.noLabel {e read : Expr} {min : Level} {tokens : List Token} (fits : Fitted min e tokens read)
    (bare : NoLabel e.bare) : NoLabel tokens ∧ tokens ≠ [] := by
  refine ⟨?_, ?_⟩
  · cases fits with
    | bare => exact bare
    | enclosed => exact .enclosed _
  · obtain ⟨t, more, rfl, -⟩ := fits.opens
    exact List.cons_ne_nil t more

theorem noLabel (e : Expr) : NoLabel e.bare := by
  induction e with
  | leaf l => exact .single _
  | grouping inner ih => exact ih
  | unary op operand => exact .of_head fun _ _ => by cases op <;> simp [UnaryOp.token]
  | update op isPrefix operand ih =>
    cases isPrefix with
    | true => exact .of_head fun _ _ => by cases op <;> simp [UpdateOp.token]
    | false =>
      obtain ⟨first, some⟩ := (operand.fitted_placed .leftHandSide).noLabel ih
      exact first.append some (by cases op <;> rfl)
  | binary op left right ih =>
    obtain ⟨first, some⟩ := (fitted_placedOperand op left (leftLevel op)).noLabel ih
    exact first.append some (by cases op <;> rfl)
  | conditional condition consequent alternate ih =>
    obtain ⟨first, some⟩ := (condition.fitted_placed .coalesce).noLabel ih
    rw [bare, List.append_assoc]
    exact first.append some rfl
  | member object name ih =>
    obtain ⟨first, some⟩ := (object.fitted_placed .leftHandSide).noLabel ih
    exact first.append some rfl
  | index object key ih =>
    obtain ⟨first, some⟩ := (object.fitted_placed .leftHandSide).noLabel ih
    rw [bare, List.append_assoc]
    exact first.append some rfl
  | call callee args isNew ih =>
    cases isNew with
    | true => exact .of_head fun _ _ => by simp
    | false =>
      obtain ⟨first, some⟩ := (callee.fitted_placed .leftHandSide).noLabel ih
      exact first.append some rfl

/-- An expression is the same when its names are resolved. -/
theorem At.agrees {t t' : Tree} {e : Expr} {id : NodeId} (here : e.At t id) (agrees : t.Agrees t') : e.At t' id :=
  here.transfer fun i _ => agrees.form i

end Expr

/-- Whether the token can start a declaration or a module statement. -/
def Token.declares : Token → Bool
  | keyword .function | keyword .async | keyword .classWord | keyword .const | keyword .let | keyword .import
  | keyword .export => true
  | _ => false

theorem Token.declares_of_opens {t : Token} (opens : t.opens) : t.declares = false := by
  cases t with
  | keyword word => cases word <;> first | rfl | cases opens
  | _ => rfl

/-- How a statement that may need a semicolon ends, and what follows it. -/
inductive EndsStatement : List Token → List Token → Prop
  | semicolon (rest : List Token) : EndsStatement (.punctuator .semicolon :: rest) rest
  | bare {rest : List Token} : rest.head?.all (·.is .rBrace) = true → EndsStatement rest rest

namespace EndsStatement

variable {rest after : List Token}

theorem stopsAt (ends : EndsStatement rest after) (min : Level) : StopsAt min rest := by
  cases ends with
  | semicolon => exact .cons fun _ joins => by cases joins
  | bare last =>
    rcases Parse.nil_or_rBrace last with rfl | ⟨more, rfl⟩
    · exact .nil
    · exact .cons fun _ joins => by cases joins

theorem not_colon (ends : EndsStatement rest after) : (rest.headD .endOfInput).is .colon = false := by
  cases ends with
  | semicolon => rfl
  | bare last => rcases Parse.nil_or_rBrace last with rfl | ⟨more, rfl⟩ <;> rfl

end EndsStatement

namespace Parse

variable {β : Type} {rules : Rules} {rest after final : List Token} {b : Bool} {n : Nat} {Q : Tree → β → Prop}
  {here : Tree → NodeId → Prop}

theorem consumeSemicolon_none {s : ParseState} (stands : s.Stands rest) (ends : rest.head?.all (·.is .rBrace)) :
    consumeSemicolon s = .ok ⟨⟩ s := by
  obtain ⟨noSemicolon, may⟩ : s.current.token.is .semicolon = false ∧
      (s.current.token.is .rBrace || s.current.token.isEnd) := by
    rw [stands.token]
    rcases nil_or_rBrace ends with rfl | ⟨more, rfl⟩ <;> exact ⟨rfl, rfl⟩
  simp only [consumeSemicolon, eat, isAt, token, lexeme, Bind.bind, EStateM.bind, get_run, pure_run, noSemicolon, may,
    Bool.false_eq_true, if_false, Bool.true_or, Bool.not_true]

theorem reads_consumeSemicolon {f : PUnit → Parse β} (ends : EndsStatement rest after)
    (then' : Reads b n (f ⟨⟩) after final Q) : Reads b n (consumeSemicolon >>= f) rest final Q := by
  cases ends with
  | semicolon => exact .value (reads_eat (reads_pure fun _ => rfl)) then'
  | bare last => exact .look (fun _ awaits => consumeSemicolon_none awaits.toStands last) then'

theorem reads_peek {t : Token} {f : Token → Parse β}
    (then' : Reads b n (f (rest.headD .endOfInput)) (t :: rest) final Q) :
    Reads b n (peek >>= f) (t :: rest) final Q := by
  intro s awaits few
  obtain ⟨token, delivers, -, -⟩ := (awaits.ahead t rest rfl).peek
  let s' : ParseState := { s with scanner := s.scanner.peek.2 }
  have passes : s.Passes (t :: rest) (t :: rest) s' := by
    refine ⟨.refl _, .refl _, rfl, rfl, rfl, .refl, awaits.token, awaits.inLine, delivers.comes.quiet, ?_, awaits.short,
      awaits.comments⟩
    rintro u more same
    cases same
    exact delivers
  have peeked : peek s = .ok (rest.headD .endOfInput) s' := token ▸ rfl
  exact (then' s' (awaits.after passes) few).of_run (bind_run peeked) passes

/-- What starts no declaration is read as a statement. -/
theorem item_of_statement {t : Token} (other : t.declares = false)
    (reads : Reads b n (statement rules) (t :: rest) after here) : Reads b n (item rules) (t :: rest) after here := by
  refine reads_token ?_
  cases t with
  | keyword word => cases word <;> first | (cases other; done) | exact reads
  | _ => exact reads

/-- What starts like an expression and is not labeled is read as an expression. -/
theorem statement_of_opens {tokens : List Token} (opens : Starts Token.opens tokens) (noLabel : NoLabel tokens)
    (noColon : (rest.headD .endOfInput).is .colon = false)
    (reads : Reads b n (expressionStatement rules) (tokens ++ rest) after here) :
    Reads b n (statement rules) (tokens ++ rest) after here := by
  obtain ⟨t, more, rfl, opens⟩ := opens
  rw [List.cons_append] at reads ⊢
  refine reads_place fun _ => reads_token ?_
  cases t with
  | identifier name escaped =>
    refine reads_peek ?_
    rw [noLabel name escaped more rest rfl noColon]
    exact reads
  | string text => exact reads
  | keyword word => cases word <;> first | (cases opens; done) | exact reads
  | punctuator p => cases p <;> first | (cases opens; done) | exact reads
  | _ => cases opens

theorem expressionStatement_reads {input : List Token} (ends : EndsStatement rest after)
    (reads : Reads b n (expression rules) input rest here) : Reads b n (expressionStatement rules) input after here :=
  reads.bind fun _ => reads_consumeSemicolon ends (reads_pure fun _ holds => holds)

theorem statement_reads {e : Expr} (reads : ReadsUpTo rules n) (valid : e.Valid) (ends : EndsStatement rest after) :
    Reads true n (statement rules) (e.bare ++ rest) after e.reread.At :=
  statement_of_opens e.opens_bare e.noLabel ends.not_colon
    (expressionStatement_reads ends (expression_reads reads valid (ends.stopsAt .comma)))

end Parse

end Condense
