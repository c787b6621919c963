import Condense.Grammar.Expression
import Condense.Proofs.Expression.Reread

/-!
Where expressions begin and end: the tokens they start with, the tokens that continue them, and which tokens may stand
next to each other without fusing.
-/

namespace Condense

variable {t : Token} {e read : Expr} {tokens : List Token} {min : Level}

theorem enclosed_append (tokens rest : List Token) :
    enclosed tokens ++ rest = .punctuator .lParen :: (tokens ++ .punctuator .rParen :: rest) := by
  simp [enclosed]

namespace Token

/-- Whether an expression that stands before a suffix can start with the token. -/
def begins : Token → Bool
  | identifier .. | string _ => true
  | keyword .this | keyword .null | keyword .true | keyword .false | keyword .new => true
  | punctuator .lParen => true
  | _ => false

def opens : Token → Bool
  | keyword .typeof | keyword .void | keyword .delete => true
  | punctuator .plus | punctuator .minus | punctuator .not | punctuator .tilde => true
  | punctuator .plusPlus | punctuator .minusMinus => true
  | t => t.begins

def closes : Token → Bool
  | identifier .. | string _ => true
  | keyword .this | keyword .null | keyword .true | keyword .false => true
  | punctuator .rParen | punctuator .rBracket | punctuator .plusPlus | punctuator .minusMinus => true
  | _ => false

/-- Whether the token selects a part of what stands before it, or tags a template with it. -/
def selects : Token → Bool
  | punctuator .dot | punctuator .lBracket | templateLiteral _ | templateHead _ => true
  | _ => false

/-- The level of the expression that an expression before the token is a part of. -/
def joinLevel? : Token → Option Level
  | punctuator .arrow => some .primary
  | punctuator .dot | punctuator .optionalChain | punctuator .lParen | punctuator .lBracket => some .leftHandSide
  | templateLiteral _ | templateHead _ => some .leftHandSide
  | punctuator .plusPlus | punctuator .minusMinus => some .postfixed
  | punctuator .question => some .conditional
  | punctuator .comma => some .comma
  | t => (t.assignmentOp? <|> t.binaryOp?).map BinaryOp.level

/-- A token with a property is not the mark that lacks it. -/
theorem not_is {p : Punctuator} {holds : Token → Bool} (yes : holds t)
    (no : holds (.punctuator p) = false) : t.is p = false :=
  Bool.eq_false_iff.mpr fun same => by simp [eq_of_is same, no] at yes

theorem not_isWord {k : Keyword} {holds : Token → Bool} (yes : holds t)
    (no : holds (.keyword k) = false) : t.isWord k = false :=
  Bool.eq_false_iff.mpr fun same => by simp [eq_of_isWord same, no] at yes

end Token

/-- Whether an expression of at least the level ends before the tokens. -/
def StopsAt (min : Level) (rest : List Token) : Prop :=
  ∀ t ∈ rest.head?, ∀ level ∈ t.joinLevel?, level.below min = true

theorem BinaryOp.joinLevel?_token (op : BinaryOp) : op.token.joinLevel? = some op.level := by
  cases op <;> rfl

theorem Token.joinLevel?_of_selects (selects : t.selects) : t.joinLevel? = some .leftHandSide := by
  unfold Token.selects at selects
  split at selects <;> first | rfl | cases selects

theorem Token.opens_of_begins (begins : t.begins) : t.opens := by
  unfold opens
  split <;> trivial

theorem Leaf.begins_token (l : Leaf) : l.token.begins := by
  cases l with
  | boolean value => cases value <;> rfl
  | _ => rfl

theorem UnaryOp.opens_token (op : UnaryOp) : op.token.opens := by
  cases op <;> rfl

theorem UpdateOp.opens_token (op : UpdateOp) : op.token.opens := by
  cases op <;> rfl

abbrev Starts (kind : Token → Bool) (tokens : List Token) : Prop :=
  ∃ t more, tokens = t :: more ∧ kind t = true

theorem Starts.append {kind : Token → Bool} (starts : Starts kind tokens) (rest : List Token) :
    Starts kind (tokens ++ rest) := by
  obtain ⟨t, more, rfl, holds⟩ := starts
  exact ⟨t, more ++ rest, rfl, holds⟩

namespace StopsAt

variable {tight : Level} {rest : List Token}

theorem mono (stops : StopsAt min rest) (tighter : tight.below min = false) : StopsAt tight rest := by
  intro t next level joins
  have below := stops t next level joins
  simp only [Level.below, decide_eq_true_eq, decide_eq_false_iff_not] at *
  omega

theorem cons (joins : ∀ level ∈ t.joinLevel?, level.below min) : StopsAt min (t :: rest) := by
  rintro u same
  obtain rfl : t = u := by simpa using same
  exact joins

/-- What follows is no mark that would continue the expression. -/
theorem not_is {p : Punctuator} {level : Level} (stops : StopsAt min rest)
    (joins : (Token.punctuator p).joinLevel? = some level) (tight : level.below min = false) :
    (rest.headD .endOfInput).is p = false := by
  cases rest with
  | nil => rfl
  | cons t rest =>
    refine Bool.eq_false_iff.mpr fun same => ?_
    obtain rfl : t = .punctuator p := Token.eq_of_is same
    have below := stops _ rfl level joins
    simp [tight] at below

theorem not_selects (stops : StopsAt .leftHandSide rest) : (rest.headD .endOfInput).selects = false := by
  cases rest with
  | nil => rfl
  | cons t rest =>
    refine Bool.eq_false_iff.mpr fun selects => ?_
    have below := stops t rfl .leftHandSide (Token.joinLevel?_of_selects selects)
    cases below

theorem nil : StopsAt min [] :=
  fun _ next => by cases next

theorem binary {op : BinaryOp} (loose : op.level.below min) : StopsAt min (op.token :: rest) :=
  cons (by simpa [BinaryOp.joinLevel?_token] using loose)

end StopsAt

namespace Expr

theorem Fitted.mono {loose : Level} (fitted : Fitted min e tokens read)
    (looser : min.below loose = false) : Fitted loose e tokens read := by
  cases fitted with
  | bare tight =>
    refine .bare ?_
    simp only [Level.below, decide_eq_false_iff_not] at *
    omega
  | enclosed => exact .enclosed

/-- An expression that has to bind tightly starts with a token of its own, not with an operator. -/
theorem Fitted.begins (fitted : Fitted .bareNew e tokens read) : Starts Token.begins tokens := by
  induction e generalizing tokens read with
  | grouping inner ih => exact ih fitted.grouping
  | leaf l =>
    cases fitted with
    | bare => exact ⟨l.token, [], rfl, l.begins_token⟩
    | enclosed => exact ⟨_, _, rfl, rfl⟩
  | member object name ih | index object key ih =>
    cases fitted with
    | bare =>
      have first := ih ((fitted_placed object .leftHandSide).mono rfl)
      simpa only [Expr.bare, List.append_assoc] using first.append _
    | enclosed => exact ⟨_, _, rfl, rfl⟩
  | call callee args isNew ih =>
    cases fitted with
    | bare =>
      cases isNew with
      | true => exact ⟨_, _, by rw [Expr.bare]; rfl, rfl⟩
      | false =>
        rw [Expr.bare]
        exact (ih ((fitted_placed callee .leftHandSide).mono rfl)).append _
    | enclosed => exact ⟨_, _, rfl, rfl⟩
  | binary op left right =>
    cases fitted with
    | bare tight => cases op <;> cases tight
    | enclosed => exact ⟨_, _, rfl, rfl⟩
  | update op isPrefix operand =>
    cases fitted with
    | bare tight => cases isPrefix <;> cases tight
    | enclosed => exact ⟨_, _, rfl, rfl⟩
  | _ =>
    cases fitted with
    | bare tight => cases tight
    | enclosed => exact ⟨_, _, rfl, rfl⟩

theorem opens_fitted (own : Starts Token.opens e.bare) (fitted : Fitted min e tokens read) :
    Starts Token.opens tokens := by
  cases fitted with
  | bare => exact own
  | enclosed => exact ⟨_, _, rfl, rfl⟩

theorem opens_bare (e : Expr) : Starts Token.opens e.bare := by
  induction e with
  | leaf l => exact ⟨l.token, [], rfl, Token.opens_of_begins l.begins_token⟩
  | grouping inner ih => simpa [bare] using ih
  | unary op operand => exact ⟨op.token, _, by rw [bare], op.opens_token⟩
  | update op isPrefix operand ih =>
    cases isPrefix with
    | true => exact ⟨op.token, _, by rw [bare], op.opens_token⟩
    | false =>
      rw [bare]
      exact (opens_fitted ih (fitted_placed operand .leftHandSide)).append _
  | binary op left right ih =>
    rw [bare]
    exact (opens_fitted ih (fitted_placedOperand op left (leftLevel op))).append _
  | conditional condition consequent alternate ih =>
    rw [bare]
    exact ((opens_fitted ih (fitted_placed condition .coalesce)).append _).append _
  | member object name ih | index object key ih =>
    have first := opens_fitted ih (fitted_placed object .leftHandSide)
    simpa only [bare, List.append_assoc] using first.append _
  | call callee args isNew ih =>
    cases isNew with
    | true => exact ⟨_, _, by rw [bare]; rfl, rfl⟩
    | false =>
      rw [bare]
      exact (opens_fitted ih (fitted_placed callee .leftHandSide)).append _

/-- Every way to write an expression starts with a token that opens one. -/
theorem Fitted.opens (fitted : Fitted min e tokens read) : Starts Token.opens tokens :=
  opens_fitted e.opens_bare fitted

end Expr

end Condense
