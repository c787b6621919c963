import Condense.Proofs.Expression.Boundary
import Condense.Proofs.Output.Spelling

/-!
The tokens of an expression keep apart when they are written one after the other.
-/

namespace Condense

open List Option Scanner

namespace Token

variable {t u : Token}

/-- The last letter of a word fuses with every character that could belong to the word. -/
theorem apart_of_isWord {letters : List Char} (word : Scanner.isWord letters) {last : Char}
    (ends : last ∈ letters.getLast?) (first : Char) : fuses last first ∨ (!isWordChar first) := by
  have inside : isWordChar last := by
    cases letters with
    | nil => cases ends
    | cons c rest =>
      obtain ⟨start, others⟩ : isIdStart c ∧ rest.all isIdContinue := by
        simpa [Scanner.isWord] using word
      rcases mem_cons.mp (mem_of_getLast? ends) with rfl | member
      · exact isWordChar_of_isIdStart start
      · exact isWordChar_of_isIdContinue (all_eq_true.mp others last member)
  cases same : isWordChar first <;> simp [fuses, inside, same]

/-- Behind the end of an expression any token may follow. -/
theorem precedes_of_closes (plain : t.Plain) (closes : t.closes) (u : Token) : t.Precedes u := by
  refine ⟨fun inlineSafe last ends first _ => ?_, fun _ => ?_⟩
  · cases t with
    | identifier name escaped => exact apart_of_isWord plain.1 ends first
    | keyword word => exact apart_of_isWord (isWord_spelling word) ends first
    | punctuator p =>
      have alone : extensions .rParen = [] ∧ extensions .rBracket = [] ∧
          extensions .plusPlus = [] ∧ extensions .minusMinus = [] := by
        decide +kernel
      cases p <;> first | (cases closes; done) | (right; simp [endsBefore, alone])
    | string | number | regExp | templateLiteral => exact .inr rfl
    | _ => cases closes
  · unfold Token.closes at closes
    split at closes <;> first | rfl | cases closes

/-- The characters that an expression can start with. -/
def startsOperand (c : Char) : Bool :=
  isIdStart c || "\"'(+-!~".toList.contains c

theorem startsOperand_of_isWord {letters : List Char} (word : Scanner.isWord letters) {first : Char}
    (starts : first ∈ letters.head?) : startsOperand first := by
  cases letters with
  | nil => cases starts
  | cons c rest =>
    obtain rfl : c = first := by simpa using starts
    have start : isIdStart c := by
      simp only [Scanner.isWord, Bool.and_eq_true] at word
      exact word.1
    simp [startsOperand, start]

theorem startsOperand_of_opens (plain : u.Plain) (opens : u.opens) (inlineSafe : Bool) :
    ∀ first ∈ (u.spelled inlineSafe).toList.head?, startsOperand first := by
  intro first starts
  cases u with
  | identifier name escaped => exact startsOperand_of_isWord plain.1 starts
  | keyword word => exact startsOperand_of_isWord (isWord_spelling word) starts
  | string text =>
    obtain rfl : Quoted.delimiter text.toList = first := by simpa [spelled, Quoted.literal] using starts
    rcases delimiter_cases text.toList with quote | quote <;> rw [quote] <;> decide
  | punctuator p =>
    have marks : p.spelling.toList.head?.all startsOperand := by
      cases p <;> first | (cases opens; done) | decide
    exact (all_eq_true _ _).mp marks first starts
  | _ => cases plain

theorem apart_of_startsOperand (p : Punctuator) {last first : Char} (ends : last ∈ p.spelling.toList.getLast?)
    (starts : startsOperand first) : fuses last first ∨ (Token.punctuator p).endsBefore first := by
  have marks : ∀ q ∈ operators, "\"'(+-!~".toList.all (fun c =>
      q.spelling.toList.getLast?.any (fuses · c) || (Token.punctuator q).endsBefore c) := by
    decide +kernel
  have others : ∀ q ∈ [Punctuator.slash, .slashEq, .percent, .percentEq, .lBrace, .rBrace],
      "\"'(+-!~".toList.all (Token.punctuator q).endsBefore := by
    decide +kernel
  rcases Bool.or_eq_true_iff.mp starts with letter | mark
  · right
    have noDigit := not_isDigit_of_isIdStart letter
    have ends : (!(extensions p).contains first) := by
      simpa using not_mem_extensions (.inr letter) p
    have apart (c : Char) (other : isIdStart c = false) : first ≠ c := by
      rintro rfl
      simp [letter] at other
    cases p with
    | slash => simp [endsBefore, apart '/' (by decide), apart '*' (by decide), apart '=' (by decide)]
    | percent => simp [endsBefore, apart '=' (by decide)]
    | dot => simp [endsBefore, apart '.' (by decide), noDigit]
    | optionalChain => simp [endsBefore, noDigit]
    | _ => exact ends
  · have mark := contains_iff_mem.mp mark
    by_cases known : p ∈ operators
    · refine (Bool.or_eq_true_iff.mp (all_eq_true.mp (marks p known) first mark)).imp_left fun fused => ?_
      rwa [mem_def.mp ends] at fused
    · refine .inr (all_eq_true.mp (others p ?_) first mark)
      cases p <;> first | exact absurd (by decide) known | decide

/-- Before the start of an expression any token may stand. -/
theorem precedes_of_opens (plain : t.Plain) (plain' : u.Plain) (opens : u.opens) : t.Precedes u := by
  refine ⟨fun inlineSafe last ends first starts => ?_, fun divides => ?_⟩
  · cases t with
    | identifier name escaped => exact apart_of_isWord plain.1 ends first
    | keyword word => exact apart_of_isWord (isWord_spelling word) ends first
    | punctuator p => exact apart_of_startsOperand p ends (startsOperand_of_opens plain' opens inlineSafe first starts)
    | string text => exact .inr rfl
    | _ => cases plain
  · unfold Token.divides at divides
    split at divides <;> first | cases opens | cases divides

end Token

/-- Tokens that keep apart and start and end like an expression. -/
structure Phrase (tokens : List Token) : Prop where
  plain : ∀ t ∈ tokens, t.Plain
  chain : tokens.IsChain Token.Precedes
  opens : ∃ t ∈ tokens.head?, t.opens = true
  closes : ∃ t ∈ tokens.getLast?, t.closes = true

namespace Phrase

variable {tokens others : List Token} {t : Token}

theorem single (plain : t.Plain) (opens : t.opens) (closes : t.closes) : Phrase [t] where
  plain := by simpa using plain
  chain := .singleton t
  opens := ⟨t, rfl, opens⟩
  closes := ⟨t, rfl, closes⟩

section

variable (phrase : Phrase tokens)

include phrase

theorem head_opens : ∀ t ∈ tokens.head?, t.Plain ∧ t.opens := by
  obtain ⟨first, head, opens⟩ := phrase.opens
  intro t next
  obtain rfl : first = t := mem_unique head next
  exact ⟨phrase.plain _ (mem_of_head? next), opens⟩

theorem last_closes : ∀ t ∈ tokens.getLast?, t.Plain ∧ t.closes := by
  obtain ⟨last, ends, closes⟩ := phrase.closes
  intro t final
  obtain rfl : last = t := mem_unique ends final
  exact ⟨phrase.plain _ (mem_of_getLast? final), closes⟩

/-- A token before an expression. -/
theorem cons (plain : t.Plain) (opens : t.opens) : Phrase (t :: tokens) where
  plain := forall_mem_cons.mpr ⟨plain, phrase.plain⟩
  chain := isChain_cons.mpr ⟨fun u next =>
    Token.precedes_of_opens plain (phrase.head_opens u next).1 (phrase.head_opens u next).2, phrase.chain⟩
  opens := ⟨t, rfl, opens⟩
  closes := by
    obtain ⟨last, ends, closes⟩ := phrase.closes
    exact ⟨last, by rw [getLast?_cons, mem_def.mp ends]; rfl, closes⟩

theorem append (plain : ∀ t ∈ others, t.Plain) (chain : others.IsChain Token.Precedes)
    (closes : ∃ t ∈ others.getLast?, t.closes) : Phrase (tokens ++ others) where
  plain := by
    simp only [mem_append, or_imp, forall_and]
    exact ⟨phrase.plain, plain⟩
  chain := isChain_append.mpr ⟨phrase.chain, chain, fun t ends u _ =>
    Token.precedes_of_closes (phrase.last_closes t ends).1 (phrase.last_closes t ends).2 u⟩
  opens := by
    obtain ⟨first, head, opens⟩ := phrase.opens
    exact ⟨first, by rw [head?_append, mem_def.mp head]; rfl, opens⟩
  closes := by
    obtain ⟨last, ends, closes⟩ := closes
    exact ⟨last, by rw [getLast?_append, mem_def.mp ends]; rfl, closes⟩

theorem concat (plain : t.Plain) (closes : t.closes) : Phrase (tokens ++ [t]) :=
  phrase.append (by simpa using plain) (.singleton t) ⟨t, rfl, closes⟩

end

theorem joined (left : Phrase tokens) (plain : t.Plain) (right : Phrase others) : Phrase (tokens ++ t :: others) := by
  refine left.append (forall_mem_cons.mpr ⟨plain, right.plain⟩) (isChain_cons.mpr ⟨?_, right.chain⟩) ?_
  · intro u next
    exact Token.precedes_of_opens plain (right.head_opens u next).1 (right.head_opens u next).2
  · obtain ⟨last, ends, closes⟩ := right.closes
    exact ⟨last, by rw [getLast?_cons, mem_def.mp ends]; rfl, closes⟩

theorem enclosed (phrase : Phrase tokens) : Phrase (enclosed tokens) :=
  (phrase.cons (t := .punctuator .lParen) trivial rfl).concat (t := .punctuator .rParen) trivial rfl

theorem call (callee : Phrase tokens) {args : List Token} (phrase : args ≠ [] → Phrase args) :
    Phrase (tokens ++ Condense.enclosed args) := by
  by_cases none : args = []
  · subst none
    refine callee.append (by simp [Condense.enclosed, Token.Plain]) ?_ ⟨.punctuator .rParen, rfl, rfl⟩
    have alone : ∀ c, (Token.punctuator .lParen).endsBefore c := by
      have none : extensions .lParen = [] := by decide +kernel
      simp [Token.endsBefore, none]
    refine isChain_cons.mpr ⟨?_, .singleton _⟩
    rintro u next
    obtain rfl : .punctuator .rParen = u := by simpa using next
    exact ⟨fun _ _ _ first _ => .inr (alone first), fun divides => by cases divides⟩
  · have inner := (phrase none).enclosed
    exact callee.append inner.plain inner.chain inner.closes

end Phrase

namespace Expr

theorem Fitted.phrase {e read : Expr} {min : Level} {tokens : List Token} (fits : Fitted min e tokens read)
    (bare : Phrase e.bare) : Phrase tokens := by
  cases fits with
  | bare => exact bare
  | enclosed => exact bare.enclosed

theorem phrase_listed {args : List Expr} (some : args ≠ []) (each : ∀ arg ∈ args, Phrase arg.bare) :
    Phrase (listed args) := by
  induction args with
  | nil => exact absurd rfl some
  | cons e rest ih =>
    have first := (e.fitted_placed .assignment).phrase (each e (.head _))
    cases rest with
    | nil => exact first
    | cons d others =>
      exact first.joined (t := .punctuator .comma) trivial (ih (by simp) fun arg member => each arg (.tail _ member))

theorem AllValid.mem {args : List Expr} (valid : AllValid args) {arg : Expr} (member : arg ∈ args) : arg.Valid := by
  induction args with
  | nil => cases member
  | cons e rest ih =>
    rcases mem_cons.mp member with rfl | member
    · exact valid.1
    · exact ih valid.2 member

/-- The tokens of an expression keep apart. -/
theorem Valid.phrase {e : Expr} (valid : e.Valid) : Phrase e.bare := by
  induction e with
  | leaf l =>
    refine .single valid (Token.opens_of_begins l.begins_token) ?_
    cases l with
    | boolean value => cases value <;> rfl
    | _ => rfl
  | grouping inner ih => exact ih valid
  | unary op operand ih =>
    exact ((operand.fitted_placed .unary).phrase (ih valid)).cons (by cases op <;> trivial) op.opens_token
  | update op isPrefix operand ih =>
    have plain : op.token.Plain := by cases op <;> trivial
    cases isPrefix with
    | true => exact ((operand.fitted_placed .unary).phrase (ih valid.1)).cons plain op.opens_token
    | false =>
      refine ((operand.fitted_placed .leftHandSide).phrase (ih valid.1)).concat plain ?_
      cases op <;> rfl
  | binary op left right ihLeft ihRight =>
    exact ((fitted_placedOperand op left (leftLevel op)).phrase (ihLeft valid.1)).joined (by cases op <;> trivial)
      ((fitted_placedOperand op right (rightLevel op right)).phrase (ihRight valid.2.1))
  | conditional condition consequent alternate ihCondition ihConsequent ihAlternate =>
    have first := (condition.fitted_placed .coalesce).phrase (ihCondition valid.1)
    have second := (consequent.fitted_placed .assignment).phrase (ihConsequent valid.2.1)
    have third := (alternate.fitted_placed .assignment).phrase (ihAlternate valid.2.2)
    exact (first.joined (t := .punctuator .question) trivial second).joined (t := .punctuator .colon) trivial third
  | member object name ih =>
    have first := (object.fitted_placed .leftHandSide).phrase (ih valid.1)
    exact first.joined (t := .punctuator .dot) trivial (.single valid.2 rfl rfl)
  | index object key ihObject ihKey =>
    have first := (object.fitted_placed .leftHandSide).phrase (ihObject valid.1)
    exact (first.joined (t := .punctuator .lBracket) trivial (ihKey valid.2)).concat (t := .punctuator .rBracket)
      trivial rfl
  | call callee args isNew ihCallee ihArgs =>
    have calleePhrase := ihCallee valid.1
    have argsPhrase : listed args ≠ [] → Phrase (listed args) := by
      intro some
      refine phrase_listed ?_ fun arg member => ihArgs arg member (valid.2.mem member)
      rintro rfl
      exact some rfl
    cases isNew with
    | false => exact ((callee.fitted_placed .leftHandSide).phrase calleePhrase).call argsPhrase
    | true =>
      have constructor : Phrase (if callee.containsCall then enclosed callee.bare
          else fitted callee.level .bareNew callee.bare) := by
        split
        · exact calleePhrase.enclosed
        · exact (callee.fitted_placed .bareNew).phrase calleePhrase
      have first := constructor.cons (t := .keyword .new) trivial rfl
      rw [bare]
      generalize (if callee.containsCall then enclosed callee.bare
        else fitted callee.level .bareNew callee.bare) = tokens at first
      split
      · simpa using first
      · exact first.call argsPhrase

end Expr

end Condense
