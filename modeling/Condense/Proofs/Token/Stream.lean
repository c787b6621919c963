import Condense.Proofs.Output.Text
import Condense.Proofs.Token.Mark

/-!
A text that renders tokens, each ending where the next begins or room is left, is scanned as these tokens.
-/

namespace Condense

open Cursor List

variable {t : Token} {gap : List Char} {tokens : List Token}

namespace Token

theorem eq_of_is {p : Punctuator} (same : t.is p) : t = .punctuator p := by
  cases t <;> simp_all [is]

theorem eq_of_isWord {k : Keyword} (same : t.isWord k) : t = .keyword k := by
  cases t <;> simp_all [isWord]

/-- Words, punctuators and strings, which are read back from their text. -/
def Plain : Token → Prop
  | identifier name escaped =>
    Scanner.isWord name.toList = true ∧ Keyword.ofString? name = none ∧ escaped = false
  | keyword _ | punctuator _ | string _ => True
  | _ => False

theorem Plain.isTrivia (plain : t.Plain) : t.isTrivia = false := by
  cases t <;> first | rfl | cases plain

theorem Plain.spelled_ne_nil (plain : t.Plain) (inlineSafe : Bool) : (t.spelled inlineSafe).toList ≠ [] := by
  cases t with
  | identifier name escaped =>
    intro none
    simp [spelled] at none
    simp [Plain, none, Scanner.isWord] at plain
  | keyword word =>
    show word.spelling.toList ≠ []
    cases word <;> decide
  | punctuator p =>
    show p.spelling.toList ≠ []
    cases p <;> decide
  | string text => simp [spelled, Quoted.literal]
  | _ => cases plain

/-- Whether the text of the token would be taken for something else where an operand is expected. -/
def divides : Token → Bool
  | punctuator .slash | punctuator .slashEq | punctuator .percent | punctuator .percentEq => true
  | _ => false

/-- Whether the token may have to stand on the line of the token before it. -/
def isUpdate : Token → Bool
  | punctuator .plusPlus | punctuator .minusMinus => true
  | _ => false

end Token

def isRoom (c : Char) : Bool :=
  c == ' ' || c == '\n'

/-- Whether a text is read as the tokens. Where `operand` is false, a slash is a division. -/
inductive Renders (inlineSafe : Bool) : Bool → List Token → List Char → Prop
  | nil {operand : Bool} {gap : List Char} : gap.all isRoom = true → Renders inlineSafe operand [] gap
  | cons {operand : Bool} {t : Token} {tokens : List Token} {gap rest : List Char} :
    gap.all isRoom = true → t.Plain → (t.divides = true → operand = false) →
    (t.isUpdate = true → '\n' ∉ gap) → (∀ c ∈ rest.head?, t.endsBefore c = true) →
    Renders inlineSafe t.allowsRegExpAfter tokens rest →
    Renders inlineSafe operand (t :: tokens) (gap ++ ((t.spelled inlineSafe).toList ++ rest))

namespace Scanner

variable {s : Scanner} {rest : List Char} {inlineSafe : Bool}

theorem isWord_spelling (word : Keyword) : isWord word.spelling.toList := by
  revert word
  have all : ∀ word ∈ Keyword.all, isWord word.spelling.toList := by decide +kernel
  intro word
  exact all word (by cases word <;> decide)

theorem reads_word {word : String} (letters : isWord word.toList)
    (ahead : s.cursor.rest = word.toList ++ rest) (ends : ∀ c ∈ rest.head?, isWordChar c = false) :
    Reads (scanSignificant s.cursor) s (some (wordToken word)) rest := by
  obtain ⟨c, more, spelled⟩ : ∃ c more, word.toList = c :: more := by
    cases spelled : word.toList with
    | nil => simp [spelled, isWord] at letters
    | cons c more => exact ⟨c, more, rfl⟩
  rw [spelled] at ahead letters
  obtain ⟨start, inside⟩ : isIdStart c ∧ more.all isIdContinue := by simpa [isWord] using letters
  have reaches := reaches_advance ahead
  obtain ⟨cursor, further, run⟩ := reads_scanIdentifier (s := { s with cursor := s.cursor.advance }) c inside
    ends reaches.rest
  refine ⟨cursor, reaches.trans further, ?_⟩
  have apart (d : Char) (other : isIdStart d = false) : c ≠ d := by
    rintro rfl
    simp [start] at other
  simp only [scanSignificant, run_bind, run_get, peek_of_rest ahead, not_isDigit_of_isIdStart start, start]
  simp only [apart '\x7b' (by decide), apart '\x7d' (by decide), apart '/' (by decide), apart '%' (by decide),
    apart '@' (by decide), apart '\x60' (by decide), apart '"' (by decide), apart '\'' (by decide),
    apart '.' (by decide), if_false, if_true,
    Bool.false_eq_true, decide_false, Bool.false_and, Bool.or_self, run_bind, run_moveTo, run, run_pure]
  rw [← spelled, String.ofList_toList]

theorem Contents.reads_token {quote : Char} {text chars : List Char} (quotes : quote = '"' ∨ quote = '\'')
    (contents : Contents quote rest text chars) (noMarkers : s.settings.hasReplacements = false)
    (ahead : s.cursor.rest = quote :: text) :
    Reads (scanSignificant s.cursor) s (some (.string (String.ofList chars))) rest := by
  have reaches := reaches_advance ahead
  obtain ⟨cursor, further, run⟩ :=
    contents.reads quotes s.cursor.position (s := { s with cursor := s.cursor.advance }) noMarkers reaches.rest
  refine ⟨cursor, reaches.trans further, ?_⟩
  have peek := peek_of_rest ahead
  rcases quotes with rfl | rfl
  all_goals
    simp only [scanSignificant, run_bind, run_get, peek, Char.reduceEq, if_false, if_true, Bool.false_eq_true,
      decide_false, decide_true, Bool.false_and, Bool.true_or, Bool.or_true, run_moveTo, run, run_pure]

/-- A literal of plain characters and octal escapes is read as what it stands for. -/
theorem reads_octalText {quote : Char} {text chars : List Char} (octal : OctalText quote rest text chars)
    (quotes : quote = '"' ∨ quote = '\'') (noMarkers : s.settings.hasReplacements = false)
    (ahead : s.cursor.rest = quote :: text) :
    Reads (scanSignificant s.cursor) s (some (.string (String.ofList chars))) rest := by
  have noSlash : quote ≠ '\\' := by rcases quotes with rfl | rfl <;> decide
  exact (octal.contents noSlash).reads_token quotes noMarkers ahead

theorem reads_octalText_zeros : let s := new "'\\0012'" {}
    Reads (scanSignificant s.cursor) s (some (.string "\n")) [] := by
  have escape : OctalEscape ['\''] ['1', '2'] := .two rfl rfl (by decide) (by simp; decide)
  exact reads_octalText (.escape 2 escape .nil) (.inr rfl) (by decide) rfl

def startsTrivia : List Char → Bool
  | c :: rest => isBlank c || (c == '/' && (rest.head? == some '/' || rest.head? == some '*'))
  | [] => false

theorem startsTrivia_of_ne {c : Char} (noSlash : c ≠ '/') (noBlank : isBlank c = false) :
    startsTrivia (c :: rest) = false := by
  simp [startsTrivia, noSlash, noBlank]

/-- Nothing of a token is skipped. -/
theorem startsTrivia_spelled (plain : t.Plain) (ends : ∀ c ∈ rest.head?, t.endsBefore c) :
    startsTrivia ((t.spelled inlineSafe).toList ++ rest) = false := by
  have word {letters : List Char} (letters' : isWord letters) : startsTrivia (letters ++ rest) = false := by
    cases letters with
    | nil => cases letters'
    | cons c more =>
      have start : isIdStart c := by simp [isWord] at letters'; exact letters'.1
      refine startsTrivia_of_ne ?_ (not_isBlank_of_isIdStart start)
      rintro rfl
      exact absurd start (by decide)
  cases t with
  | identifier name escaped => exact word plain.1
  | keyword k => exact word (isWord_spelling k)
  | string text =>
    rcases delimiter_cases text.toList with quote | quote
    all_goals
      simp only [Token.spelled, Quoted.literal, String.toList_ofList, quote, cons_append]
      exact startsTrivia_of_ne (by decide) (by decide)
  | punctuator p =>
    by_cases known : p ∈ operators
    · have first := (operators_start p known).1
      simp only [Token.spelled]
      cases spelled : p.spelling.toList with
      | nil => simp [spelled] at first
      | cons c more =>
        simp only [spelled, head?_cons, Option.any_some, startsOperator, Bool.and_eq_true] at first
        obtain ⟨⟨⟨special, -⟩, -⟩, noBlank⟩ := first
        simp at special noBlank
        exact startsTrivia_of_ne special.2.2.1 noBlank
    cases p with
    | slash =>
      have noBlank : isBlank '/' = false := by decide
      simp only [Token.spelled, Punctuator.spelling, String.reduceToList, singleton_append, startsTrivia, noBlank]
      cases rest with
      | nil => rfl
      | cons c rest =>
        have ends := ends c rfl
        simp only [Token.endsBefore, Bool.and_eq_true, bne_iff_ne] at ends
        simp [ends]
    | slashEq | percent | percentEq | lBrace | rBrace =>
      simp only [Token.spelled, Punctuator.spelling, String.reduceToList]
      rfl
    | _ => exact absurd (by decide) known
  | _ => cases plain

/-- Room is skipped up to a text that starts with nothing of its kind. -/
theorem run_skipTrivia (room : gap.all isRoom) (stops : startsTrivia rest = false)
    {steps : Nat} (enough : gap.length < steps) (ahead : s.cursor.rest = gap ++ rest) :
    ∃ cursor, cursor.rest = rest ∧ ('\n' ∉ gap → s.cursor.Reaches cursor rest) ∧
      (skipTrivia steps).run s = ((), { s with cursor }) := by
  induction gap generalizing s steps with
  | nil =>
    obtain _ | fewer := steps
    · simp at enough
    refine ⟨s.cursor, ahead, fun _ => ⟨ahead, rfl, rfl⟩, ?_⟩
    cases rest with
    | nil =>
      have atEnd : s.cursor.atEnd := by simp [Cursor.atEnd, ahead]
      simp only [skipTrivia, run_bind, run_here, atEnd, if_true, run_pure]
    | cons c rest =>
      have second : s.cursor.peekAt? 1 = rest.head? := by simp [peekAt?, ahead, head?_eq_getElem?]
      simp only [startsTrivia, isBlank, ← second, Bool.or_eq_false_iff] at stops
      obtain ⟨⟨noSpace, noLine⟩, noComment⟩ := stops
      have noLine' : (c = '/' && s.cursor.peekAt? 1 == some '/') = false := by simp_all
      have noBlock : (c = '/' && s.cursor.peekAt? 1 == some '*') = false := by simp_all
      simp only [skipTrivia, run_bind, run_here, atEnd_of_rest ahead, peek_of_rest ahead, noSpace,
        noLine, noLine', noBlock, Bool.false_eq_true, if_false, run_pure]
  | cons c gap ih =>
    obtain _ | fewer := steps
    · simp at enough
    simp only [length_cons, Nat.add_lt_add_iff_right] at enough
    obtain ⟨blank, room⟩ : isRoom c ∧ gap.all isRoom := by simpa using room
    have reaches := reaches_advance ahead
    simp only [isRoom, Bool.or_eq_true, beq_iff_eq] at blank
    rcases blank with rfl | rfl
    · obtain ⟨cursor, stop, line, run⟩ := ih (s := { s with cursor := s.cursor.advance }) room enough reaches.rest
      refine ⟨cursor, stop, fun noLine => reaches.trans (line (by simpa using noLine)), ?_⟩
      have space : isSpace ' ' := by decide
      simp only [skipTrivia, run_bind, run_here, atEnd_of_rest ahead, peek_of_rest ahead, space,
        Bool.false_eq_true, if_false, if_true, run_moveTo, run]
    · have further : s.cursor.advance.newLine.rest = gap ++ rest := reaches.rest
      obtain ⟨cursor, stop, -, run⟩ := ih (s := { s with cursor := s.cursor.advance.newLine }) room enough further
      refine ⟨cursor, stop, fun noLine => absurd (.head _) noLine, ?_⟩
      have noSpace : isSpace '\n' = false := by decide
      have line : isLineTerminator '\n' := by decide
      have counted : s.cursor.advanceCounting = s.cursor.advance.newLine := by
        simp [advanceCounting, peek_of_rest ahead, line]
      simp only [skipTrivia, run_bind, run_here, atEnd_of_rest ahead, peek_of_rest ahead, noSpace, line,
        counted, Bool.false_eq_true, if_false, if_true, run_moveTo, run]

/-- A scanner that has nothing to report, in a text without replacement markers, directives or templates so
far. -/
structure Quiet (s : Scanner) : Prop where
  noMarkers : s.settings.hasReplacements = false
  diagnostics : s.diagnostics = []
  sections : s.sections = []
  blocks : Brace.template ∉ s.braces

/-- Whether the next token is `t`. There is nothing to report, also after it is taken. -/
structure Comes (s : Scanner) (t : Token) : Prop where
  token : s.next.1.token = t
  significant : t.isTrivia = false
  inLine : t.isUpdate = true → s.next.1.newlineBefore = false
  quiet : s.diagnostics = []
  after : s.next.2.diagnostics = []
  settings : s.next.2.settings = s.settings
  source : s.next.2.source = s.source
  lookahead : s.next.2.lookahead = none

/-- Whether the tokens, and then the end, are what the scanner yields. -/
def Delivers : Scanner → List Token → Prop
  | s, [] => s.Comes .endOfInput
  | s, t :: tokens => s.Comes t ∧ s.next.2.Delivers tokens

theorem next_of_fresh (fresh : s.lookahead = none) :
    s.next = (scanTokenFrom s.cursor.position.line (s.cursor.rest.length + 1)).run
      { s with cursor := { s.cursor with passedLine := false } } := by
  unfold Scanner.next
  split
  · simp_all
  · rfl

theorem run_finishToken (significant : t.isTrivia = false) (start : Cursor) (newline : Bool) :
    ∃ l : Lexeme, l.token = t ∧ l.newlineBefore = newline ∧
      (finishToken t start newline).run s = (l, { s with regExpAllowed := t.allowsRegExpAfter }) := by
  rw [finishToken, run_modifyGet, significant]
  exact ⟨_, rfl, rfl, rfl⟩

theorem Delivers.comes (delivers : s.Delivers tokens) : s.Comes (tokens.headD .endOfInput) := by
  cases tokens with
  | nil => exact delivers
  | cons t tokens => exact delivers.1

section

variable (quiet : s.Quiet) (plain : t.Plain) (division : t.divides = true → s.regExpAllowed = false)
  (ends : ∀ c ∈ rest.head?, t.endsBefore c = true)

include quiet plain division ends

/-- A token is read from its text and changes nothing but the place and the open blocks. -/
theorem run_scanSignificant (ahead : s.cursor.rest = (t.spelled inlineSafe).toList ++ rest) :
    ∃ cursor braces, s.cursor.Reaches cursor rest ∧ Brace.template ∉ braces ∧
      (scanSignificant s.cursor).run s = (some t, { s with cursor, braces }) := by
  obtain ⟨noMarkers, -, -, blocks⟩ := quiet
  have alone (reads : Reads (scanSignificant s.cursor) s (some t) rest) :
      ∃ cursor braces, s.cursor.Reaches cursor rest ∧ Brace.template ∉ braces ∧
        (scanSignificant s.cursor).run s = (some t, { s with cursor, braces }) := by
    obtain ⟨cursor, reaches, run⟩ := reads
    exact ⟨cursor, s.braces, reaches, blocks, run⟩
  cases t with
  | identifier name escaped =>
    obtain ⟨letters, noKeyword, rfl⟩ := plain
    have word := reads_word letters ahead fun c next => by simpa [Token.endsBefore] using ends c next
    rw [wordToken, noKeyword] at word
    exact alone word
  | keyword k =>
    have word := reads_word (isWord_spelling k) ahead fun c next => by simpa [Token.endsBefore] using ends c next
    rw [wordToken, k.ofString?_spelling] at word
    exact alone word
  | string text =>
    have quotes := delimiter_cases text.toList
    have reads := (contents_escapeAll quotes text.toList none).reads_token quotes noMarkers
      (by simpa [Token.spelled, Quoted.literal] using ahead)
    rw [String.ofList_toList] at reads
    exact alone reads
  | punctuator p =>
    by_cases known : p ∈ operators
    · exact alone (reads_operator known ahead ends)
    simp only [Token.spelled, Punctuator.spelling] at ahead
    cases p with
    | slash =>
      have opens := run_scanSlash ahead (division rfl) fun star => absurd (ends '*' star) (by decide)
      exact alone (reads_ratio ahead (fun equal => absurd (ends '=' equal) (by decide)) opens)
    | percent =>
      have noEqual : rest.head? ≠ some '=' := fun equal => absurd (ends '=' equal) (by decide)
      exact alone (reads_ratio ahead noEqual (run_scanPercent ahead (division rfl)))
    | slashEq =>
      have ahead : s.cursor.rest = '/' :: '=' :: rest := by simpa using ahead
      exact alone (reads_ratioEq ahead (run_scanSlash ahead (division rfl) (by simp)))
    | percentEq =>
      exact alone (reads_ratioEq ahead (run_scanPercent ahead (division rfl)))
    | lBrace =>
      refine ⟨s.cursor.advance, .block :: s.braces, reaches_advance ahead, by simpa using blocks, ?_⟩
      simp only [scanSignificant, run_bind, run_get, peek_of_rest ahead]
      rfl
    | rBrace =>
      refine ⟨s.cursor.advance, s.braces.tail, reaches_advance ahead,
        fun member => blocks (mem_of_mem_tail member), ?_⟩
      have noTemplate : s.braces.head? ≠ some .template := fun head => blocks (mem_of_mem_head? head)
      simp only [scanSignificant, run_bind, run_get, peek_of_rest ahead, if_false, noTemplate]
      rfl
    | _ => exact absurd (by decide) known
  | _ => cases plain

/-- Behind some room stands a token; it is not on a new line if the room holds no line end. -/
theorem run_scanTokenFrom (lineBefore : UInt32) (steps : Nat) (room : gap.all isRoom)
    (ahead : s.cursor.rest = gap ++ ((t.spelled inlineSafe).toList ++ rest)) :
    ∃ start cursor braces newline, cursor.rest = rest ∧ Brace.template ∉ braces ∧
      ('\n' ∉ gap → newline = (s.cursor.passedLine || s.cursor.position.line > lineBefore)) ∧
      (scanTokenFrom lineBefore (steps + 1)).run s = (finishToken t start newline).run { s with cursor, braces } := by
  have enough : gap.length < s.cursor.rest.length + 1 := by
    rw [ahead, length_append]
    omega
  obtain ⟨start, atToken, inLine, skip⟩ := run_skipTrivia room (startsTrivia_spelled plain ends) enough ahead
  obtain ⟨cursor, braces, reaches, blocks, run⟩ :=
    run_scanSignificant (s := { s with cursor := start }) { quiet with } plain division ends atToken
  have more : start.atEnd = false := by
    cases spelled : (t.spelled inlineSafe).toList with
    | nil => exact absurd spelled (plain.spelled_ne_nil inlineSafe)
    | cons c letters => exact atEnd_of_rest (by rw [atToken, spelled]; rfl)
  refine ⟨start, cursor, braces, start.passedLine || start.position.line > lineBefore, reaches.rest, blocks, ?_, ?_⟩
  · intro noLine
    rw [(inLine noLine).passedLine, (inLine noLine).line]
  · simp only [scanTokenFrom, run_bind, run_here, skip, run, more, Bool.false_eq_true, if_false]
    rfl

theorem comes_of_spelled (fresh : s.lookahead = none) (room : gap.all isRoom)
    (inLine : t.isUpdate → '\n' ∉ gap) (ahead : s.cursor.rest = gap ++ ((t.spelled inlineSafe).toList ++ rest)) :
    s.Comes t ∧ s.next.2.Quiet ∧ s.next.2.cursor.rest = rest ∧ s.next.2.regExpAllowed = t.allowsRegExpAfter := by
  obtain ⟨start, cursor, braces, newline, stop, blocks, sameLine, run⟩ :=
    run_scanTokenFrom (s := { s with cursor := { s.cursor with passedLine := false } }) { quiet with } plain division
      ends s.cursor.position.line s.cursor.rest.length room ahead
  obtain ⟨l, token, line, finish⟩ := run_finishToken (s := { s with cursor, braces }) plain.isTrivia start newline
  have next := (next_of_fresh fresh).trans (run.trans finish)
  refine ⟨⟨?_, plain.isTrivia, fun update => ?_, quiet.diagnostics, ?_, ?_, ?_, ?_⟩, ⟨?_, ?_, ?_, ?_⟩, ?_, ?_⟩
  all_goals rw [next]
  · exact token
  · simpa [line] using sameLine (inLine update)
  · exact quiet.diagnostics
  · exact fresh
  · exact quiet.noMarkers
  · exact quiet.diagnostics
  · exact quiet.sections
  · exact blocks
  · exact stop

end

/-- At the end of the text, or in the room before it, the end is the next token. -/
theorem comes_endOfInput (silent : s.diagnostics = []) (closed : s.sections = []) (fresh : s.lookahead = none)
    (room : s.cursor.rest.all isRoom) : s.Comes .endOfInput := by
  have ahead : s.cursor.rest = s.cursor.rest ++ [] := (append_nil _).symm
  obtain ⟨stop, atEnd, -, skip⟩ := run_skipTrivia (s := { s with cursor := { s.cursor with passedLine := false } })
    room rfl (Nat.lt_succ_self _) ahead
  have beneath : stop.atEnd := by simp [Cursor.atEnd, atEnd]
  obtain ⟨l, token, -, finish⟩ := run_finishToken (s := { s with cursor := stop }) (t := .endOfInput) rfl stop
    (stop.passedLine || stop.position.line > s.cursor.position.line)
  have close : closeAtEnd.run { s with cursor := stop } = ((), { s with cursor := stop }) := by
    simp only [closeAtEnd, run_bind, run_get, closed]
    rfl
  have next : s.next = (l, { s with cursor := stop, regExpAllowed := true }) := by
    rw [next_of_fresh fresh]
    simp only [scanTokenFrom, run_bind, run_here, skip, beneath, if_true]
    rwa [close]
  refine ⟨?_, rfl, fun update => (by cases update), silent, ?_, ?_, ?_, ?_⟩
  all_goals rw [next]
  · exact token
  · exact silent
  · exact fresh

theorem delivers_of_renders {operand : Bool} {text : List Char}
    (renders : Renders inlineSafe operand tokens text) (quiet : s.Quiet) (fresh : s.lookahead = none)
    (ahead : s.cursor.rest = text) (context : s.regExpAllowed = operand) : s.Delivers tokens := by
  induction renders generalizing s with
  | nil room => exact comes_endOfInput quiet.diagnostics quiet.sections fresh (ahead ▸ room)
  | cons room plain division inLine ends _ ih =>
    obtain ⟨comes, quiet, stop, allowed⟩ :=
      comes_of_spelled quiet plain (fun divides => context.trans (division divides)) ends fresh room inLine ahead
    exact ⟨comes, ih quiet comes.lookahead stop allowed⟩

/-- Looking ahead keeps the scanner as it is or scans the next token for later. -/
theorem peek_cases (after : s.next.2.lookahead = none) :
    s.peek.1 = s.next.1 ∧ s.peek.2.next = s.next ∧
      (s.peek.2 = s ∨ s.peek.2 = { s.next.2 with lookahead := some s.next.1 }) := by
  cases ahead : s.lookahead with
  | some l =>
    have peek : s.peek = (l, s) := by simp only [Scanner.peek, ahead]
    have next : s.next.1 = l := by simp only [Scanner.next, ahead]
    rw [peek]
    exact ⟨next.symm, rfl, .inl rfl⟩
  | none =>
    have peek : s.peek = (s.next.1, { s.next.2 with lookahead := some s.next.1 }) := by
      simp only [Scanner.peek, ahead, next]
      rfl
    rw [peek]
    refine ⟨rfl, ?_, .inr rfl⟩
    generalize s.next = result at after
    obtain ⟨l, s'⟩ := result
    cases s'
    cases after
    rfl

theorem Comes.peek (comes : s.Comes t) :
    s.peek.1.token = t ∧ s.peek.2.Comes t ∧ s.peek.2.next = s.next ∧ s.peek.2.settings = s.settings ∧
      s.peek.2.source = s.source := by
  obtain ⟨token, next, kept | scanned⟩ := peek_cases comes.lookahead
  · rw [kept, token]
    exact ⟨comes.token, comes, rfl, rfl, rfl⟩
  · have settings : s.peek.2.settings = s.settings := by rw [scanned, ← comes.settings]
    have source : s.peek.2.source = s.source := by rw [scanned, ← comes.source]
    have quiet : s.peek.2.diagnostics = [] := by
      rw [scanned]
      exact comes.after
    refine ⟨token ▸ comes.token, ⟨?_, comes.significant, ?_, quiet, ?_, ?_, ?_, ?_⟩, next, settings, source⟩
    all_goals rw [next]
    · exact comes.token
    · exact comes.inLine
    · exact comes.after
    · rw [settings, comes.settings]
    · rw [source, comes.source]
    · exact comes.lookahead

theorem Delivers.peek (delivers : s.Delivers tokens) :
    s.peek.1.token = tokens.headD .endOfInput ∧ s.peek.2.Delivers tokens ∧ s.peek.2.settings = s.settings ∧
      s.peek.2.source = s.source := by
  cases tokens with
  | nil =>
    obtain ⟨token, comes, -, settings, source⟩ := Comes.peek delivers
    exact ⟨token, comes, settings, source⟩
  | cons t tokens =>
    obtain ⟨token, comes, same, settings, source⟩ := Comes.peek delivers.1
    exact ⟨token, ⟨comes, same.symm ▸ delivers.2⟩, settings, source⟩

end Scanner

end Condense
