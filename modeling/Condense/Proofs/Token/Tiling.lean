import Condense.Proofs.Token.Loops

/-!
The tokens of a text lie one behind another in it.
-/

namespace Condense

open Cursor List

namespace Scanner

variable {α : Type} {calm plain : Prop} {s t : Scanner}

/-- Whether a scan that is begun at `s` stops at no conditional comment. -/
def EndsQuiet (s : Scanner) (x : Scan Unit) : Prop :=
  opensConditional (x.run s).2.cursor.rest = false

theorem endsQuiet_here {f : Cursor → Scan Unit} (next : s.EndsQuiet (f s.cursor)) : s.EndsQuiet (here >>= f) :=
  next

theorem endsQuiet_ite {p : Prop} [Decidable p] {x y : Scan Unit} (yes : p → s.EndsQuiet x)
    (no : ¬p → s.EndsQuiet y) : s.EndsQuiet (if p then x else y) := by
  split
  · exact yes ‹p›
  · exact no ‹¬p›

/-- A scan that stops where it stands is not at a conditional comment if a slash, a star or an at sign lacks. -/
theorem endsQuiet_pure (other : s.cursor.peek = '/' → s.cursor.peekAt? 1 = some '*' → s.cursor.peekAt? 2 ≠ some '@') :
    s.EndsQuiet (pure ()) := by
  show opensConditional s.cursor.rest = false
  rw [Bool.eq_false_iff]
  intro opens
  obtain ⟨rest, ahead⟩ := isPrefixOf_iff_prefix.1 opens
  apply other <;> simp [Cursor.peek, peekAt?, ← ahead]

/-- A scanner that ignores conditional comments stops at none. -/
theorem endsQuiet_skipTrivia {steps : Nat} (enough : s.cursor.rest.length < steps)
    (ignores : s.settings.ignoreConditionalCompilation) : s.EndsQuiet (skipTrivia steps) := by
  induction steps generalizing s with
  | zero => omega
  | succ steps ih =>
    have again : ∀ cursor, s.cursor.Passes cursor → EndsQuiet { s with cursor } (skipTrivia steps) := by
      intro cursor passes
      exact ih (Nat.lt_of_lt_of_le passes.fewer (Nat.le_of_lt_succ enough)) ignores
    have behind : ∀ {x : Scan Unit}, s.Takes False (fun _ => True) x → s.EndsQuiet (x >>= fun _ => skipTrivia steps) := by
      intro x takes
      exact ih (Nat.lt_of_lt_of_le takes.fewer (Nat.le_of_lt_succ enough)) (takes.onward.settings.symm ▸ ignores)
    apply endsQuiet_here
    apply endsQuiet_ite
    · intro atEnd
      exact congrArg opensConditional (isEmpty_iff.1 atEnd)
    intro inside
    have more : s.cursor.rest ≠ [] := rest_ne_nil_of_atEnd inside
    apply endsQuiet_ite
    · intro _
      exact again _ (passes_advance more)
    intro _
    apply endsQuiet_ite
    · intro _
      exact again _ (passes_advanceCounting more)
    intro inLine
    apply endsQuiet_ite
    · intro _
      apply endsQuiet_ite
      · intro _
        exact behind (takes_processDirective more (by simpa using inLine))
      · intro _
        exact again _ (passes_takeLine more (by simpa using inLine))
    intro _
    apply endsQuiet_ite
    · intro opens
      apply endsQuiet_ite
      · intro kept
        apply endsQuiet_pure
        intro _ _ conditional
        rw [conditional] at kept
        simp [keepsComment, ignores] at kept
      · intro _
        exact behind (takes_skipBlockComment (two_le_of_comment opens))
    · intro other
      apply endsQuiet_pure
      intro slash star _
      simp [slash, star] at other

/-- Whether `l` was read on the way from `s` to `t`: it begins where white space ends and stops at `t`, with
the text between. It is the end only where nothing is left. -/
structure ReadFrom (calm plain : Prop) (s : Scanner) (start : Cursor) (l : Lexeme) (t : Scanner) : Prop where
  onward : s.Onward calm t
  before : s.cursor.Leads start
  after : start.Leads t.cursor
  begins : l.span.start = start.position
  stops : l.span.stop = t.cursor.position
  raw : l.raw = t.cursor.textFrom start
  ending : l.token.isEnd = true → start.rest = []
  passes : l.token.isEnd = false → t.cursor.rest.length < start.rest.length
  unmarked : calm → l.token.isMarker = false
  unsigned : l.token.Unsigned
  unreplaced : plain → l.token.isReplacement = false

/-- Whether a scan that is begun at `t` reads a token for `s`. -/
def Finds (calm plain : Prop) (s t : Scanner) (x : Scan Lexeme) : Prop :=
  ∃ start, ReadFrom calm plain s start (x.run t).1 (x.run t).2

theorem finds_bind {x : Scan α} {f : α → Scan Lexeme}
    (finds : Finds calm plain s (x.run t).2 (f (x.run t).1)) : Finds calm plain s t (x >>= f) :=
  finds

theorem finds_ite {p : Prop} [Decidable p] {x y : Scan Lexeme} (yes : p → Finds calm plain s t x)
    (no : ¬p → Finds calm plain s t y) : Finds calm plain s t (if p then x else y) := by
  split
  · exact yes ‹p›
  · exact no ‹¬p›

theorem finds_finishToken {u : Scanner} {token : Token} {newline : Bool} (first : s.Onward calm t)
    (second : t.Onward calm u) (ending : token.isEnd → t.cursor.rest = [])
    (passes : token.isEnd = false → u.cursor.rest.length < t.cursor.rest.length)
    (unmarked : calm → token.isMarker = false) (unsigned : token.Unsigned)
    (unreplaced : plain → token.isReplacement = false) : Finds calm plain s u (finishToken token t.cursor newline) :=
  ⟨t.cursor, (first.trans second).trans (Forward.proceeds u).onward, first.leads, second.leads, rfl, rfl, rfl,
    ending, passes, unmarked, unsigned, unreplaced⟩

theorem Finds.from_later {u : Scanner} {x : Scan Lexeme} (onward : s.Onward calm t) (finds : Finds calm plain t u x) :
    Finds calm plain s u x := by
  obtain ⟨start, read⟩ := finds
  exact ⟨start, onward.trans read.onward, onward.leads.trans read.before, read.after, read.begins, read.stops,
    read.raw, read.ending, read.passes, read.unmarked, read.unsigned, read.unreplaced⟩

theorem finds_scanTokenFrom {lineBefore : UInt32} {steps : Nat} (enough : s.cursor.rest.length < steps)
    (ignores : calm → s.settings.ignoreConditionalCompilation) (outside : calm → s.inConditionalComment = false)
    (free : plain → MarkerFree s.cursor.rest) : Finds calm plain s s (scanTokenFrom lineBefore steps) := by
  induction steps generalizing s with
  | zero => omega
  | succ steps ih =>
    have skipped : s.Onward calm ((skipTrivia (s.cursor.rest.length + 1)).run s).2 := (Forward.proceeds s).onward
    have quiet : calm → opensConditional ((skipTrivia (s.cursor.rest.length + 1)).run s).2.cursor.rest = false :=
      fun asked => endsQuiet_skipTrivia (Nat.lt_succ_self _) (ignores asked)
    have outside := fun asked => skipped.outside asked (outside asked)
    have ignores := fun asked => skipped.settings.symm ▸ ignores asked
    have free := fun asked => (free asked).suffix skipped.leads.suffix
    apply finds_bind
    apply finds_bind
    simp only [run_here]
    generalize ((skipTrivia (s.cursor.rest.length + 1)).run s).2 = t at skipped quiet outside ignores free
    apply finds_bind
    apply finds_ite
    · intro atEnd
      have none : t.cursor.rest = [] := isEmpty_iff.1 atEnd
      apply finds_bind
      apply finds_finishToken skipped (Forward.proceeds t).onward (fun _ => none)
      · intro other
        cases other
      · exact fun _ => rfl
      · exact trivial
      · exact fun _ => rfl
    · intro inside
      have takes : t.Takes calm (Offer calm plain) (scanSignificant t.cursor) :=
        takes_scanSignificant (rest_ne_nil_of_atEnd inside) quiet outside free
      have onward : t.Onward calm ((scanSignificant t.cursor).run t).2 := takes.onward
      have fewer := Nat.lt_of_lt_of_le takes.fewer skipped.leads.length_le
      apply finds_bind
      split
      · rename_i token found
        have regular := takes.holds token found
        apply finds_finishToken skipped onward
        · intro ending
          rw [regular.inside] at ending
          cases ending
        · exact fun _ => takes.fewer
        · exact regular.unmarked
        · exact regular.unsigned
        · exact regular.unreplaced
      · apply Finds.from_later (skipped.trans onward)
        apply ih (by omega)
        · intro asked
          rw [onward.settings]
          exact ignores asked
        · intro asked
          exact onward.outside asked (outside asked)
        · intro asked
          exact (free asked).suffix onward.leads.suffix

theorem finds_scanToken (ignores : calm → s.settings.ignoreConditionalCompilation)
    (outside : calm → s.inConditionalComment = false) (free : plain → MarkerFree s.cursor.rest) :
    Finds calm plain s s scanToken := by
  have same : s.Onward calm { s with cursor := { s.cursor with passedLine := false } } :=
    onward_moveTo ⟨suffix_refl _, rfl⟩
  exact .from_later same (finds_scanTokenFrom (Nat.lt_succ_self _) ignores outside free)

def InText (s : Scanner) : Prop :=
  Cursor.Leads { rest := s.source } s.cursor

end Scanner

/-- Whether a token covers some characters of a text, and carries them. -/
structure Lexeme.Covers (l : Lexeme) (source : List Char) : Prop where
  nonempty : l.span.start.offset < l.span.stop.offset
  inside : l.span.stop.offset ≤ source.length
  raw : l.raw = String.ofList ((source.drop l.span.start.offset).take (l.span.stop.offset - l.span.start.offset))

/-- Whether a token is the end of a text, which covers nothing. -/
structure Lexeme.Ends (l : Lexeme) (source : List Char) : Prop where
  token : l.token.isEnd = true
  start : l.span.start.offset = source.length
  stop : l.span.stop.offset = source.length
  raw : l.raw = ""

namespace Scanner

variable {s t : Scanner} {start : Cursor} {l : Lexeme}

theorem rest_of_inText (leads : Cursor.Leads { rest := s.source } start) :
    start.rest = s.source.drop start.position.offset ∧ start.position.offset + start.rest.length = s.source.length := by
  have total : start.position.offset + start.rest.length = s.source.length := by
    simpa using leads.total
  refine ⟨?_, total⟩
  rw [suffix_iff_eq_drop.1 leads.suffix]
  congr 1
  simp only
  omega

section

variable (inside : s.InText) (read : ReadFrom False False s start l t)

include inside read

theorem ReadFrom.covers (other : l.token.isEnd = false) : l.Covers s.source := by
  have place := rest_of_inText (inside.trans read.before)
  have fewer := read.passes other
  have total := read.after.total
  refine ⟨?_, ?_, ?_⟩
  · rw [read.begins, read.stops]
    omega
  · rw [read.stops]
    omega
  · rw [read.raw, textFrom, read.begins, read.stops, place.1]

theorem ReadFrom.ends (other : l.token.isEnd) : l.Ends s.source := by
  have place := rest_of_inText (inside.trans read.before)
  have none := read.ending other
  have total := read.after.total
  have still := read.after.length_le
  rw [none, length_nil] at place total still
  refine ⟨other, ?_, ?_, ?_⟩
  · rw [read.begins]
    omega
  · rw [read.stops]
    omega
  · rw [read.raw, textFrom, none, take_nil]

theorem ReadFrom.inText : t.InText := by
  rw [InText, read.onward.source]
  exact inside.trans read.onward.leads

end

/-- Whether tokens begin at an offset or behind it, each at the end of the one before it or behind that. -/
def Behind : Nat → List Lexeme → Prop
  | _, [] => True
  | offset, l :: rest => offset ≤ l.span.start.offset ∧ Behind l.span.stop.offset rest

/-- Taking all tokens from a place of the text on. Each round takes a character, so there are at most as
many tokens before the end as there are characters left. -/
theorem tokensUpTo_tile {steps : Nat} (inText : s.InText) (fresh : s.lookahead = none)
    (enough : s.cursor.rest.length < steps) :
    ∃ before last, (tokensUpTo steps s).1 = before ++ [last] ∧ before.length ≤ s.cursor.rest.length ∧
      (∀ l ∈ before, l.token.isEnd = false ∧ l.Covers s.source) ∧ last.Ends s.source ∧
      Behind s.cursor.position.offset (before ++ [last]) := by
  induction steps generalizing s with
  | zero => omega
  | succ steps ih =>
    obtain ⟨start, read⟩ : Finds False False s s scanToken := finds_scanToken False.elim False.elim False.elim
    have next : s.next = scanToken.run s := by
      simp only [Scanner.next, fresh]
    have begins : s.cursor.position.offset ≤ (scanToken.run s).1.span.start.offset := by
      rw [read.begins]
      have total := read.before.total
      have still := read.before.length_le
      omega
    simp only [tokensUpTo, next]
    cases ending : (scanToken.run s).1.token.isEnd with
    | true =>
      exact ⟨[], (scanToken.run s).1, by simp, Nat.zero_le _, by simp, read.ends inText ending, begins, trivial⟩
    | false =>
      have fewer := Nat.lt_of_lt_of_le (read.passes ending) read.before.length_le
      have fresh : (scanToken.run s).2.lookahead = none := read.onward.lookahead.trans fresh
      obtain ⟨before, last, tokens, count, covers, ends, behind⟩ := ih (read.inText inText) fresh (by omega)
      rw [read.onward.source] at covers ends
      rw [← read.stops] at behind
      refine ⟨(scanToken.run s).1 :: before, last, ?_, ?_, ?_, ends, begins, behind⟩
      · simp [tokens]
      · rw [length_cons]
        omega
      · intro l member
        cases member with
        | head => exact ⟨ending, read.covers inText ending⟩
        | tail _ member => exact covers l member

theorem inText_new (source : String) (settings : Settings) : (new source settings).InText := by
  dsimp only [InText, new]
  split
  · exact leads_takeLine _
  · exact .refl _

/-- However often the next token is taken, at most one per character comes before the end. Each of them covers
characters of the text, behind those of the tokens before it, and no loop of the scanner runs out of steps. -/
theorem tokens_cover_text (source : String) (settings : Settings) :
    (∀ s : Scanner, s.LoopsEnd) ∧ ∀ steps, source.length < steps →
      ∃ before last, (tokensUpTo steps (new source settings)).1 = before ++ [last] ∧ before.length ≤ source.length ∧
        (∀ l ∈ before, l.token.isEnd = false ∧ l.Covers source.toList) ∧ last.Ends source.toList ∧
        Behind 0 (before ++ [last]) := by
  refine ⟨loopsEnd, ?_⟩
  intro steps enough
  have inText := inText_new source settings
  have few : (new source settings).cursor.rest.length ≤ source.length := by
    rw [← String.length_toList]
    exact inText.length_le
  obtain ⟨before, last, tokens, count, covers, ends, behind⟩ :=
    tokensUpTo_tile inText rfl (Nat.lt_of_le_of_lt few enough)
  refine ⟨before, last, tokens, Nat.le_trans count few, covers, ends, ?_⟩
  cases before with
  | nil => exact ⟨Nat.zero_le _, trivial⟩
  | cons first before => exact ⟨Nat.zero_le _, behind.2⟩

end Scanner

end Condense
