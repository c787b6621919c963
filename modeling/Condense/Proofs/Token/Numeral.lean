import Condense.Proofs.Decimal.Printed
import Condense.Proofs.Token.Stream

/-!
Numerals are read as numbers.
-/

namespace Condense

namespace Scanner

open Cursor Decimal JsonText List

variable {s : Scanner} {cs rest : List Char}

def past (s : Scanner) (n : Nat) : Scanner :=
  { s with cursor := s.cursor.skip n }

theorem past_past (s : Scanner) (m n : Nat) : (s.past m).past n = s.past (m + n) := by
  simp [past, skip, Nat.add_assoc, UInt32.ofNat_add, UInt32.add_assoc]

theorem past_zero (s : Scanner) : s.past 0 = s := by
  simp [past, skip]

theorem run_skip (s : Scanner) (n : Nat) : (moveTo (s.cursor.skip n)).run s = ((), s.past n) := rfl

theorem rest_past {text : List Char} (ahead : s.cursor.rest = text ++ rest) :
    (s.past text.length).cursor.rest = rest :=
  (reaches_skip ahead).rest

theorem rest_past_one {c : Char} (ahead : s.cursor.rest = c :: rest) : (s.past 1).cursor.rest = rest :=
  (reaches_advance ahead).rest

theorem decimalDigits_append (digits : cs.all Char.isDigit)
    (stops : ∀ c ∈ rest.head?, c ∈ ['.', 'e', 'E']) : decimalDigits (cs ++ rest) = (cs, cs.length) := by
  induction cs with
  | nil =>
    cases rest with
    | nil => rfl
    | cons c rest =>
      have mark := stops c rfl
      simp only [mem_cons, not_mem_nil, or_false] at mark
      rcases mark with rfl | rfl | rfl <;> rfl
  | cons c cs ih =>
    obtain ⟨digit, digits⟩ : c.isDigit ∧ cs.all Char.isDigit := by simpa using digits
    have other : c ≠ '_' := by
      rintro rfl
      cases digit
    simp [decimalDigits, other, digit, ih digits]

theorem run_scanDecimalDigits (digits : cs.all Char.isDigit)
    (stops : ∀ c ∈ rest.head?, c ∈ ['.', 'e', 'E']) (ahead : s.cursor.rest = cs ++ rest) :
    scanDecimalDigits.run s = (cs, s.past cs.length) := by
  simp only [scanDecimalDigits, run_bind, run_here, ahead, decimalDigits_append digits stops, run_skip, run_pure]

/-- Digits behind a mark and maybe a sign are the exponent. -/
theorem run_scanExponent_lead {mark : Char} {sign digits : List Char} (known : mark ∈ ['e', 'E'])
    (ahead : s.cursor.rest = mark :: (sign ++ digits)) (digits' : Digits digits)
    (lead : (if s.cursor.peekAt? 1 == some '+' || s.cursor.peekAt? 1 == some '-' then 2 else 1) = sign.length + 1) :
    scanExponent.run s = (mark :: (sign ++ digits), s.past (sign.length + digits.length + 1)) := by
  have marked : (s.cursor.peek = 'e' || s.cursor.peek = 'E') := by simpa [peek_of_rest ahead] using known
  have first : (s.cursor.peekAt? (sign.length + 1)).any Char.isDigit := by
    obtain ⟨c, digits, rfl⟩ := exists_cons_of_ne_nil digits'.1
    simp [peekAt?, ahead, all_eq_true.1 digits'.2 c (.head _)]
  have taken : s.cursor.rest.take (sign.length + 1) = mark :: sign := by simp [ahead]
  have behind : (s.past (sign.length + 1)).cursor.rest = digits ++ [] := by simp [past, skip, ahead]
  have read := run_scanDecimalDigits digits'.2 (by simp) behind
  rw [scanExponent, run_bind, run_here]
  dsimp only
  rw [if_pos marked, lead, if_pos first, run_bind, run_skip, run_bind, read, taken, run_pure, past_past,
    Nat.add_right_comm, cons_append]

theorem run_scanExponent (exponent : Exponent cs) (ahead : s.cursor.rest = cs) :
    scanExponent.run s = (cs, s.past cs.length) := by
  rcases exponent with rfl | ⟨mark, sign, digits, rfl, known, sign', digits'⟩
  · simp only [scanExponent, run_bind, run_here, Cursor.peek, ahead, length_nil, past_zero]
    rfl
  · rw [length_cons, length_append]
    refine run_scanExponent_lead known ahead digits' ?_
    simp only [mem_cons, not_mem_nil, or_false] at sign'
    rcases sign' with rfl | rfl | rfl
    · obtain ⟨c, digits, rfl⟩ := exists_cons_of_ne_nil digits'.1
      have digit := all_eq_true.1 digits'.2 c (.head _)
      have plain : c ≠ '+' ∧ c ≠ '-' := by constructor <;> rintro rfl <;> cases digit
      simp [peekAt?, ahead, plain]
    · simp [peekAt?, ahead]
    · simp [peekAt?, ahead]

theorem run_scanFraction (fraction : Fraction cs) (exponent : Exponent rest) (ahead : s.cursor.rest = cs ++ rest) :
    scanFraction.run s = (cs, s.past cs.length) := by
  have marks := head?_fraction (.inl rfl) exponent
  rw [scanFraction, run_bind, run_here]
  rcases fraction with rfl | ⟨digits, rfl, digits'⟩
  · rw [if_neg, length_nil, past_zero]
    · rfl
    · rcases exponent with rfl | ⟨mark, sign, digits, rfl, known, -⟩
      · simp [Cursor.peek, ahead]
      · rw [peek_of_rest ahead]
        rintro rfl
        simp at known
  · have read := run_scanDecimalDigits (s := s.past 1) digits'.2 marks (rest_past_one ahead)
    rw [if_pos (peek_of_rest ahead), run_bind]
    exact (congrArg (Prod.map ('.' :: ·) id) read).trans (by rw [past_past, Nat.add_comm]; rfl)

theorem run_scanDecimalEnd {whole fraction : List Char} (start : Cursor) (exponent : Exponent cs)
    (ahead : s.cursor.rest = cs) :
    (scanDecimalEnd start whole fraction).run s = (.number (readDecimal (whole ++ fraction ++ cs)), s.past cs.length) := by
  have behind : (s.past cs.length).cursor.peek = '\x00' := by
    simp [Cursor.peek, rest_past (ahead.trans (append_nil _).symm)]
  have noName : isIdStart '\x00' = false := by decide
  rw [scanDecimalEnd, run_bind, run_scanExponent exponent ahead, run_bind, run_here]
  rw [if_neg (by simp [behind]), run_bind, run_here]
  rw [if_neg (by simp [behind, noName])]
  rfl

theorem run_scanDecimal {first : Char} {digits fraction exponent : List Char} (digits' : digits.all Char.isDigit)
    (fraction' : Fraction fraction) (exponent' : Exponent exponent) (pointed : first = '.' → fraction = [])
    (start : Cursor) (ahead : s.cursor.rest = digits ++ (fraction ++ exponent)) :
    (scanDecimal first start).run s =
      (.number (readDecimal (first :: (digits ++ (fraction ++ exponent)))),
        s.past (digits ++ (fraction ++ exponent)).length) := by
  have behind := rest_past ahead
  rw [scanDecimal, run_bind, run_scanDecimalDigits digits' (head?_fraction fraction' exponent') ahead]
  split
  · obtain rfl := pointed ‹_›
    rw [run_bind, run_pure, run_scanDecimalEnd start exponent' behind, past_past]
    simp
  · rw [run_bind, run_scanFraction fraction' exponent' behind, run_scanDecimalEnd start exponent' (rest_past behind),
      past_past, past_past]
    simp [Nat.add_assoc]

theorem run_scanNumber {c : Char} (numeral : Numeral (c :: cs)) (start : Cursor) (ahead : s.cursor.rest = cs) :
    (scanNumber c start).run s = (.number (readDecimal (c :: cs)), s.past cs.length) := by
  obtain ⟨whole, fraction, exponent, text, digits | ⟨rfl, some⟩, fraction', exponent'⟩ := numeral
  · obtain ⟨d, digits', rfl⟩ := exists_cons_of_ne_nil digits.1.1
    obtain ⟨rfl, rfl⟩ : c = d ∧ cs = digits' ++ (fraction ++ exponent) := by simpa using text
    obtain ⟨digit, all⟩ : c.isDigit ∧ digits'.all Char.isDigit := by simpa using digits.1.2
    have noPoint : c = '.' → fraction = [] := by
      rintro rfl
      cases digit
    have read := run_scanDecimal all fraction' exponent' noPoint start ahead
    rw [scanNumber, run_bind, run_here]
    split
    · obtain rfl : digits' = [] := by simpa [‹c = '0'›] using digits.2
      have next : radixOf? s.cursor.peek = none ∧ s.cursor.peek.isDigit = false := by
        have marks := head?_fraction fraction' exponent'
        rw [Cursor.peek, ahead, nil_append]
        cases shown : fraction ++ exponent with
        | nil => decide
        | cons mark behind =>
          have apart : ∀ c ∈ ['.', 'e', 'E'], radixOf? c = none ∧ c.isDigit = false := by simp [radixOf?]
          exact apart mark (marks mark (by rw [shown]; rfl))
      simp [next, read]
    · exact read
  · obtain ⟨places, rfl, places'⟩ := fraction'.resolve_left some
    obtain ⟨rfl, rfl⟩ : c = '.' ∧ cs = places ++ ([] ++ exponent) := by simpa using text
    have read : (scanDecimal '.' start).run s = _ :=
      run_scanDecimal places'.2 (.inl rfl) exponent' (fun _ => rfl) start ahead
    rw [scanNumber, run_bind, run_here]
    exact read

/-- What starts a numeral starts nothing else. -/
theorem numeral_starts {c : Char} (first : c.isDigit ∨ c = '.') :
    c ∉ ['\x7b', '\x7d', '/', '%', '@', '\x60', '"', '\''] ∧ isBlank c = false := by
  have codes : ∀ n ∈ 46 :: range' 48 10,
      Char.ofNat n ∉ ['\x7b', '\x7d', '/', '%', '@', '\x60', '"', '\''] ∧ isBlank (Char.ofNat n) = false := by decide
  have code : c.toNat ∈ 46 :: range' 48 10 := by
    rcases first with digit | rfl
    · have digit : 48 ≤ c.toNat ∧ c.toNat ≤ 57 := by simpa [Char.isDigit, UInt32.le_iff_toNat_le] using digit
      simp only [mem_cons, mem_range'_1]
      omega
    · decide
  simpa using codes _ code

theorem run_scanSignificant_numeral (numeral : Numeral cs) (ahead : s.cursor.rest = cs) :
    (scanSignificant s.cursor).run s = (some (.number (readDecimal cs)), s.past cs.length) := by
  obtain ⟨c, rest, rfl, letter, first⟩ := numeral.head?
  have behind := rest_past_one ahead
  have read := run_scanNumber numeral s.cursor behind
  have starts : (c.isDigit || (c = '.' && s.cursor.advance.peek.isDigit)) := by
    have next : s.cursor.advance.peek = rest.headD '\x00' := congrArg (headD · '\x00') behind
    cases rest <;> simp_all
  obtain ⟨special, -⟩ := numeral_starts letter
  simp only [mem_cons, not_mem_nil, or_false, not_or] at special
  rw [scanSignificant, run_bind, run_get]
  simp only [peek_of_rest ahead, special, if_false, decide_false, Bool.false_and, Bool.or_self, Bool.false_eq_true,
    starts, if_true]
  rw [run_bind, run_bind]
  exact (congrArg (Prod.map some id) read).trans (by rw [past_past, Nat.add_comm]; rfl)

theorem next_numeral (numeral : Numeral cs) (fresh : s.lookahead = none) (ahead : s.cursor.rest = cs) :
    ∃ cursor, cursor.rest = [] ∧ s.next.2 = { s with cursor, regExpAllowed := false } ∧
      s.next.1.token = .number (readDecimal cs) ∧ s.next.1.raw = String.ofList cs := by
  obtain ⟨c, rest, rfl, letter, -⟩ := numeral.head?
  obtain ⟨special, noBlank⟩ := numeral_starts letter
  have still : startsTrivia (c :: rest) = false := startsTrivia_of_ne (by rintro rfl; simp at special) noBlank
  have enough : ([] : List Char).length < s.cursor.rest.length + 1 := Nat.succ_pos _
  obtain ⟨start, atToken, -, skip⟩ :=
    run_skipTrivia (s := { s with cursor := { s.cursor with passedLine := false } }) rfl still enough ahead
  have read := run_scanSignificant_numeral (s := { s with cursor := start }) numeral atToken
  have stop : start.rest = c :: rest ++ [] := atToken.trans (append_nil _).symm
  refine ⟨start.skip (c :: rest).length, (reaches_skip stop).rest, ?_⟩
  rw [next_of_fresh fresh]
  simp only [scanTokenFrom, run_bind, run_here, skip, atEnd_of_rest atToken, Bool.false_eq_true, if_false, read,
    finishToken, run_modifyGet]
  refine ⟨rfl, trivial, ?_⟩
  simp [textFrom, past, Cursor.skip, atToken]

/-- A text that is a numeral is one number and the end, and nothing is reported. -/
theorem tokens_numeral (numeral : Numeral cs) (settings : Settings) :
    ∃ l last : Lexeme, (new (String.ofList cs) settings).tokens.1 = [l, last] ∧
      l.token = .number (readDecimal cs) ∧ l.raw = String.ofList cs ∧ last.token = .endOfInput ∧
      (new (String.ofList cs) settings).tokens.2.diagnostics = [] := by
  have ahead : (new (String.ofList cs) settings).cursor.rest = cs := by
    obtain ⟨c, rest, rfl, first, -⟩ := numeral.head?
    simp only [new, String.toList_ofList]
    split
    · rename_i hash
      obtain ⟨rfl, -⟩ := cons.inj hash
      simp at first
    · rfl
  obtain ⟨cursor, stop, after, token, raw⟩ := next_numeral numeral rfl ahead
  have ending : (new (String.ofList cs) settings).next.2.Comes .endOfInput := by
    rw [after]
    exact comes_endOfInput rfl rfl rfl (by rw [stop]; rfl)
  have more : (new (String.ofList cs) settings).next.1.token.isEnd = false := by rw [token]; rfl
  have last : (new (String.ofList cs) settings).next.2.next.1.token.isEnd := by rw [ending.token]; rfl
  simp only [tokens, tokensUpTo, more, last, Bool.false_eq_true, if_false, if_true]
  exact ⟨_, _, rfl, token, raw, ending.token, ending.after⟩

end Scanner

namespace Decimal

open JsonText Scanner

variable {whole fraction exponent : List Char}

/-- A printed positive number is taken apart into digits without zeros at their ends and a power of ten. They are spelled
by a numeral that is read as one number over its whole length and stands for the same rational. Neither the plain decimal
of that rational nor the whole number with an exponent is shorter. -/
theorem shortestText_decompose (digits : Digits whole) (fraction' : Fraction fraction) (exponent' : Exponent exponent)
    (mark : exponent.head? ≠ some 'E') (positive : magnitudeOf (whole ++ (fraction ++ exponent)) ≠ 0)
    (short : whole.length + fraction.length + (exponentValue exponent).natAbs < 2147483648) (settings : Settings) :
    let trimmed := (decompose (whole ++ (fraction ++ exponent))).1
    let power := (decompose (whole ++ (fraction ++ exponent))).2
    let spelled := shortestText trimmed power
    (Digits trimmed ∧ trimmed.head? ≠ some '0' ∧ trimmed.getLast? ≠ some '0') ∧
      (∃ l last : Lexeme, (new (String.ofList spelled) settings).tokens.1 = [l, last] ∧
        l.token = .number (readDecimal spelled) ∧ l.raw = String.ofList spelled ∧
        last.token = .endOfInput ∧ (new (String.ofList spelled) settings).tokens.2.diagnostics = []) ∧
      magnitudeOf (whole ++ (fraction ++ exponent)) =
        digitsValue (whole ++ fraction.tail) * 10 ^ (exponentValue exponent - fraction.tail.length) ∧
      (∀ text ∈ [spelled, plainText trimmed power, scientificText trimmed power],
        magnitudeOf text = magnitudeOf (whole ++ (fraction ++ exponent))) ∧
      spelled.length ≤ (plainText trimmed power).length ∧ spelled.length ≤ (scientificText trimmed power).length := by
  obtain ⟨d, proper, some, last, value, parts⟩ := exists_decompose digits fraction' exponent' mark positive short
  rw [parts]
  refine ⟨⟨digits_toDigits _, head?_toDigits some, last⟩, ?_, ?_, ?_, d.length_shortestSpelling⟩
  · exact tokens_numeral (numeral_shortestSpelling proper) settings
  · exact magnitudeOf_parts digits.2 fraction' exponent'
  · rw [← value]
    show ∀ text ∈ [d.shortestSpelling, d.plain, d.scientific], magnitudeOf text = d.value
    simp [magnitudeOf_shortestSpelling proper, magnitudeOf_plain proper, magnitudeOf_scientific proper]

/-- Zeros at both ends and an exponent: what is left has no point. -/
theorem shortestText_decompose_zeros :
    magnitudeOf ("0".toList ++ (".00120".toList ++ "e-5".toList)) ≠ 0 ∧
      decompose ("0".toList ++ (".00120".toList ++ "e-5".toList)) = ("12".toList, -9) ∧
      shortestText "12".toList (-9) = "12e-9".toList ∧
      magnitudeOf "12e-9".toList = magnitudeOf ("0".toList ++ (".00120".toList ++ "e-5".toList)) := by
  have fraction : Fraction ".00120".toList := .inr ⟨"00120".toList, rfl, by decide, by decide⟩
  have exponent : Exponent "e-5".toList := .inr ⟨'e', ['-'], ['5'], rfl, by simp, by simp, by simp, by decide⟩
  have digits : Digits "0".toList := ⟨by decide, by decide⟩
  have positive : magnitudeOf ("0".toList ++ (".00120".toList ++ "e-5".toList)) ≠ 0 := by
    rw [magnitudeOf_parts digits.2 fraction exponent]
    exact mul_ne_zero (Nat.cast_ne_zero.2 (by decide)) (zpow_ne_zero _ (by norm_num))
  have parts : decompose ("0".toList ++ (".00120".toList ++ "e-5".toList)) = ("12".toList, -9) := by decide +kernel
  have spelled : shortestText "12".toList (-9) = "12e-9".toList := by decide +kernel
  have facts := shortestText_decompose digits fraction exponent (by decide) positive (by decide) {}
  rw [parts] at facts
  obtain ⟨-, -, -, same, -⟩ := facts
  exact ⟨positive, parts, spelled, spelled ▸ same _ (.head _)⟩

end Decimal

end Condense
