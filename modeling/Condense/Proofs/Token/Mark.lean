import Condense.Proofs.Token.Word

/-!
Punctuation: a mark is read back as itself if no longer one starts with it and the next character.
-/

namespace Condense.Scanner

open List

variable {s : Scanner} {p : Punctuator} {rest : List Char}

/-- The characters behind an operator that make a longer one. -/
def extensions (p : Punctuator) : List Char :=
  operators.filterMap fun q =>
    if p.spelling.toList.isPrefixOf q.spelling.toList then q.spelling.toList[p.spelling.toList.length]?
    else none

/-- No operator is tried before a longer one that starts with it. -/
theorem operators_pairwise : operators.Pairwise fun q p => q.spelling.toList.isPrefixOf p.spelling.toList = false := by
  decide +kernel

theorem mem_extensions {q : Punctuator} (known : q ∈ operators) {c : Char} {more : List Char}
    (longer : q.spelling.toList = p.spelling.toList ++ c :: more) : c ∈ extensions p :=
  mem_filterMap.mpr ⟨q, known, by simp [longer]⟩

theorem find?_operators (known : p ∈ operators) (ends : ∀ c ∈ rest.head?, c ∉ extensions p) :
    operators.find? (fun q => q.spelling.toList.isPrefixOf (p.spelling.toList ++ rest)) = some p := by
  obtain ⟨earlier, later, order⟩ := append_of_mem known
  have here : p.spelling.toList <+: p.spelling.toList ++ rest := prefix_append _ _
  refine find?_eq_some_iff_append.mpr ⟨ isPrefixOf_iff_prefix.mpr here, earlier, later, order, ?_⟩
  intro q before
  have among : q ∈ operators := by simp [order, before]
  have notShorter : q.spelling.toList.isPrefixOf p.spelling.toList = false :=
    (pairwise_append.mp (order ▸ operators_pairwise)).2.2 q before p (.head _)
  have notShorter : ¬q.spelling.toList <+: p.spelling.toList := fun shorter => by
    simp [ isPrefixOf_iff_prefix.mpr shorter] at notShorter
  simp only [Bool.not_eq_eq_eq_not, Bool.not_true]
  refine Bool.eq_false_iff.mpr fun fits => ?_
  have fits := isPrefixOf_iff_prefix.mp fits
  rcases prefix_or_prefix_of_prefix fits here with shorter | ⟨more, longer⟩
  · exact notShorter shorter
  · rw [← longer, prefix_append_right_inj] at fits
    obtain ⟨further, rfl⟩ := fits
    cases more with
    | nil => exact notShorter (by simp [← longer])
    | cons c more => exact ends c rfl (mem_extensions among longer.symm)

end Condense.Scanner

namespace Condense

/-- Whether the token ends before the character, whatever follows. -/
def Token.endsBefore : Token → Char → Bool
  | identifier .., c | keyword _, c => !isWordChar c
  | punctuator .slash, c => c != '/' && c != '*' && c != '='
  | punctuator .percent, c => c != '='
  | punctuator .dot, c => c != '.' && !c.isDigit
  | punctuator .optionalChain, c => !c.isDigit
  | punctuator p, c => !(Scanner.extensions p).contains c
  | _, _ => true

namespace Scanner

open Cursor

variable {s : Scanner} {p : Punctuator} {rest : List Char}

theorem not_mem_extensions (known : p ∈ operators) {c : Char}
    (ends : (Token.punctuator p).endsBefore c) : c ∉ extensions p := by
  have one : extensions .dot = ['.'] ∧ extensions .optionalChain = [] := by decide
  cases p with
  | slash | percent => exact absurd known (by decide)
  | dot =>
    rw [one.1]
    simp only [Token.endsBefore, Bool.and_eq_true, bne_iff_ne] at ends
    simpa using ends.1
  | optionalChain => simp [one.2]
  | _ => simpa [Token.endsBefore] using ends

theorem operatorAt?_of_mem (known : p ∈ operators) (ends : ∀ c ∈ rest.head?, (Token.punctuator p).endsBefore c) :
    operatorAt? (p.spelling.toList ++ rest) = some p := by
  rw [operatorAt?, find?_operators known fun c next => not_mem_extensions known (ends c next)]
  by_cases chain : p = .optionalChain
  · subst chain
    have noDigit : (Punctuator.optionalChain.spelling.toList ++ rest)[2]?.any Char.isDigit = false := by
      cases rest with
      | nil => rfl
      | cons c rest =>
        have digit : c.isDigit = false := by simpa [Token.endsBefore] using ends c rfl
        exact digit
    simp [noDigit]
  · simp [chain]

/-- Whether the character starts neither a brace, a slash or a percent sign nor anything but an operator. -/
def startsOperator (c : Char) : Bool :=
  !("\x7b\x7d/%@\x60\"'\\#".toList.contains c) && !c.isDigit && !isIdStart c && !isBlank c

theorem operators_start : ∀ p ∈ operators, p.spelling.toList.head?.any startsOperator ∧
    (p.spelling.toList.head? = some '.' → p = .dot ∨ p = .spread) := by
  decide +kernel

theorem reads_operator (known : p ∈ operators) (ahead : s.cursor.rest = p.spelling.toList ++ rest)
    (ends : ∀ c ∈ rest.head?, (Token.punctuator p).endsBefore c) :
    Reads (scanSignificant s.cursor) s (some (.punctuator p)) rest := by
  obtain ⟨first, fraction⟩ := operators_start p known
  obtain ⟨c, more, spelled⟩ : ∃ c more, p.spelling.toList = c :: more := by
    cases spelled : p.spelling.toList with
    | nil => simp [spelled] at first
    | cons c more => exact ⟨c, more, rfl⟩
  have noFraction : (c = '.' && s.cursor.advance.peek.isDigit) = false := by
    refine Bool.eq_false_iff.mpr fun digit => ?_
    simp only [Bool.and_eq_true, decide_eq_true_eq] at digit
    obtain ⟨rfl, digit⟩ := digit
    rcases fraction (by simp [spelled]) with rfl | rfl
    · have next : s.cursor.advance.rest = rest := (reaches_advance ahead).rest
      cases rest with
      | nil => simp [Cursor.peek, next] at digit
      | cons d rest =>
        rw [peek_of_rest next] at digit
        simp [Token.endsBefore, digit] at ends
    · have next : s.cursor.advance.rest = '.' :: '.' :: rest := (reaches_advance ahead).rest
      rw [peek_of_rest next] at digit
      exact absurd digit (by decide)
  refine ⟨s.cursor.skip p.spelling.toList.length, reaches_skip ahead, ?_⟩
  have found : operatorAt? s.cursor.rest = some p := ahead ▸ operatorAt?_of_mem known ends
  rw [spelled] at ahead
  simp only [spelled, List.head?_cons, Option.any_some, startsOperator, Bool.and_eq_true] at first
  obtain ⟨⟨⟨special, digit⟩, letter⟩, -⟩ := first
  simp at special digit letter
  simp only [scanSignificant, run_bind, run_get, peek_of_rest ahead, special, digit, letter, noFraction, found,
    if_false, Bool.false_eq_true, decide_false, Bool.false_and, Bool.or_self, run_moveTo, run_pure]
  rw [String.length_toList]

theorem run_scanSlash (ahead : s.cursor.rest = '/' :: rest) (division : s.regExpAllowed = false)
    (noComment : rest.head? ≠ some '*') :
    (scanSignificant s.cursor).run s = (some <$> scanRatio .slash .slashEq).run { s with cursor := s.cursor.advance } := by
  have noStar : s.cursor.advance.peek ≠ '*' := by
    rw [Cursor.peek, (reaches_advance ahead).rest]
    cases rest with
    | nil => decide
    | cons c rest => simpa using noComment
  simp only [scanSignificant, scanSlash, run_bind, run_get, peek_of_rest ahead, run_moveTo, noStar, division, if_true,
    if_false, Bool.false_eq_true, Char.reduceEq]
  rfl

theorem run_scanPercent (ahead : s.cursor.rest = '%' :: rest) (division : s.regExpAllowed = false) :
    (scanSignificant s.cursor).run s =
      (some <$> scanRatio .percent .percentEq).run { s with cursor := s.cursor.advance } := by
  simp only [scanSignificant, scanPercent, run_bind, run_get, peek_of_rest ahead, run_moveTo, division, if_true,
    if_false, Bool.false_eq_true, Char.reduceEq]
  rfl

variable {c : Char} {mark assigning : Punctuator}

theorem reads_ratio (ahead : s.cursor.rest = c :: rest) (ends : rest.head? ≠ some '=')
    (opens : (scanSignificant s.cursor).run s =
      (some <$> scanRatio mark assigning).run { s with cursor := s.cursor.advance }) :
    Reads (scanSignificant s.cursor) s (some (.punctuator mark)) rest := by
  have reaches := reaches_advance ahead
  refine ⟨s.cursor.advance, reaches, opens.trans ?_⟩
  rw [scanRatio, StateT.run_map, run_bind, run_eat_of_ne _ (reaches.rest ▸ ends)]
  rfl

theorem reads_ratioEq (ahead : s.cursor.rest = c :: '=' :: rest)
    (opens : (scanSignificant s.cursor).run s =
      (some <$> scanRatio mark assigning).run { s with cursor := s.cursor.advance }) :
    Reads (scanSignificant s.cursor) s (some (.punctuator assigning)) rest := by
  have reaches := reaches_advance ahead
  refine ⟨s.cursor.advance.advance, reaches.trans (reaches_advance reaches.rest), opens.trans ?_⟩
  rw [scanRatio, StateT.run_map, run_bind, run_eat_of_head reaches.rest]
  rfl

end Scanner

end Condense
