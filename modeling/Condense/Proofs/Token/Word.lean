import Condense.Output.Piece
import Condense.Proofs.Token.Literal

/-!
Words: a name or a keyword is read back as itself if what follows cannot belong to a word.
-/

namespace Condense

open Cursor List

section Characters

variable {c : Char}

theorem isWordChar_of_isIdStart (start : isIdStart c) : isWordChar c := by
  simp only [isIdStart, Text.isAlphabetic, Bool.or_eq_true, beq_iff_eq] at start
  rcases start with (rfl | rfl) | letter
  · decide
  · decide
  · split at letter
    · simp [isWordChar, Char.isAlphanum, letter]
    · rename_i wide
      simp [isWordChar, Nat.le_of_not_lt wide]

theorem isWordChar_of_isIdContinue (inside : isIdContinue c) : isWordChar c := by
  simp only [isIdContinue, Text.isAlphanumeric, Text.isNumeric, Bool.or_eq_true, beq_iff_eq] at inside
  rcases inside with ((start | letter | digit) | joiner) | joiner
  · exact isWordChar_of_isIdStart start
  · exact isWordChar_of_isIdStart (by simp [isIdStart, letter])
  · split at digit
    · simp [isWordChar, Char.isAlphanum, digit]
    · rename_i wide
      simp [isWordChar, Nat.le_of_not_lt wide]
  all_goals simp [isWordChar, joiner]

theorem not_isDigit_of_isIdStart (start : isIdStart c) : c.isDigit = false := by
  refine Bool.eq_false_iff.mpr fun digit => ?_
  have digit : 48 ≤ c.toNat ∧ c.toNat ≤ 57 := by
    simpa [Char.isDigit, UInt32.le_iff_toNat_le] using digit
  have none : ∀ n ∈ List.range' 48 10, isIdStart (Char.ofNat n) = false := by decide
  have none := none c.toNat (by simp; omega)
  simp [start] at none

def isBlank (c : Char) : Bool :=
  Scanner.isSpace c || isLineTerminator c

def blankCodes : List Nat :=
  [0x9, 0xA, 0xB, 0xC, 0xD, 0x20, 0xA0, 0x1680, 0x2028, 0x2029, 0x202F, 0x205F, 0x3000, 0xFEFF]
    ++ List.range' 0x2000 11

theorem mem_blankCodes (blank : isBlank c) : c.toNat ∈ blankCodes := by
  simp only [isBlank, Scanner.isSpace, isLineTerminator, Bool.or_eq_true, beq_iff_eq, Bool.and_eq_true,
    decide_eq_true_eq] at blank
  simp only [blankCodes, mem_append, mem_range'_1, mem_cons, not_mem_nil, or_false]
  rcases blank with (((((((((((rfl | rfl) | n) | n) | n) | n) | n) | n) | n) | n) | n)) | (((rfl | rfl) | n) | n)
  all_goals first | decide | omega

theorem not_isBlank_of_isIdStart (start : isIdStart c) : isBlank c = false := by
  refine Bool.eq_false_iff.mpr fun blank => ?_
  have none : ∀ n ∈ blankCodes, isIdStart (Char.ofNat n) = false := by decide +kernel
  have none := none c.toNat (mem_blankCodes blank)
  simp [start] at none

end Characters

namespace Scanner

variable {s : Scanner}

def isWord : List Char → Bool
  | [] => false
  | first :: rest => isIdStart first && rest.all isIdContinue

/-- The letters of a word are taken up to what cannot belong to it. -/
theorem reads_scanNameFrom {letters rest : List Char} (inside : letters.all isIdContinue)
    (ends : ∀ c ∈ rest.head?, isWordChar c = false) {steps : Nat} (enough : letters.length < steps)
    (done : List Char) (ahead : s.cursor.rest = letters ++ rest) :
    Reads (scanNameFrom steps done false) s (letters.reverse ++ done, false) rest := by
  induction letters generalizing s steps done with
  | nil =>
    obtain _ | fewer := steps
    · simp at enough
    refine ⟨s.cursor, ⟨ahead, rfl, rfl⟩, ?_⟩
    have noLetter : (isIdContinue s.cursor.peek && !s.cursor.atEnd) = false := by
      cases rest with
      | nil => simp [atEnd, ahead]
      | cons c rest =>
        have noWord := ends c rfl
        have noLetter : isIdContinue c = false :=
          Bool.eq_false_iff.mpr fun letter => by simp [isWordChar_of_isIdContinue letter] at noWord
        simp [peek_of_rest ahead, noLetter]
    have noSlash : s.cursor.peek ≠ '\\' := by
      cases rest with
      | nil => simp [Cursor.peek, ahead]
      | cons c rest =>
        rw [peek_of_rest ahead]
        rintro rfl
        exact absurd (ends '\\' rfl) (by decide)
    simp only [scanNameFrom, run_bind, run_here, noLetter, noSlash, Bool.false_eq_true, if_false, decide_false,
      Bool.false_and, run_pure]
    rfl
  | cons c letters ih =>
    obtain _ | fewer := steps
    · simp at enough
    simp only [length_cons, Nat.add_lt_add_iff_right] at enough
    obtain ⟨letter, inside⟩ : isIdContinue c ∧ letters.all isIdContinue := by
      simpa using inside
    have reaches := reaches_advance ahead
    obtain ⟨cursor, further, run⟩ := ih (s := { s with cursor := s.cursor.advance }) inside enough (c :: done)
      reaches.rest
    refine ⟨cursor, reaches.trans further, ?_⟩
    simp only [scanNameFrom, run_bind, run_here, peek_of_rest ahead, letter, atEnd_of_rest ahead,
      Bool.not_false, Bool.and_self, if_true, run_moveTo, run]
    simp

def wordToken (word : String) : Token :=
  match Keyword.ofString? word with
  | some keyword => .keyword keyword
  | none => .identifier word false

theorem reads_scanIdentifier (first : Char) {letters rest : List Char} (inside : letters.all isIdContinue)
    (ends : ∀ c ∈ rest.head?, isWordChar c = false) (ahead : s.cursor.rest = letters ++ rest) :
    Reads (scanIdentifier first false) s (wordToken (String.ofList (first :: letters))) rest := by
  have enough : letters.length < s.cursor.rest.length + 1 := by
    rw [ahead, length_append]
    omega
  obtain ⟨cursor, reaches, run⟩ := reads_scanNameFrom inside ends enough [first] ahead
  refine ⟨cursor, reaches, ?_⟩
  simp only [scanIdentifier, run_bind, run_here, run, reverse_append, reverse_reverse, wordToken]
  simp only [reverse_cons, reverse_nil, nil_append, singleton_append, Bool.false_eq_true, if_false]
  cases Keyword.ofString? (String.ofList (first :: letters)) <;> rfl

end Scanner

theorem Keyword.ofString?_spelling (word : Keyword) : Keyword.ofString? word.spelling = some word := by
  cases word <;> decide

end Condense
