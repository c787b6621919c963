import Condense.Settings.Replacement

/-!
Markers within a text. Where plain text and markers take turns, each marker is replaced once, and neither the text
between markers nor the text that a marker stands for is looked at again.
-/

namespace Condense

open List

/-- The characters of a marker that is written in ASCII. -/
def isPlainMarkerChar (c : Char) : Bool :=
  c.isAlphanum || isMarkerPunctuation c

/-- A marker `%name%` or `%name:fallback%`. -/
structure PlainMarker where
  name : List Char
  fallback : Option (List Char)
  named : name ≠ []
  plain : ∀ c ∈ name ++ fallback.getD [], isPlainMarkerChar c = true

namespace PlainMarker

def text (m : PlainMarker) : List Char :=
  '%' :: m.name ++ (m.fallback.elim [] (':' :: ·) ++ ['%'])

def value (m : PlainMarker) (s : Settings) : List Char :=
  ((s.resolveMarker? (String.ofList m.name) (m.fallback.map String.ofList)).getD "").toList

end PlainMarker

theorem isEmbeddedMarkerChar_of_plain {c : Char} (plain : isPlainMarkerChar c) : isEmbeddedMarkerChar c := by
  rw [isPlainMarkerChar, Bool.or_eq_true] at plain
  rcases plain with letter | mark
  · have ascii : c.toNat < 0x80 := by
      delta Char.isAlphanum Char.isAlpha Char.isUpper Char.isLower Char.isDigit at letter
      simp [UInt32.le_iff_toNat_le] at letter
      omega
    simp [isEmbeddedMarkerChar, Text.isWord, ascii, letter]
  · simp [isEmbeddedMarkerChar, mark]

/-- The characters of a marker are taken up to the sign that follows them. -/
theorem span_marker {chars : List Char} (plain : ∀ c ∈ chars, isPlainMarkerChar c) {c : Char}
    (other : isEmbeddedMarkerChar c = false) (rest : List Char) :
    (chars ++ c :: rest).takeWhile isEmbeddedMarkerChar = chars ∧
      (chars ++ c :: rest).dropWhile isEmbeddedMarkerChar = c :: rest := by
  have all : ∀ c ∈ chars, isEmbeddedMarkerChar c := fun c member => isEmbeddedMarkerChar_of_plain (plain c member)
  rw [takeWhile_append_of_pos all, dropWhile_append_of_pos all]
  simp [other]

namespace Settings

/-- A marker is read up to its closing sign, whatever follows. -/
theorem readMarker?_text (m : PlainMarker) (rest : List Char) :
    readMarker? ((m.text ++ rest).tail) = some (String.ofList m.name, m.fallback.map String.ofList, rest) := by
  obtain ⟨name, fallback, named, plain⟩ := m
  rw [forall_mem_append] at plain
  cases fallback with
  | none =>
    obtain ⟨taken, left⟩ := span_marker plain.1 (c := '%') (by decide) rest
    simp [PlainMarker.text, readMarker?, taken, left, named]
  | some fallback =>
    obtain ⟨taken, left⟩ := span_marker plain.1 (c := ':') (by decide) (fallback ++ '%' :: rest)
    obtain ⟨taken', left'⟩ := span_marker plain.2 (c := '%') (by decide) rest
    simp at taken' left'
    simp [PlainMarker.text, readMarker?, taken, left, taken', left', named]

variable (s : Settings)

theorem substituteUpTo_text {text : List Char} (clean : '%' ∉ text) (steps : Nat) (rest : List Char) :
    s.substituteUpTo (text.length + steps) (text ++ rest) = text ++ s.substituteUpTo steps rest := by
  induction text with
  | nil => simp
  | cons c text ih =>
    rw [mem_cons, not_or] at clean
    rw [length_cons, Nat.add_right_comm, cons_append, substituteUpTo, if_neg (Ne.symm clean.1), ih clean.2, cons_append]

theorem substituteUpTo_marker (m : PlainMarker) (steps : Nat) (rest : List Char) :
    s.substituteUpTo (steps + 1) (m.text ++ rest) = m.value s ++ s.substituteUpTo steps rest := by
  have read := readMarker?_text m rest
  simp only [PlainMarker.text, cons_append, tail_cons] at read
  simp only [PlainMarker.text, cons_append, substituteUpTo, if_true, read]
  rfl

/-- A step is left over for every character that is not read on its own. -/
theorem substituteUpTo_parts {lead : List Char} {parts : List (PlainMarker × List Char)} {steps : Nat}
    (clean : '%' ∉ lead ∧ ∀ part ∈ parts, '%' ∉ part.2)
    (enough : (lead ++ parts.flatMap fun part => part.1.text ++ part.2).length ≤ steps) :
    s.substituteUpTo steps (lead ++ parts.flatMap fun part => part.1.text ++ part.2) =
      lead ++ parts.flatMap fun part => part.1.value s ++ part.2 := by
  induction parts generalizing lead steps with
  | nil =>
    obtain ⟨steps, rfl⟩ := Nat.exists_eq_add_of_le (by simpa using enough)
    rw [s.substituteUpTo_text clean.1]
    cases steps <;> rfl
  | cons part parts ih =>
    rw [forall_mem_cons] at clean
    simp only [flatMap_cons, length_append] at enough
    have sign : 0 < part.1.text.length := Nat.succ_pos _
    obtain ⟨steps, rfl⟩ : ∃ k, steps = lead.length + (k + 1) := ⟨steps - lead.length - 1, by omega⟩
    rw [s.substituteUpTo_text clean.1, flatMap_cons, append_assoc, substituteUpTo_marker, ih clean.2, flatMap_cons,
      append_assoc]
    rw [length_append]
    omega

/-- Where plain text and markers take turns, the text gets the values of its markers in their places. -/
theorem substitute_markers (active : s.hasReplacements = true) (lead : List Char)
    (parts : List (PlainMarker × List Char)) (clean : '%' ∉ lead ∧ ∀ part ∈ parts, '%' ∉ part.2) :
    s.substitute (String.ofList (lead ++ parts.flatMap fun part => part.1.text ++ part.2)) =
      String.ofList (lead ++ parts.flatMap fun part => part.1.value s ++ part.2) := by
  rw [substitute, if_pos active, String.toList_ofList, substituteUpTo_parts s clean (by simp)]

/-- A value that looks like a marker stays, and so does the sign between two markers. -/
theorem substitute_markers_nested :
    let s : Settings := { replacementTokens := [("a", "%b%")], replacementFallbacks := [("c", "100%")] }
    s.substitute "x%A%%b:c%y" = "x%b%100%y" := by
  intro s
  let first : PlainMarker := ⟨['A'], none, by decide, all_eq_true.1 rfl⟩
  let second : PlainMarker := ⟨['b'], some ['c'], by decide, all_eq_true.1 rfl⟩
  have values : first.value s = "%b%".toList ∧ second.value s = "100%".toList := by decide +kernel
  have replaced := s.substitute_markers rfl ['x'] [(first, []), (second, ['y'])] (by decide)
  simpa [values, first, second, PlainMarker.text] using replaced

end Settings

end Condense
