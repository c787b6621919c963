import Condense.Proofs.Token.Stream

/-!
A quoted text, read alone, is one string and then the end.
-/

namespace Condense

open List

namespace Quoted

/-- Whether a slash stands behind a `<`, with `before` in front of the text. -/
def closes : Char → List Char → Bool
  | _, [] => false
  | before, c :: rest => (before == '<' && c == '/') || closes c rest

theorem closes_append (before : Char) (text more : List Char) :
    closes before (text ++ more) = (closes before text || closes (text.getLastD before) more) := by
  induction text generalizing before with
  | nil => simp [closes]
  | cons c text ih => rw [cons_append, closes, ih, closes, getLastD_cons, Bool.or_assoc]

theorem closes_of_infix (before : Char) {text : List Char} (found : ['<', '/'] <:+: text) :
    closes before text := by
  obtain ⟨first, last, rfl⟩ := found
  simp [closes_append, closes]

theorem hexDigit_ne {n : Nat} (small : n < 16) : Json.hexDigit n ≠ '<' ∧ Json.hexDigit n ≠ '/' := by
  revert n
  decide

/-- What is written for a character holds no `</`, and ends with `<` only for that character. -/
theorem closes_escape {quote last : Char} {before : Option Char} (c : Char) (rest : List Char)
    (known : last = '<' → before = some '<') :
    closes last (escape quote true before c rest) = false ∧
      ((escape quote true before c rest).getLastD last = '<' → some c = some '<') := by
  fun_cases escape quote true before c rest
  case case14 code =>
    simp only [Bool.or_eq_true, decide_eq_true_eq] at code
    have small : c.toNat / 16 < 16 ∧ c.toNat % 16 < 16 := by
      rcases code with low | rfl
      · omega
      · decide
    simp [closes, hexDigit_ne small.1, hexDigit_ne small.2]
  case case15 noSlash _ _ =>
    simp only [Bool.and_eq_true, decide_eq_true_eq, beq_iff_eq, not_and, and_true] at noSlash
    simp only [closes, Bool.or_false, Bool.and_eq_false_iff, beq_eq_false_iff_ne, getLastD_cons, getLastD_nil,
      Option.some.injEq, imp_self, and_true]
    by_cases open' : last = '<'
    · exact .inr fun slash => noSlash slash (known open')
    · exact .inl open'
  all_goals simp [closes]

theorem closes_escapeAll {quote last : Char} {before : Option Char} (text : List Char)
    (quotes : quote = '"' ∨ quote = '\'') (known : last = '<' → before = some '<') :
    closes last (escapeAll quote true before text ++ [quote]) = false := by
  induction text generalizing before last with
  | nil => rcases quotes with rfl | rfl <;> simp [escapeAll, closes]
  | cons c text ih =>
    obtain ⟨safe, ends⟩ := closes_escape c text known
    rw [escapeAll, append_assoc, closes_append, safe, ih ends]
    rfl

theorem literal_closes_nothing (text : String) : ¬ ['<', '/'] <:+: (literal text true).toList := by
  intro found
  have closing := closes_of_infix ' ' found
  have quotes := Scanner.delimiter_cases text.toList
  have inside : closes (delimiter text.toList)
      (escapeAll (delimiter text.toList) true none text.toList ++ [delimiter text.toList]) = false := by
    apply closes_escapeAll _ quotes
    intro same
    rcases quotes with quote | quote <;> simp [quote] at same
  rw [literal, String.toList_ofList, closes, inside] at closing
  simp at closing

end Quoted

namespace Scanner

variable {s : Scanner}

/-- All tokens that are delivered are taken, and nothing is reported. -/
theorem tokensUpTo_of_delivers {tokens : List Token} {steps : Nat} (delivers : s.Delivers tokens)
    (inside : ∀ t ∈ tokens, t.isEnd = false) (enough : tokens.length < steps) :
    (tokensUpTo steps s).1.map (·.token) = tokens ++ [.endOfInput] ∧ (tokensUpTo steps s).2.diagnostics = [] := by
  induction tokens generalizing s steps with
  | nil =>
    obtain _ | fewer := steps
    · omega
    have comes : s.Comes .endOfInput := delivers
    have ending : s.next.1.token.isEnd := by rw [comes.token]; rfl
    simp only [tokensUpTo, ending, if_true]
    exact ⟨by simp [comes.token], comes.after⟩
  | cons t tokens ih =>
    obtain _ | fewer := steps
    · simp at enough
    obtain ⟨comes, later⟩ := delivers
    have other : s.next.1.token.isEnd = false := by
      rw [comes.token]
      exact inside t (.head _)
    obtain ⟨taken, silent⟩ := ih later (fun t member => inside t (.tail _ member)) (by simpa using enough)
    simp only [tokensUpTo, other, Bool.false_eq_true, if_false]
    exact ⟨by simp [comes.token, taken], silent⟩

theorem renders_literal (text : String) (inlineSafe : Bool) :
    Renders inlineSafe true [.string text] (Quoted.literal text inlineSafe).toList := by
  rw [← append_nil (Quoted.literal text inlineSafe).toList, ← nil_append (_ ++ [])]
  apply Renders.cons (t := .string text) rfl
  · trivial
  · intro divides
    cases divides
  · intro update
    cases update
  · intro c next
    cases next
  · exact .nil rfl

theorem cursor_new_literal (text : String) (inlineSafe : Bool) (settings : Settings) :
    (new (Quoted.literal text inlineSafe) settings).cursor.rest = (Quoted.literal text inlineSafe).toList := by
  simp only [new, Quoted.literal, String.toList_ofList]
  split
  · rename_i first
    rcases delimiter_cases text.toList with quote | quote <;> simp [quote] at first
  · rfl

/-- The literal of a text is read as one string with this text, and nothing is reported. The literal that is
safe inside a script element holds no `</`. -/
theorem tokens_literal (text : String) (inlineSafe : Bool) (settings : Settings)
    (noMarkers : settings.hasReplacements = false) :
    (new (Quoted.literal text inlineSafe) settings).tokens.1.map (·.token) = [.string text, .endOfInput] ∧
      (new (Quoted.literal text inlineSafe) settings).tokens.2.diagnostics = [] ∧
      (inlineSafe = true → ¬ ['<', '/'] <:+: (Quoted.literal text inlineSafe).toList) := by
  have delivers := delivers_of_renders (renders_literal text inlineSafe) ⟨noMarkers, rfl, rfl, not_mem_nil⟩ rfl
    (cursor_new_literal text inlineSafe settings) rfl
  have inside : ∀ t ∈ [Token.string text], t.isEnd = false := by
    intro t member
    rw [List.mem_singleton.1 member]
    rfl
  have enough : [Token.string text].length < (new (Quoted.literal text inlineSafe) settings).source.length + 2 :=
    Nat.lt_add_left _ Nat.one_lt_two
  unfold tokens
  obtain ⟨taken, silent⟩ := tokensUpTo_of_delivers delivers inside enough
  refine ⟨taken, silent, ?_⟩
  rintro rfl
  exact Quoted.literal_closes_nothing text

/-- A text with the first of all characters before a digit, with both quotes and with an end tag. -/
theorem tokens_literal_endTag :
    ({} : Settings).hasReplacements = false ∧
      (new (Quoted.literal "\x001'\"</a>" true) {}).tokens.1.map (·.token) = [.string "\x001'\"</a>", .endOfInput] ∧
      ¬ ['<', '/'] <:+: (Quoted.literal "\x001'\"</a>" true).toList := by
  have quiet : ({} : Settings).hasReplacements = false := by decide
  obtain ⟨taken, -, safe⟩ := tokens_literal "\x001'\"</a>" true {} quiet
  exact ⟨quiet, taken, safe rfl⟩

end Scanner

end Condense
