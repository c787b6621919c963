import Condense.Proofs.Scoping.Invariant
import Condense.Proofs.Token.Tiling

/-!
All that a parse can write, and the tokens that it can meet.
-/

set_option synthInstance.maxSize 512

namespace Condense

open Scanner

/-- Whether the parser may write the form. Only a marker that is replaced can bring a number with a sign, and a
concise body is one expression. -/
def Form.Written (markers : Bool) : Form NodeId → Prop
  | .lookup _ field _ => field = none
  | .constant (.number x) => markers = false → Unsigned x
  | .block statements _ concise => concise = true → statements.length ≤ 1
  | _ => True

/-- Whether the parser may write such a form anywhere: no name is resolved, numbers have no sign, and neither a scope
is named nor a block opened. -/
@[reducible] def Form.isPlain : Form NodeId → Bool
  | .lookup _ (some _) _ | .constant (.number _) | .program .. | .classDefinition .. | .withStatement ..
  | .function .. | .block .. | .forLoop _ _ _ _ (some _) | .forInLoop _ _ _ _ _ (some _)
  | .tryStatement _ _ _ (some _) _ | .switchStatement _ _ (some _) => false
  | _ => true

theorem Form.of_isPlain {form : Form NodeId} (plain : form.isPlain) (markers : Bool) (known : List ScopeId) :
    form.Written markers ∧ form.Placed known := by
  cases form with
  | constant value => cases value <;> first | exact ⟨trivial, trivial⟩ | cases plain
  | lookup _ field _ => cases field <;> first | exact ⟨rfl, rfl⟩ | cases plain
  | forLoop _ _ _ _ scope | forInLoop _ _ _ _ _ scope | tryStatement _ _ _ scope _
  | switchStatement _ _ scope =>
    cases scope with
    | none => exact ⟨trivial, fun _ member => absurd member (Option.not_mem_none _)⟩
    | some => cases plain
  | _ => first | exact ⟨trivial, trivial⟩ | cases plain

/-- Every node has the form that it had, or one that the parser may write. -/
def Tree.Writes (markers : Bool) (t t' : Tree) : Prop :=
  ∀ id, t'.form id = t.form id ∨ (t'.form id).Written markers

theorem Tree.Writes.trans {markers : Bool} {t t' t'' : Tree} (first : t.Writes markers t')
    (second : t'.Writes markers t'') : t.Writes markers t'' := by
  intro id
  rcases second id with same | written
  · rw [same]
    exact first id
  · exact .inr written

/-- The settings that a text is parsed with, and whether some of its markers may be replaced. -/
structure Terms where
  settings : Settings
  markers : Bool

variable {terms : Terms}

/-- Whether a token may come up: no number has a sign, and no marker comes where none may be replaced. -/
structure Token.Fits (terms : Terms) (t : Token) : Prop where
  unsigned : t.Unsigned
  unreplaced : terms.markers = false → terms.settings.hasReplacements = false ∨ t.isReplacement = false

/-- Whether only such tokens come up. -/
structure Scanner.Fits (terms : Terms) (s : Scanner) : Prop where
  settings : s.settings = terms.settings
  lookahead : ∀ l ∈ s.lookahead, l.token.Fits terms
  free : terms.markers = false →
    terms.settings.hasReplacements = false ∨ (MarkerFree s.source ∧ s.cursor.rest <:+ s.source)
  quiet : endings s.diagnostics = []

/-- Of an end of the input, only `told` was reported. -/
structure ParseState.Fits (terms : Terms) (told : List Diagnostic) (s : ParseState) : Prop where
  current : s.current.token.Fits terms
  scanner : s.scanner.Fits terms
  quiet : endings s.diagnostics = told

theorem ParseState.Fits.same {told : List Diagnostic} {s s' : ParseState} (fits : s.Fits terms told)
    (current : s'.current = s.current) (scanner : s'.scanner = s.scanner) (reports : s'.diagnostics = s.diagnostics) :
    s'.Fits terms told :=
  ⟨current ▸ fits.current, scanner ▸ fits.scanner, reports ▸ fits.quiet⟩

/-- What is read from a scanner: a token that may come up, and the scanner behind it. -/
structure Scanned (terms : Terms) (read : Lexeme × Scanner) : Prop where
  token : read.1.token.Fits terms
  scanner : read.2.Fits terms

theorem Scanner.Onward.quiet {s t : Scanner} (onward : s.Onward False t) (quiet : endings s.diagnostics = []) :
    endings t.diagnostics = [] := by
  obtain ⟨more, inside, reports⟩ := onward.reports
  rw [reports, endings_append, quiet, inside, List.append_nil]

section

variable {s : Scanner} (fits : s.Fits terms)

include fits

theorem scanned_scanToken (none : s.lookahead = none) : Scanned terms (scanToken.run s) := by
  obtain ⟨start, read⟩ : Scanner.Finds False (Scanner.MarkerFree s.cursor.rest) s s scanToken :=
    finds_scanToken False.elim False.elim id
  refine ⟨⟨read.unsigned, ?_⟩, read.onward.settings.trans fits.settings, ?_, ?_, read.onward.quiet fits.quiet⟩
  · intro unmarked
    rcases fits.free unmarked with unset | ⟨free, suffix⟩
    · exact .inl unset
    · exact .inr (read.unreplaced (free.suffix suffix))
  · rw [read.onward.lookahead, none]
    simp
  · intro unmarked
    rw [read.onward.source]
    exact (fits.free unmarked).imp_right fun ⟨free, suffix⟩ => ⟨free, read.onward.leads.suffix.trans suffix⟩

theorem scanned_next : Scanned terms s.next := by
  unfold next
  split
  · rename_i l found
    exact ⟨fits.lookahead l found, fits.settings, by simp, fits.free, fits.quiet⟩
  · rename_i none
    exact scanned_scanToken fits none

theorem scanned_peek : Scanned terms s.peek := by
  unfold Scanner.peek
  split
  · rename_i l found
    exact ⟨fits.lookahead l found, fits⟩
  · rename_i none
    have reads := scanned_scanToken fits none
    refine ⟨reads.token, reads.scanner.settings, ?_, reads.scanner.free, reads.scanner.quiet⟩
    intro l found
    cases found
    exact reads.token

theorem scanned_rescanAsRegExp (slash : Lexeme) : Scanned terms (s.rescanAsRegExp slash) := by
  let start : Cursor :=
    { rest := s.source.drop slash.span.start.offset, position := slash.span.start, passedLine := s.cursor.passedLine }
  let begun : Scanner := { s with lookahead := none, cursor := start.advance, file := slash.span.file }
  have ⟨onward, regular, _⟩ : begun.Answers False True (scanRegExp start.position) := answers_scanRegExp _
  refine ⟨⟨regular.unsigned, fun _ => .inr (regular.unreplaced trivial)⟩, onward.settings.trans fits.settings, ?_, ?_,
    onward.quiet fits.quiet⟩
  · intro l found
    rw [show (s.rescanAsRegExp slash).2.lookahead = none from onward.lookahead] at found
    cases found
  · intro unmarked
    have source : (s.rescanAsRegExp slash).2.source = s.source := onward.source
    have suffix : (s.rescanAsRegExp slash).2.cursor.rest <:+ start.advance.rest := onward.leads.suffix
    rw [source]
    refine (fits.free unmarked).imp_right fun ⟨free, _⟩ => ⟨free, suffix.trans ?_⟩
    exact (List.drop_suffix 1 start.rest).trans (List.drop_suffix _ _)

end

end Condense
