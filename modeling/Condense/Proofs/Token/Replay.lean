import Condense.Proofs.Token.Tiling

/-!
Going back to a place and reading on from there.
-/

namespace Condense.Scanner

open List

variable {s t : Scanner}

theorem apart_scanToken : s.Apart scanToken :=
  have token (line : UInt32) := (rounds_scanTokenFrom line).forward
  (gives_here (gives_moveTo ⟨suffix_refl _, rfl⟩ ((token _ _ ()).proceeds _)) : s.Proceeds False scanToken).apart

/-- Takes a number of tokens one after another. At the end, the end comes again and again. -/
def take : Nat → Scanner → List Lexeme × Scanner
  | 0, s => ([], s)
  | count + 1, s =>
    let (lexeme, s) := s.next
    let (rest, s) := take count s
    (lexeme :: rest, s)

/-- Whether two scanners differ only in the files they have met, in the list of the names that are defined, and
in whether a line has ended before the next token, which is settled anew for every token. -/
inductive Alike (s t : Scanner) : Prop
  | intro (files names passedLine) : s.Names names →
    t = { s.aside files names with cursor := { s.cursor with passedLine } } → Alike s t

theorem next_alike (alike : s.Alike t) : t.next.1 = s.next.1 ∧ s.next.2.Alike t.next.2 := by
  obtain ⟨files, names, passedLine, same, eq⟩ := alike
  have kept : t.lookahead = s.lookahead := by rw [eq]; rfl
  cases ahead : s.lookahead with
  | some l =>
    have taken (u : Scanner) (found : u.lookahead = some l) : u.next = (l, { u with lookahead := none }) := by
      simp only [Scanner.next, found]
    rw [taken s ahead, taken t (kept.trans ahead), eq]
    exact ⟨rfl, files, names, passedLine, same, rfl⟩
  | none =>
    have scanned (u : Scanner) (fresh : u.lookahead = none) : u.next = scanToken.run u := by
      simp only [Scanner.next, fresh]
    obtain ⟨files', names', same', run⟩ := apart_scanToken files names same
    -- The flag is cleared first, so the two runs are the same from there on.
    have cleared : scanToken.run t = scanToken.run (s.aside files names) := by rw [eq]; rfl
    rw [scanned s ahead, scanned t (kept.trans ahead), cleared, run]
    exact ⟨rfl, files', names', _, same', rfl⟩

theorem next_keeps (s : Scanner) : s.next.2.settings = s.settings ∧ s.next.2.source = s.source ∧
    s.next.2.lookahead = none ∧ s.diagnostics <+: s.next.2.diagnostics := by
  unfold Scanner.next
  split
  · exact ⟨rfl, rfl, rfl, prefix_refl _⟩
  · rename_i fresh
    obtain ⟨start, read⟩ : Finds False False s s scanToken := finds_scanToken False.elim False.elim False.elim
    obtain ⟨more, -, reports⟩ := read.onward.reports
    exact ⟨read.onward.settings, read.onward.source, read.onward.lookahead.trans fresh, more, reports.symm⟩

/-- Taking tokens keeps everything that is not restored, and adds to what was reported. -/
theorem take_keeps (s : Scanner) (count : Nat) :
    (take count s).2.settings = s.settings ∧ (take count s).2.source = s.source ∧
      s.diagnostics <+: (take count s).2.diagnostics := by
  induction count generalizing s with
  | zero => exact ⟨rfl, rfl, prefix_refl _⟩
  | succ count ih =>
    obtain ⟨sameSettings, sameSource, -, grown⟩ := s.next_keeps
    obtain ⟨settings, source, reports⟩ := ih s.next.2
    exact ⟨settings.trans sameSettings, source.trans sameSource, grown.trans reports⟩

theorem take_alike (alike : s.Alike t) (count : Nat) :
    (take count t).1 = (take count s).1 ∧ (take count t).2.diagnostics = (take count s).2.diagnostics := by
  induction count generalizing s t with
  | zero =>
    obtain ⟨files, names, passedLine, -, rfl⟩ := alike
    exact ⟨rfl, rfl⟩
  | succ count ih =>
    obtain ⟨first, further⟩ := next_alike alike
    obtain ⟨rest, reports⟩ := ih further
    refine ⟨?_, reports⟩
    show t.next.1 :: (take count t.next.2).1 = s.next.1 :: (take count s.next.2).1
    rw [first, rest]

/-- Going back brings everything back but the names that are defined and the numbering of files. -/
theorem restore_take (s : Scanner) (count : Nat) :
    (take count s).2.restore s.checkpoint =
      { s with
        defines := (take count s).2.defines
        nextFile := (take count s).2.nextFile
        newFiles := (take count s).2.newFiles
        cursor := { s.cursor with passedLine := (take count s).2.cursor.passedLine } } := by
  obtain ⟨settings, source, reports⟩ := take_keeps s count
  have kept : (take count s).2.diagnostics.take s.diagnostics.length = s.diagnostics :=
    (prefix_iff_eq_take.1 reports).symm
  simp only [restore, checkpoint, kept, settings, source]

/-- Where the tokens that were taken have neither changed which names are defined nor started another file,
the same tokens and the same reports come again after going back. -/
theorem take_restore (s : Scanner) (count : Nat) (names : ∀ name, name ∈ (take count s).2.defines ↔ name ∈ s.defines)
    (files : (take count s).2.nextFile = s.nextFile) :
    (take count ((take count s).2.restore s.checkpoint)).1 = (take count s).1 ∧
      (take count ((take count s).2.restore s.checkpoint)).2.diagnostics = (take count s).2.diagnostics := by
  apply take_alike
  rw [restore_take, files]
  exact ⟨_, _, _, names, rfl⟩

/-- A condition is met and a report is made on the way. -/
theorem take_restore_condition :
    let s := new "///#IFDEF A\nx\n///#ELSE\ny\n///#ENDIF\n///#ENDIF\nz" {}
    (take 2 s).1.map (·.raw) = ["y", "z"] ∧
      (take 2 ((take 2 s).2.restore s.checkpoint)).1 = (take 2 s).1 ∧
      (take 2 ((take 2 s).2.restore s.checkpoint)).2.diagnostics = (take 2 s).2.diagnostics := by
  intro s
  have facts : (take 2 s).1.map (·.raw) = ["y", "z"] ∧ (take 2 s).2.defines = [] ∧ (take 2 s).2.nextFile = 1 := by
    decide +kernel
  have names : ∀ name, name ∈ (take 2 s).2.defines ↔ name ∈ s.defines := by
    intro name
    rw [facts.2.1]
    exact Iff.rfl
  exact ⟨facts.1, take_restore s 2 names facts.2.2⟩

end Condense.Scanner
