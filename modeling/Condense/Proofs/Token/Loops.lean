import Condense.Proofs.Token.Progress

/-!
Every loop of the scanner ends by itself.
-/

namespace Condense.Scanner

variable {s : Scanner}

theorem Rounds.run_eq {α β : Type} {loop : Nat → α → Scan β} (rounds : Rounds False loop) {steps : Nat} {a : α}
    (enough : s.cursor.rest.length < steps) : (loop steps a).run s = (loop (s.cursor.rest.length + 1) a).run s :=
  (rounds.agrees enough (Nat.lt_succ_self _)).same

/-- Where no character is left, there is no octal digit either. -/
theorem scanOctal_succ {steps code : Nat} (enough : s.cursor.rest.length ≤ steps) :
    s.Agrees False (scanOctal steps code) (scanOctal (steps + 1) code) := by
  induction steps generalizing code s with
  | zero =>
    have noDigit : isDigitOf 8 s.cursor.peek = false := by
      simp [Cursor.peek, List.length_eq_zero_iff.1 (Nat.le_zero.1 enough), isDigitOf]
    refine ⟨Forward.proceeds s, ?_⟩
    simp only [scanOctal, run_bind, run_here, noDigit, Bool.and_false, Bool.false_eq_true, if_false]
  | succ steps ih =>
    exact rounds_scanOctal.round _ _ s code fun b t passes => ih (Nat.le_of_lt_succ (Nat.lt_of_lt_of_le passes.fewer enough))

theorem rounds_scanTokenFrom (lineBefore : UInt32) :
    Rounds False fun steps (_ : Unit) => scanTokenFrom lineBefore steps := by
  refine ⟨fun _ => ⟨fun s => gives_here (Forward.proceeds s)⟩, fun n m s _ again => ?_⟩
  refine agrees_here (agrees_bind (Forward.proceeds s) ?_)
  have skipped : s.Onward False ((skipTrivia (s.cursor.rest.length + 1)).run s).2 := (Forward.proceeds s).onward
  generalize ((skipTrivia (s.cursor.rest.length + 1)).run s).2 = t at skipped ⊢
  refine agrees_here (agrees_ite (fun _ => Gives.agrees (Forward.proceeds t)) fun inside => ?_)
  have takes : t.Takes False (Offer False False) (scanSignificant t.cursor) :=
    takes_scanSignificant (Cursor.rest_ne_nil_of_atEnd inside) False.elim False.elim False.elim
  refine agrees_bind ⟨takes.onward, trivial, takes.apart⟩ ?_
  split
  · exact Gives.agrees (Forward.proceeds _)
  · exact again () _ (skipped.leads.trans_passes ⟨takes.onward.leads, takes.fewer⟩)

/-- No loop of the scanner depends on the number of rounds it may run for: from `s` on, each gives with
any greater number what it gives with the number it is run with. -/
structure LoopsEnd (s : Scanner) : Prop where
  octal : ∀ steps code, s.cursor.rest.length ≤ steps →
    (scanOctal steps code).run s = (scanOctal s.cursor.rest.length code).run s
  string : ∀ quote start steps done, s.cursor.rest.length < steps →
    (scanStringFrom quote start steps done).run s =
      (scanStringFrom quote start (s.cursor.rest.length + 1) done).run s
  template : ∀ start steps done, s.cursor.rest.length < steps →
    (scanTemplateFrom start steps done).run s = (scanTemplateFrom start (s.cursor.rest.length + 1) done).run s
  name : ∀ steps done escaped, s.cursor.rest.length < steps →
    (scanNameFrom steps done escaped).run s = (scanNameFrom (s.cursor.rest.length + 1) done escaped).run s
  comment : ∀ steps, s.cursor.rest.length < steps →
    (passComment steps).run s = (passComment (s.cursor.rest.length + 1)).run s
  lines : ∀ stop steps depth, s.cursor.rest.length < steps →
    (skipLinesFrom stop steps depth).run s = (skipLinesFrom stop (s.cursor.rest.length + 1) depth).run s
  trivia : ∀ steps, s.cursor.rest.length < steps →
    (skipTrivia steps).run s = (skipTrivia (s.cursor.rest.length + 1)).run s
  token : ∀ lineBefore steps, s.cursor.rest.length < steps →
    (scanTokenFrom lineBefore steps).run s = (scanTokenFrom lineBefore (s.cursor.rest.length + 1)).run s

theorem loopsEnd (s : Scanner) : s.LoopsEnd where
  octal _ _ enough := by
    induction enough with
    | refl => rfl
    | step more same => rw [← (scanOctal_succ more).same, same]
  string quote start _ _ := (rounds_scanStringFrom quote start).run_eq
  template start _ _ := (rounds_scanTemplateFrom start).run_eq
  name _ done escaped := rounds_scanNameFrom.run_eq (a := (done, escaped))
  comment _ := rounds_passComment.run_eq (a := ())
  lines stop _ _ := (rounds_skipLinesFrom stop).run_eq
  trivia _ := rounds_skipTrivia.run_eq (a := ())
  token lineBefore _ := (rounds_scanTokenFrom lineBefore).run_eq (a := ())

end Condense.Scanner
