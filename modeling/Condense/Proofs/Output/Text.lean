import Condense.Output.Emission

/-!
The text that pieces make: one token after the other, with a space only where two would fuse or where room is asked
for.
-/

namespace Condense

open List

/-- The text of a word, a punctuator or a string literal. -/
def Token.spelled (inlineSafe : Bool) : Token → String
  | identifier name _ => name
  | keyword word => word.spelling
  | punctuator mark => mark.spelling
  | string value => Quoted.literal value inlineSafe
  | _ => ""

/-- The space that keeps a text apart from the character before it. -/
def gap (before : Option Char) (text : List Char) : List Char :=
  match before, text with
  | some last, first :: _ => if fuses last first then [' '] else []
  | _, _ => []

namespace Piece

def text : Piece → Option String
  | token text | mapped text _ _ => some text
  | _ => none

def isPlain : Piece → Bool
  | token _ | mapped .. | glued _ | line _ => true
  | _ => false

def laid (before : Option Char) : Piece → List Char
  | token text | mapped text _ _ => gap before text.toList ++ text.toList
  | glued text => text.toList
  | line indentation => if before.isNone then [] else '\n' :: List.replicate indentation ' '
  | _ => []

end Piece

def laidOut : Option Char → List Piece → List Char
  | _, [] => []
  | before, piece :: rest => piece.laid before ++ laidOut ((piece.laid before).getLast?.or before) rest

namespace Written

theorem pushChar_reversed (w : Written) (c : Char) : (w.pushChar c).reversed = c :: w.reversed := by
  unfold pushChar
  split <;> rfl

theorem push_reversed (w : Written) (text : String) : (w.push text).reversed = text.toList.reverse ++ w.reversed := by
  unfold push
  induction text.toList generalizing w with
  | nil => rfl
  | cons c rest ih => simp [foldl_cons, ih, pushChar_reversed]

theorem separate_reversed (w : Written) (text : String) :
    (w.separate text).reversed = (gap w.reversed.head? text.toList).reverse ++ w.reversed := by
  unfold separate gap
  cases written : w.reversed with
  | nil => simp [written]
  | cons last before =>
    cases text.toList with
    | nil => simp [written]
    | cons first rest =>
      simp only [head?_cons]
      split
      · simp [pushChar_reversed, written]
      · simp [written]

theorem newLine_reversed (w : Written) (indentation : Nat) :
    (w.newLine indentation).reversed = ((Piece.line indentation).laid w.reversed.head?).reverse ++ w.reversed := by
  have spaces : ("".pushn ' ' indentation).toList = List.replicate indentation ' ' := by
    induction indentation with
    | zero => rfl
    | succ n ih =>
      have more : "".pushn ' ' (n + 1) = ("".pushn ' ' n).push ' ' := rfl
      rw [more, String.toList_push, ih, replicate_succ']
  unfold newLine Piece.laid
  cases written : w.reversed with
  | nil => simp [written]
  | cons last before => simp [push_reversed, pushChar_reversed, spaces, written]

theorem add_reversed (options : WriterOptions) (w : Written) {piece : Piece} (plain : piece.isPlain) :
    (w.add options piece).reversed = (piece.laid w.reversed.head?).reverse ++ w.reversed := by
  cases piece with
  | token text => simp [add, token, push_reversed, separate_reversed, Piece.laid]
  | glued text => simp [add, push_reversed, Piece.laid]
  | mapped text node name =>
    simp only [add, push_reversed, Piece.laid]
    split <;> simp [record, separate_reversed]
  | line indentation => exact newLine_reversed w indentation
  | _ => cases plain

theorem addAll_reversed (options : WriterOptions) (w : Written) {pieces : List Piece}
    (plain : ∀ piece ∈ pieces, piece.isPlain) :
    (w.addAll options pieces).reversed.reverse = w.reversed.reverse ++ laidOut w.reversed.head? pieces := by
  induction pieces generalizing w with
  | nil => simp [addAll, laidOut]
  | cons piece rest ih =>
    have added := add_reversed options w (plain piece (.head _))
    have last : (w.add options piece).reversed.head? =
        (piece.laid w.reversed.head?).getLast?.or w.reversed.head? := by
      rw [added, head?_append, head?_reverse]
    rw [addAll, ih _ fun other member => plain other (.tail _ member), last, added, laidOut]
    simp

end Written

/-- The text of a program is that of its statements, with a semicolon behind the last where that is asked for. -/
theorem emitCode_code (c : Style) {root : NodeId} {ids : List NodeId} {scope : ScopeId} {pieces : List Piece}
    {isOpen : Bool} (form : c.tree.form root = .program ids scope)
    (printed : (Printer.ofTree c.tree).statements c false false (c.visible ids) = (pieces, isOpen))
    (plain : ∀ piece ∈ pieces, piece.isPlain) :
    (emitCode c [root]).code = String.ofList (laidOut none
      (pieces ++ if isOpen && (c.settings.termSemicolons || c.isPretty) then [.token ";"] else [])) := by
  have listed : c.tree.statements root = ids := by simp [Tree.statements, form, Form.statementList?]
  obtain ⟨first, drops, plainFirst, chunks⟩ : ∃ first, (∀ rest, laidOut none (first ++ rest) = laidOut none rest) ∧
      (∀ piece ∈ first, piece.isPlain) ∧
      (Printer.ofTree c.tree).chunks c false [c.visible ids] = (first ++ pieces, isOpen) := by
    rw [Printer.chunks]
    split
    · rename_i none
      rw [isEmpty_iff.mp none] at printed
      cases printed
      exact ⟨[], fun _ => rfl, fun _ member => absurd member not_mem_nil, rfl⟩
    · refine ⟨c.newLine, ?_, ?_, by simp [printed, Printer.chunks, Printer.after]⟩
      all_goals
        unfold Style.newLine
        split <;> simp [laidOut, Piece.laid, Piece.isPlain]
  generalize lastly : (if isOpen && (c.settings.termSemicolons || c.isPretty) then [Piece.token ";"] else []) = last
  have plainLast : ∀ piece ∈ last, piece.isPlain := by
    rw [← lastly]
    split <;> simp [Piece.isPlain]
  have plainAll : ∀ piece ∈ first ++ pieces ++ last, piece.isPlain := by
    simp only [mem_append, or_imp, forall_and]
    exact ⟨⟨plainFirst, plain⟩, plainLast⟩
  simp only [emitCode, map_singleton, listed, chunks, lastly]
  rw [Written.code, Written.addAll_reversed _ _ plainAll, append_assoc]
  exact congrArg String.ofList (drops _)

end Condense
