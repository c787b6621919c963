import Condense.Proofs.Token.Stream
import Mathlib.Data.List.Chain

/-!
Pieces that spell tokens make a text that is scanned as these tokens, if each token may stand before the next.
-/

namespace Condense

open List

variable {t : Token}

/-- Whether the pieces are the given tokens with room in between. No line ends before `++` or `--`. -/
inductive Spells (inlineSafe : Bool) : List Piece → List Token → Prop
  | nil : Spells inlineSafe [] []
  | token {piece : Piece} {t : Token} {pieces : List Piece} {tokens : List Token} :
    piece.text = some (t.spelled inlineSafe) → Spells inlineSafe pieces tokens →
    Spells inlineSafe (piece :: pieces) (t :: tokens)
  | space {pieces : List Piece} {tokens : List Token} : Spells inlineSafe pieces tokens →
    Spells inlineSafe (.glued " " :: pieces) tokens
  | line {indentation : Nat} {t : Token} {pieces : List Piece} {tokens : List Token} : t.isUpdate = false →
    Spells inlineSafe pieces (t :: tokens) → Spells inlineSafe (.line indentation :: pieces) (t :: tokens)

namespace Spells

variable {inlineSafe : Bool} {pieces others : List Piece} {tokens rest : List Token}

theorem single {text : String} (same : t.spelled inlineSafe = text) : Spells inlineSafe [.token text] [t] :=
  .token (by rw [same]; rfl) .nil

theorem mark (p : Punctuator) : Spells inlineSafe [.token p.spelling] [.punctuator p] :=
  single rfl

theorem append (first : Spells inlineSafe pieces tokens) (second : Spells inlineSafe others rest) :
    Spells inlineSafe (pieces ++ others) (tokens ++ rest) := by
  induction first with
  | nil => exact second
  | token same _ ih => exact .token same ih
  | space _ ih => exact .space ih
  | line noUpdate _ ih => exact .line noUpdate ih

theorem isPlain (spells : Spells inlineSafe pieces tokens) : ∀ piece ∈ pieces, piece.isPlain := by
  induction spells with
  | nil => exact fun _ member => absurd member not_mem_nil
  | @token piece t pieces tokens same _ ih =>
    refine forall_mem_cons.mpr ⟨?_, ih⟩
    cases piece <;> first | rfl | cases same
  | space _ ih | line _ _ ih => exact forall_mem_cons.mpr ⟨rfl, ih⟩

end Spells

namespace Token

/-- Whether the second token may follow the first: their texts do not fuse without being set apart, and the second
is not taken for a regular expression. -/
structure Precedes (t u : Token) : Prop where
  apart : ∀ inlineSafe, ∀ last ∈ (t.spelled inlineSafe).toList.getLast?,
    ∀ first ∈ (u.spelled inlineSafe).toList.head?, fuses last first = true ∨ t.endsBefore first = true
  division : u.divides = true → t.allowsRegExpAfter = false

/-- What lengthens an operator belongs neither to words nor to the room between tokens. -/
theorem not_mem_extensions {c : Char} (other : isRoom c ∨ isIdStart c) (p : Punctuator) :
    c ∉ Scanner.extensions p := by
  have marks : ∀ q ∈ Scanner.operators, q.spelling.toList.all (fun c => !isRoom c && !isIdStart c) := by
    decide +kernel
  intro member
  obtain ⟨q, known, longer⟩ := mem_filterMap.mp member
  split at longer
  · have own := all_eq_true.mp (marks q known) c (mem_of_getElem? longer)
    rcases other with other | other <;> simp [other] at own
  · cases longer

/-- Room ends every token. -/
theorem endsBefore_room (t : Token) {c : Char} (room : isRoom c) : t.endsBefore c := by
  have blank : c = ' ' ∨ c = '\n' := by simpa [isRoom] using room
  have noWord : isWordChar c = false := by rcases blank with rfl | rfl <;> rfl
  cases t with
  | punctuator p =>
    have ends : (!(Scanner.extensions p).contains c) := by
      simpa using not_mem_extensions (.inl room) p
    cases p <;> first | exact ends | rcases blank with rfl | rfl <;> rfl
  | identifier | keyword => simp [endsBefore, noWord]
  | _ => rfl

end Token

theorem gap_all_isRoom (before : Option Char) (text : List Char) : (gap before text).all isRoom := by
  unfold gap
  split
  · split <;> rfl
  · rfl

theorem newline_not_mem_gap (before : Option Char) (text : List Char) : '\n' ∉ gap before text := by
  unfold gap
  split
  · split <;> simp
  · simp

namespace Spells

variable {inlineSafe : Bool} {pieces : List Piece} {tokens : List Token}

theorem laidOut_token {piece : Piece} (same : piece.text = some (t.spelled inlineSafe)) (plain : t.Plain)
    (before : Option Char) (pieces : List Piece) :
    laidOut before (piece :: pieces) = gap before (t.spelled inlineSafe).toList ++
      ((t.spelled inlineSafe).toList ++ laidOut (t.spelled inlineSafe).toList.getLast? pieces) := by
  have laid : piece.laid before = gap before (t.spelled inlineSafe).toList ++ (t.spelled inlineSafe).toList := by
    cases piece <;> cases same <;> rfl
  obtain ⟨last, ends⟩ : ∃ last, (t.spelled inlineSafe).toList.getLast? = some last :=
    ⟨_, getLast?_eq_some_getLast (plain.spelled_ne_nil inlineSafe)⟩
  rw [laidOut, laid, getLast?_append, ends, append_assoc]
  rfl

/-- A token ends where the text of what follows begins. -/
theorem endsBefore (spells : Spells inlineSafe pieces tokens) (plain : ∀ u ∈ tokens, u.Plain)
    (own : t.Plain) (precedes : ∀ u ∈ tokens.head?, t.Precedes u) :
    ∀ c ∈ (laidOut (t.spelled inlineSafe).toList.getLast? pieces).head?, t.endsBefore c := by
  obtain ⟨last, ends⟩ : ∃ last, (t.spelled inlineSafe).toList.getLast? = some last :=
    ⟨_, getLast?_eq_some_getLast (own.spelled_ne_nil inlineSafe)⟩
  intro c next
  cases spells with
  | nil => cases next
  | @token piece u pieces tokens same _ =>
    rw [laidOut_token same (plain u (.head _)), ends] at next
    cases spelled : (u.spelled inlineSafe).toList with
    | nil => exact absurd spelled ((plain u (.head _)).spelled_ne_nil inlineSafe)
    | cons first more =>
      rw [spelled] at next
      simp only [gap] at next
      split at next
      · obtain rfl : ' ' = c := by simpa using next
        exact t.endsBefore_room rfl
      · rename_i apart
        obtain rfl : first = c := by simpa using next
        exact ((precedes u rfl).apart inlineSafe last ends first (by rw [spelled]; rfl)).resolve_left apart
  | space _ =>
    obtain rfl : ' ' = c := by simpa [laidOut, Piece.laid] using next
    exact t.endsBefore_room rfl
  | line _ _ =>
    obtain rfl : '\n' = c := by simpa [laidOut, Piece.laid, ends] using next
    exact t.endsBefore_room rfl

/-- The text of pieces is scanned as the tokens that they spell. -/
theorem renders (spells : Spells inlineSafe pieces tokens) (plain : ∀ t ∈ tokens, t.Plain)
    (chain : tokens.IsChain Token.Precedes) {operand : Bool}
    (division : ∀ t ∈ tokens.head?, t.divides → operand = false) (before : Option Char) (room : List Char)
    (blank : room.all isRoom) (inLine : ∀ t ∈ tokens.head?, t.isUpdate → '\n' ∉ room) :
    Renders inlineSafe operand tokens (room ++ laidOut before pieces) := by
  induction spells generalizing operand before room with
  | nil =>
    rw [laidOut, append_nil]
    exact .nil blank
  | @token piece t pieces tokens same spells ih =>
    have own := plain t (.head _)
    have later : ∀ u ∈ tokens, u.Plain := fun u member => plain u (.tail _ member)
    obtain ⟨precedes, chain⟩ := isChain_cons.mp chain
    have rest := ih later chain (fun u next => (precedes u next).division) (t.spelled inlineSafe).toList.getLast? []
      rfl fun _ _ _ => not_mem_nil
    rw [laidOut_token same own, ← append_assoc]
    refine .cons ?_ own (division t rfl) ?_ (spells.endsBefore later own precedes) rest
    · simp [blank, gap_all_isRoom]
    · intro update
      simp [inLine t rfl update, newline_not_mem_gap]
  | space _ ih =>
    have more := ih plain chain division (some ' ') (room ++ [' ']) (by rw [all_append, blank]; rfl)
      fun t next update => by simpa using inLine t next update
    simpa [laidOut, Piece.laid] using more
  | @line indentation t pieces tokens noUpdate _ ih =>
    cases before with
    | none =>
      have more := ih plain chain division none room blank inLine
      simpa [laidOut, Piece.laid] using more
    | some last =>
      have noUpdate : ∀ u ∈ (t :: tokens).head?, u.isUpdate →
          '\n' ∉ room ++ '\n' :: List.replicate indentation ' ' := by
        rintro u next update
        obtain rfl : t = u := by simpa using next
        exact absurd update (by simp [noUpdate])
      have blank : (room ++ '\n' :: List.replicate indentation ' ').all isRoom := by
        rw [all_append, blank]
        simp [isRoom]
      have more := ih plain chain division (((Piece.line indentation).laid (some last)).getLast?.or (some last)) _ blank
        noUpdate
      simpa [laidOut, Piece.laid, append_assoc] using more

end Spells

end Condense
