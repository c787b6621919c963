import Mathlib.Data.Option.Basic
import Condense.Proofs.Decimal.Sign
import Condense.Proofs.Token.Literal

/-!
Scanning only ever moves forward, and never past the end of the text: whatever is scanned, the place afterwards is a
place of the same text that is not before the one it began at, and what is left still counts up to the whole with the
offset.
-/

set_option synthInstance.maxSize 512

namespace Condense

open List

variable {n : Nat} {p : Prop} {cursor : Cursor} {cs : List Char} (steps : Nat)

namespace Token

def isMarker : Token → Bool
  | marker _ => true
  | _ => false

def Unsigned : Token → Prop
  | number x => Condense.Unsigned x
  | _ => True

def isReplacement : Token → Bool
  | replacement .. => true
  | _ => false

/-- Whether a scan may answer with the token: it is not the end, no marker where none may come, and no number
with a sign. -/
structure Regular (calm plain : Prop) (t : Token) : Prop where
  inside : t.isEnd = false
  unmarked : calm → t.isMarker = false
  unsigned : t.Unsigned
  unreplaced : plain → t.isReplacement = false

/-- Whether the token may come everywhere. -/
def isOrdinary : Token → Bool
  | number _ | marker _ | replacement .. | endOfInput => false
  | _ => true

theorem regular_of_isOrdinary {t : Token} (ordinary : t.isOrdinary) (calm plain : Prop) :
    t.Regular calm plain := by
  cases t <;> first | (cases ordinary; done) | exact ⟨rfl, fun _ => rfl, trivial, fun _ => rfl⟩

theorem regular_number {x : Float} (unsigned : Condense.Unsigned x) (calm plain : Prop) :
    (number x).Regular calm plain :=
  ⟨rfl, fun _ => rfl, unsigned, fun _ => rfl⟩

end Token

/-- A condition that is true when it is worked out. -/
class Holds (condition : Bool) : Prop where
  holds : condition = true

instance : Holds true :=
  ⟨rfl⟩

/-- Whether the problem is another one than that the input ended. -/
@[reducible] def Problem.isInside : Problem → Bool
  | endOfInput => false
  | _ => true

/-- Those of some reports that say that the input ended. -/
def endings (reports : List Diagnostic) : List Diagnostic :=
  reports.filter (·.code == .unexpectedEndOfInput)

@[simp] theorem endings_append (first second : List Diagnostic) :
    endings (first ++ second) = endings first ++ endings second :=
  filter_append ..

theorem Problem.endings_of_isInside {problem : Problem} (inside : problem.isInside) (span : Span) :
    endings [problem.diagnostic span] = [] := by
  suffices problem.code ≠ .unexpectedEndOfInput by simpa [endings, diagnostic]
  cases problem with
  | endOfInput => cases inside
  | expected what =>
    cases what with
    | punctuator p => cases p <;> nofun
    | _ => nofun
  | undeclared type => cases type <;> nofun
  | _ => nofun

/-- Whether `stop` is a place of the same text as `start` that does not come before it. -/
structure Cursor.Leads (start stop : Cursor) : Prop where
  suffix : stop.rest <:+ start.rest
  total : stop.position.offset + stop.rest.length = start.position.offset + start.rest.length

/-- Whether `stop` is a later place of the same text than `start`. -/
structure Cursor.Passes (start stop : Cursor) : Prop extends Cursor.Leads start stop where
  fewer : stop.rest.length < start.rest.length

namespace Cursor

variable {start middle stop c : Cursor}

theorem Leads.refl (c : Cursor) : c.Leads c :=
  ⟨suffix_refl _, rfl⟩

theorem Leads.trans (first : start.Leads middle) (second : middle.Leads stop) : start.Leads stop :=
  ⟨second.suffix.trans first.suffix, second.total.trans first.total⟩

theorem Leads.length_le (leads : start.Leads stop) : stop.rest.length ≤ start.rest.length :=
  leads.suffix.length_le

theorem Passes.trans_leads (first : start.Passes middle) (second : middle.Leads stop) : start.Passes stop :=
  ⟨first.toLeads.trans second, Nat.lt_of_le_of_lt second.length_le first.fewer⟩

theorem Leads.trans_passes (first : start.Leads middle) (second : middle.Passes stop) : start.Passes stop :=
  ⟨first.trans second.toLeads, Nat.lt_of_lt_of_le second.fewer first.length_le⟩

theorem leads_skip (enough : n ≤ c.rest.length) : c.Leads (c.skip n) := by
  refine ⟨drop_suffix n c.rest, ?_⟩
  simp only [skip, length_drop]
  omega

theorem passes_skip (some : 0 < n) (enough : n ≤ c.rest.length) : c.Passes (c.skip n) := by
  refine ⟨leads_skip enough, ?_⟩
  simp only [skip, length_drop]
  omega

theorem passes_advance (more : c.rest ≠ []) : c.Passes c.advance :=
  passes_skip Nat.one_pos (length_pos_iff.2 more)

theorem leads_newLine (c : Cursor) : c.Leads c.newLine :=
  ⟨suffix_refl _, rfl⟩

theorem leads_drop (c : Cursor) (expected : Char) : c.Leads (c.drop expected) := by
  unfold drop eat?
  split
  · rename_i x rest ahead
    split
    · exact (passes_advance (by simp [ahead])).toLeads
    · exact Leads.refl c
  · exact Leads.refl c

theorem passes_advanceCounting (more : c.rest ≠ []) : c.Passes c.advanceCounting := by
  have one := passes_advance more
  unfold advanceCounting
  split
  · exact one.trans_leads ((leads_drop _ _).trans (leads_newLine _))
  · split
    · exact one.trans_leads (leads_newLine _)
    · exact one

/-- A backslash and the character behind it, which may end the line. -/
theorem passes_escaped [Decidable p] (more : c.rest ≠ []) (escaped : c.advance.rest ≠ []) :
    c.Passes (if p then c.advance.advance.newLine else c.advance.advance) := by
  have two := (passes_advance more).trans_leads (passes_advance escaped).toLeads
  split
  · exact two.trans_leads (leads_newLine _)
  · exact two

/-- At the end of the text the place shows NUL, so any other character is really there. -/
theorem rest_ne_nil_of_peek (other : c.peek ≠ '\x00') : c.rest ≠ [] := by
  intro empty
  simp [peek, empty] at other

theorem rest_ne_nil_of_atEnd (more : ¬c.atEnd) : c.rest ≠ [] := by
  intro empty
  simp [atEnd, empty] at more

theorem leads_passLineEnd (c : Cursor) : c.Leads c.passLineEnd := by
  unfold passLineEnd
  split
  · rename_i line
    apply (passes_advanceCounting (rest_ne_nil_of_peek _)).toLeads
    intro nul
    simp [nul, isLineTerminator] at line
  · exact Leads.refl c

theorem leads_takeWhile (c : Cursor) (p : Char → Bool) : c.Leads (c.takeWhile p).2 :=
  leads_skip ( takeWhile_prefix p).length_le

theorem leads_takeLine (c : Cursor) : c.Leads c.takeLine.2 :=
  leads_takeWhile c _

theorem passes_takeLine (more : c.rest ≠ []) (inLine : isLineTerminator c.peek = false) : c.Passes c.takeLine.2 := by
  apply passes_skip _ ( takeWhile_prefix _).length_le
  obtain ⟨x, rest, ahead⟩ := exists_cons_of_ne_nil more
  rw [peek_of_rest ahead] at inLine
  simp [ahead, inLine]

theorem takeLine_of_lineEnd (line : isLineTerminator c.peek) : c.takeLine.2 = c := by
  have none : c.rest.takeWhile (!isLineTerminator ·) = [] := by
    cases ahead : c.rest with
    | nil => rfl
    | cons x rest =>
      rw [peek_of_rest ahead] at line
      simp [line]
  simp [takeLine, takeWhile, none, skip]

/-- A whole line holds a character, if only the one that ends it. -/
theorem passes_line (more : c.rest ≠ []) : c.Passes c.takeLine.2.passLineEnd := by
  cases line : isLineTerminator c.peek with
  | true =>
    rw [takeLine_of_lineEnd line, passLineEnd, if_pos line]
    exact passes_advanceCounting more
  | false => exact (passes_takeLine more line).trans_leads (leads_passLineEnd _)

/-- A line behind blanks holds a character too, if only a blank. -/
theorem passes_skippedLine (p : Char → Bool) (more : c.rest ≠ []) :
    c.Passes (c.takeWhile p).2.takeLine.2.passLineEnd := by
  by_cases none : (c.takeWhile p).2.rest = []
  · have fewer : (c.takeWhile p).2.rest.length < c.rest.length := by
      rw [none]
      exact length_pos_iff.2 more
    apply Passes.trans_leads ⟨leads_takeWhile c p, fewer⟩
    exact (leads_takeLine _).trans (leads_passLineEnd _)
  · exact (leads_takeWhile c p).trans_passes (passes_line none)

theorem length_of_peekAt? {x : Char} (there : c.peekAt? n = some x) : n < c.rest.length :=
  (List.getElem?_eq_some_iff.1 there).1

end Cursor

namespace Scanner

open Cursor

variable {c : Cursor}

/-- Whether a scanner got from `s` to `t` by moving forward in its text, and reported no end of input. A `calm` scanner
does not get into a conditional comment on the way. -/
structure Onward (calm : Prop) (s t : Scanner) : Prop where
  leads : s.cursor.Leads t.cursor
  source : t.source = s.source
  settings : t.settings = s.settings
  lookahead : t.lookahead = s.lookahead
  outside : calm → s.inConditionalComment = false → t.inConditionalComment = false
  reports : ∃ more, endings more = [] ∧ t.diagnostics = s.diagnostics ++ more

variable {α β : Type} {calm plain : Prop} {s t u : Scanner} {post : α → Prop}

theorem Onward.trans (first : s.Onward calm t) (second : t.Onward calm u) : s.Onward calm u := by
  obtain ⟨more, inside, reports⟩ := first.reports
  obtain ⟨further, inside', reports'⟩ := second.reports
  refine ⟨first.leads.trans second.leads, second.source.trans first.source, second.settings.trans first.settings,
    second.lookahead.trans first.lookahead, fun asked before => second.outside asked (first.outside asked before),
    more ++ further, by simp [inside, inside'], ?_⟩
  rw [reports', reports, append_assoc]

/-- Most of a scanner may change while it moves forward. -/
theorem onward_moveTo {file : FileId} {nextFile : Nat} {newFiles defines : List String} {regExpAllowed : Bool}
    {braces : List Brace} {sections : List Section} (leads : s.cursor.Leads cursor) : s.Onward calm
      { s with cursor, file, nextFile, newFiles, defines, regExpAllowed, braces, sections } :=
  ⟨leads, rfl, rfl, rfl, fun _ => id, [], rfl, (append_nil _).symm⟩

theorem Onward.refl (s : Scanner) : s.Onward calm s :=
  onward_moveTo (.refl _)

/-- The scanner with other files met so far and another list of defined names. -/
def aside (s : Scanner) (files names : List String) : Scanner :=
  { s with newFiles := files, defines := names }

/-- Whether a list holds the names that are defined. -/
def Names (s : Scanner) (names : List String) : Prop :=
  ∀ name, name ∈ names ↔ name ∈ s.defines

/-- Whether a scan that is begun at `s` depends only on which names are defined. -/
def Apart (s : Scanner) (x : Scan α) : Prop :=
  ∀ files names, s.Names names → ∃ files' names',
    (x.run s).2.Names names' ∧ x.run (s.aside files names) = ((x.run s).1, (x.run s).2.aside files' names')

theorem apart_pure (a : α) : s.Apart (pure a) :=
  fun files names same => ⟨files, names, same, rfl⟩

theorem Apart.bind {x : Scan β} {f : β → Scan α} (first : s.Apart x) (second : (x.run s).2.Apart (f (x.run s).1)) :
    s.Apart (x >>= f) := by
  intro files names same
  obtain ⟨files, names, same, run⟩ := first files names same
  obtain ⟨files, names, same, run'⟩ := second files names same
  refine ⟨files, names, same, ?_⟩
  rw [run_bind, run]
  exact run'

/-- Whether a scan that is begun at `s` moves forward and answers as `post` says. -/
structure Gives (calm : Prop) (post : α → Prop) (s : Scanner) (x : Scan α) : Prop where
  onward : s.Onward calm (x.run s).2
  holds : post (x.run s).1
  apart : s.Apart x

/-- Whether it also takes at least one character. -/
structure Takes (calm : Prop) (post : α → Prop) (s : Scanner) (x : Scan α) : Prop extends Gives calm post s x where
  fewer : (x.run s).2.cursor.rest.length < s.cursor.rest.length

/-- Whether a scan that is begun at `s` moves forward. -/
abbrev Proceeds (calm : Prop) (s : Scanner) (x : Scan α) : Prop :=
  s.Gives calm (fun _ => True) x

/-- Whether it also answers with a regular token. -/
abbrev Answers (calm plain : Prop) (s : Scanner) (x : Scan Token) : Prop :=
  s.Gives calm (Token.Regular calm plain) x

/-- What a scan answers with is a regular token or none. -/
def Offer (calm plain : Prop) (found : Option Token) : Prop :=
  ∀ t ∈ found, t.Regular calm plain

/-- Whether a scan moves forward wherever it is begun. -/
class Forward (calm : Prop) (x : Scan α) : Prop where
  proceeds (s : Scanner) : s.Proceeds calm x

theorem gives_pure {a : α} (holds : post a) : s.Gives calm post (pure a) :=
  ⟨.refl s, holds, apart_pure a⟩

theorem Gives.then {x : Scan β} {f : β → Scan α} (first : s.Proceeds calm x) (second : ∀ b s, Gives calm post s (f b)) :
    s.Gives calm post (x >>= f) :=
  ⟨first.onward.trans (second _ _).onward, (second _ _).holds, first.apart.bind (second _ _).apart⟩

theorem gives_bind {x : Scan β} {f : β → Scan α} [forward : Forward calm x]
    (second : ∀ b s, Gives calm post s (f b)) : s.Gives calm post (x >>= f) :=
  (forward.proceeds s).then second

theorem gives_here {f : Cursor → Scan α} (next : s.Gives calm post (f s.cursor)) : s.Gives calm post (here >>= f) :=
  ⟨next.onward, next.holds, next.apart⟩

theorem gives_get {f : Scanner → Scan α} (same : ∀ files names, s.Names names → f (s.aside files names) = f s)
    (next : s.Gives calm post (f s)) : s.Gives calm post (get >>= f) := by
  refine ⟨next.onward, next.holds, fun files names defined => ?_⟩
  rw [run_bind, run_bind, run_get, run_get, same files names defined]
  exact next.apart files names defined

/-- A step that leaves the defined names alone and depends on nothing else that is set aside. -/
theorem gives_modifyGet {f : Scanner → α × Scanner} (onward : s.Onward calm (f s).2) (holds : post (f s).1)
    (names : (f s).2.defines = s.defines)
    (same : ∀ files names, f (s.aside files names) = ((f s).1, (f s).2.aside files names)) :
    s.Gives calm post (modifyGet f) :=
  ⟨onward, holds, fun files defined all => ⟨files, defined, fun name => names ▸ all name, same files defined⟩⟩

theorem gives_moveTo {f : Unit → Scan α} (leads : s.cursor.Leads cursor)
    (next : Gives calm post { s with cursor } (f ())) : s.Gives calm post (moveTo cursor >>= f) :=
  ⟨(onward_moveTo leads).trans next.onward, next.holds, next.apart⟩

theorem takes_here {f : Cursor → Scan α} (next : s.Takes calm post (f s.cursor)) : s.Takes calm post (here >>= f) :=
  ⟨gives_here next.toGives, next.fewer⟩

theorem takes_moveTo {f : Unit → Scan α} (passes : s.cursor.Passes cursor)
    (next : Gives calm post { s with cursor } (f ())) : s.Takes calm post (moveTo cursor >>= f) :=
  ⟨gives_moveTo passes.toLeads next, Nat.lt_of_le_of_lt next.onward.leads.length_le passes.fewer⟩

theorem takes_ite [Decidable p] {x y : Scan α} (yes : p → s.Takes calm post x) (no : ¬p → s.Takes calm post y) :
    s.Takes calm post (if p then x else y) := by
  split
  · exact yes ‹p›
  · exact no ‹¬p›

theorem answers_ordinary {t : Token} (ordinary : t.isOrdinary) : s.Answers calm plain (pure t) :=
  gives_pure (Token.regular_of_isOrdinary ordinary _ _)

theorem answers_map {x : Scan α} {f : α → Token} [Forward calm x] (ordinary : ∀ a, (f a).isOrdinary) :
    s.Answers calm plain (x >>= fun a => pure (f a)) :=
  gives_bind fun a _ => answers_ordinary (ordinary a)

theorem Gives.offers {x : Scan Token} (answers : s.Answers calm plain x) :
    s.Gives calm (Offer calm plain) (do return some (← x)) :=
  ⟨answers.onward, fun _ same => by cases same; exact answers.holds, answers.apart.bind (apart_pure _)⟩

theorem offers_none : s.Gives calm (Offer calm plain) (pure none) :=
  gives_pure fun _ none => by cases none

instance (a : α) : Forward calm (pure a : Scan α) :=
  ⟨fun _ => gives_pure trivial⟩

theorem forward_of_pure {x : Scan α} {a : α} (same : x = pure a) : Forward calm x :=
  same ▸ inferInstance

instance {x : Scan β} {f : β → Scan α} [Forward calm x] [second : ∀ b, Forward calm (f b)] : Forward calm (x >>= f) :=
  ⟨fun _ => gives_bind fun b => (second b).proceeds⟩

instance [Decidable p] {x y : Scan α} [yes : Forward calm x] [no : Forward calm y] :
    Forward calm (if p then x else y) := by
  split
  · exact yes
  · exact no

instance : Forward calm here :=
  ⟨fun s => ⟨.refl s, trivial, fun files names same => ⟨files, names, same, rfl⟩⟩⟩

instance (problem : Problem) (start : Position) [inside : Holds problem.isInside] :
    Forward calm (report problem start) := by
  refine ⟨fun s => gives_modifyGet ⟨.refl _, rfl, rfl, rfl, fun _ => id, [_], ?_, rfl⟩ trivial rfl fun _ _ => rfl⟩
  exact problem.endings_of_isInside inside.holds _

instance (expected : Char) : Forward calm (eat expected) := by
  refine ⟨fun s => gives_modifyGet ?_ trivial ?_ fun files names => ?_⟩
  · split
    · rename_i cursor found
      apply onward_moveTo
      have moved := s.cursor.leads_drop expected
      rwa [Cursor.drop, found] at moved
    · exact .refl s
  · split <;> rfl
  · dsimp only [aside]
    split <;> rfl

instance (p : Char → Bool) : Forward calm (takeWhile p) :=
  ⟨fun s => gives_modifyGet (onward_moveTo (s.cursor.leads_takeWhile p)) trivial rfl fun _ _ => rfl⟩

/-- A step over the next character, where there is one. -/
theorem proceeds_advance (more : s.cursor.rest ≠ []) : s.Proceeds calm advance :=
  gives_modifyGet (onward_moveTo (passes_advance more).toLeads) trivial rfl fun _ _ => rfl

/-- Whether two scans that are begun at `s` do the same, and move forward. -/
structure Agrees (calm : Prop) (s : Scanner) (x y : Scan α) : Prop where
  proceeds : s.Proceeds calm x
  same : x.run s = y.run s

theorem Gives.agrees {x : Scan α} (proceeds : s.Proceeds calm x) : s.Agrees calm x x :=
  ⟨proceeds, rfl⟩

theorem agrees_pure (a : α) : s.Agrees calm (pure a) (pure a) :=
  (Forward.proceeds s).agrees

theorem agrees_bind {x : Scan β} {f g : β → Scan α} (first : s.Proceeds calm x)
    (second : (x.run s).2.Agrees calm (f (x.run s).1) (g (x.run s).1)) : s.Agrees calm (x >>= f) (x >>= g) :=
  ⟨⟨first.onward.trans second.proceeds.onward, trivial, first.apart.bind second.proceeds.apart⟩, second.same⟩

theorem agrees_here {f g : Cursor → Scan α} (next : s.Agrees calm (f s.cursor) (g s.cursor)) :
    s.Agrees calm (here >>= f) (here >>= g) :=
  agrees_bind (Forward.proceeds s) next

theorem agrees_get {f g : Scanner → Scan α} (same : ∀ files names, s.Names names → f (s.aside files names) = f s)
    (next : s.Agrees calm (f s) (g s)) : s.Agrees calm (get >>= f) (get >>= g) :=
  ⟨gives_get same next.proceeds, next.same⟩

theorem agrees_moveTo {f g : Unit → Scan α} (leads : s.cursor.Leads cursor)
    (next : Agrees calm { s with cursor } (f ()) (g ())) : s.Agrees calm (moveTo cursor >>= f) (moveTo cursor >>= g) :=
  ⟨gives_moveTo leads next.proceeds, next.same⟩

theorem agrees_ite [Decidable p] {x x' y y' : Scan α} (yes : p → s.Agrees calm x x') (no : ¬p → s.Agrees calm y y') :
    s.Agrees calm (if p then x else y) (if p then x' else y') := by
  split
  · exact yes ‹p›
  · exact no ‹¬p›

/-- Whether a loop answers when it runs out of rounds, and each round takes a character before the next one: two rounds
agree if the loops do further on. -/
structure Rounds (calm : Prop) (loop : Nat → α → Scan β) : Prop where
  ends : ∀ a, Forward calm (loop 0 a)
  round : ∀ (n m : Nat) (s : Scanner) (a : α),
    (∀ b (t : Scanner), s.cursor.Passes t.cursor → t.Agrees calm (loop n b) (loop m b)) →
    s.Agrees calm (loop (n + 1) a) (loop (m + 1) a)

namespace Rounds

variable {loop : Nat → α → Scan β} (rounds : Rounds calm loop)

include rounds

theorem forward (a : α) : Forward calm (loop steps a) := by
  induction steps generalizing a with
  | zero => exact rounds.ends a
  | succ steps ih => exact ⟨fun s => (rounds.round steps steps s a fun b t _ => ((ih b).proceeds t).agrees).proceeds⟩

/-- More rounds than there are characters left change nothing. -/
theorem agrees {steps more : Nat} {a : α} (enough : s.cursor.rest.length < steps)
    (enough' : s.cursor.rest.length < more) : s.Agrees calm (loop steps a) (loop more a) := by
  induction steps generalizing more a s with
  | zero => omega
  | succ steps ih =>
    obtain ⟨more, rfl⟩ : ∃ n, more = n + 1 := ⟨more - 1, by omega⟩
    refine rounds.round steps more s a fun b t passes => ih ?_ ?_
    all_goals exact Nat.lt_of_lt_of_le passes.fewer (by omega)

end Rounds

instance (count : Nat) : Forward calm (scanHexDigits count) := by
  refine ⟨fun s => gives_here ?_⟩
  dsimp only
  split
  · rename_i digits
    simp only [Bool.and_eq_true, decide_eq_true_eq, length_take] at digits
    exact gives_moveTo (leads_skip (by omega)) (gives_pure trivial)
  · exact gives_pure trivial

theorem proceeds_scanUnicodeEscape (start : Position) (more : s.cursor.rest ≠ []) :
    s.Proceeds calm (scanUnicodeEscape start) := by
  refine (proceeds_advance more).then fun _ => Forward.proceeds

theorem rest_ne_nil_of_isDigitOf (c : Cursor) {radix : Nat} (digit : isDigitOf radix c.peek) : c.rest ≠ [] := by
  apply rest_ne_nil_of_peek
  intro nul
  rw [nul] at digit
  simp [isDigitOf] at digit

theorem rounds_scanOctal : Rounds calm scanOctal := by
  refine ⟨fun _ => forward_of_pure rfl, fun n m s code again => ?_⟩
  refine agrees_here (agrees_ite (fun digit => ?_) fun _ => agrees_pure _)
  rw [Bool.and_eq_true] at digit
  have more := rest_ne_nil_of_isDigitOf s.cursor digit.2
  exact agrees_bind (proceeds_advance more) (again _ _ (passes_advance more))

instance (code : Nat) : Forward calm (scanOctal steps code) :=
  rounds_scanOctal.forward steps code

/-- An escape is read from behind the backslash, where something follows. -/
theorem proceeds_scanStringEscape (more : s.cursor.rest ≠ []) : s.Proceeds calm scanStringEscape := by
  have one : s.cursor.Leads s.cursor.advance := (passes_advance more).toLeads
  have letter : ∀ chars : List Char, s.Proceeds calm (do moveTo (← here).advance; return chars) := by
    intro chars
    exact gives_here (gives_moveTo one (gives_pure trivial))
  apply gives_here
  apply gives_here
  split
  any_goals exact letter _
  · refine gives_here (gives_moveTo one (gives_bind fun decoded => ?_))
    split <;> exact Forward.proceeds
  · refine (proceeds_scanUnicodeEscape _ more).then fun decoded => ?_
    split <;> exact Forward.proceeds
  · split
    · exact gives_here (gives_moveTo one (Forward.proceeds _))
    · split
      · exact gives_here (gives_moveTo (passes_advanceCounting more).toLeads (gives_pure trivial))
      · exact letter _

theorem rounds_scanStringFrom (quote : Char) (start : Position) : Rounds calm (scanStringFrom quote start) := by
  refine ⟨fun _ => forward_of_pure rfl, fun n m s done again => ?_⟩
  refine agrees_here (agrees_ite (fun _ => Gives.agrees (Forward.proceeds s)) fun inside => ?_)
  have passes : s.cursor.Passes s.cursor.advance := passes_advance (rest_ne_nil_of_atEnd (by simp_all))
  refine agrees_ite (fun _ => Gives.agrees (gives_moveTo passes.toLeads (gives_pure trivial))) fun _ => ?_
  refine agrees_ite (fun _ => ?_) fun _ => agrees_moveTo passes.toLeads (again _ _ passes)
  refine agrees_moveTo passes.toLeads (agrees_ite (fun _ => again _ _ passes) fun escaped => ?_)
  have escape : Proceeds calm { s with cursor := s.cursor.advance } scanStringEscape :=
    proceeds_scanStringEscape (rest_ne_nil_of_atEnd escaped)
  exact agrees_bind escape (again _ _ (passes.trans_leads escape.onward.leads))

instance (quote : Char) (start : Position) (done : List Char) : Forward calm (scanStringFrom quote start steps done) :=
  (rounds_scanStringFrom quote start).forward steps done

theorem answers_scanString (quote : Char) (start : Position) : s.Answers calm plain (scanString quote start) :=
  gives_here (gives_bind fun _ _ => gives_get (fun _ _ _ => rfl) (answers_ordinary rfl))

theorem rounds_scanTemplateFrom (start : Position) : Rounds calm (scanTemplateFrom start) := by
  refine ⟨fun _ => forward_of_pure rfl, fun n m s done again => ?_⟩
  refine agrees_here (agrees_ite (fun _ => Gives.agrees (Forward.proceeds s)) fun inside => ?_)
  have more : s.cursor.rest ≠ [] := rest_ne_nil_of_atEnd inside
  have one := passes_advance more
  have counting := passes_advanceCounting more
  refine agrees_ite (fun _ => Gives.agrees (gives_moveTo one.toLeads (gives_pure trivial))) fun _ => ?_
  refine agrees_ite (fun opening => Gives.agrees ?_) fun _ => agrees_ite (fun _ => ?_) fun _ => ?_
  · have brace : s.cursor.advance.rest ≠ [] := rest_ne_nil_of_peek (by simp_all)
    apply gives_moveTo (one.toLeads.trans (passes_advance brace).toLeads)
    exact (gives_modifyGet (onward_moveTo (.refl _)) trivial rfl fun _ _ => rfl).then fun _ _ => gives_pure trivial
  · refine agrees_ite (fun _ => agrees_moveTo one.toLeads (again _ _ one)) fun escaped => ?_
    have two := passes_escaped (p := isLineTerminator s.cursor.advance.peek) more (rest_ne_nil_of_atEnd escaped)
    exact agrees_moveTo two.toLeads (again _ _ two)
  · refine agrees_ite (fun _ => ?_) fun _ => ?_
    all_goals exact agrees_moveTo counting.toLeads (again _ _ counting)

instance (start : Position) (done : List Char) : Forward calm (scanTemplateFrom start steps done) :=
  (rounds_scanTemplateFrom start).forward steps done

theorem answers_scanTemplate (start : Position) (isHead : Bool) : s.Answers calm plain (scanTemplate start isHead) := by
  refine gives_here (answers_map fun result => ?_)
  cases isHead <;> cases result.2 <;> rfl

theorem length_patternFrom {done pattern : List Char} {inClass : Bool}
    (found : patternFrom cs inClass done = some pattern) : pattern.length + 1 ≤ cs.length + done.length := by
  fun_induction patternFrom cs inClass done with
  | case1 | case2 | case4 => cases found
  | case3 inClass done c rest _ ih | case6 c rest inClass done _ _ _ ih =>
    have bound := ih found
    simp only [length_cons] at bound ⊢
    omega
  | case5 =>
    cases found
    simp only [length_cons]
    omega

theorem answers_scanRegExp (start : Position) : s.Answers calm plain (scanRegExp start) := by
  apply gives_here
  split
  · rename_i pattern found
    exact gives_moveTo (leads_skip (by simpa using length_patternFrom found)) (answers_map fun _ => rfl)
  · exact gives_moveTo (leads_takeLine _) (answers_map fun _ => rfl)

theorem length_decimalDigits (cs : List Char) : (decimalDigits cs).2 ≤ cs.length := by
  fun_induction decimalDigits cs with
  | case1 | case3 | case5 => exact Nat.zero_le _
  | case2 d rest _ digits n split ih | case4 c rest _ _ digits n split ih =>
    rw [split] at ih
    simp only [length_cons]
    omega

instance : Forward calm scanDecimalDigits :=
  ⟨fun _ => gives_here (gives_moveTo (leads_skip (length_decimalDigits _)) (gives_pure trivial))⟩

theorem answers_scanRadix (radix : Nat) (start : Cursor) (more : s.cursor.rest ≠ []) :
    s.Answers calm plain (scanRadix radix start) := by
  refine (proceeds_advance more).then fun _ s => gives_bind fun digits s => gives_bind fun isBig s => ?_
  split
  · exact answers_map fun _ => rfl
  · split
    · exact gives_bind fun _ _ => gives_pure (Token.regular_number (.ofScientific _ _ _) _ _)
    · exact gives_pure (Token.regular_number (unsigned_readRadix _ _) _ _)

instance : Forward calm scanExponent := by
  refine ⟨fun s => gives_here ?_⟩
  dsimp only
  split
  · -- The exponent's mark and sign are two characters or one; digits stand behind either.
    generalize (if (s.cursor.peekAt? 1 == some '+' || s.cursor.peekAt? 1 == some '-') = true then 2 else 1) = lead
    split
    · rename_i digits
      obtain ⟨c, there, -⟩ := (Option.any_eq_true _ _).1 digits
      exact gives_moveTo (leads_skip (Nat.le_of_lt (length_of_peekAt? there))) (Forward.proceeds _)
    · exact gives_pure trivial
  · exact gives_pure trivial

instance : Forward calm scanFraction := by
  refine ⟨fun s => gives_here ?_⟩
  split
  · have more : s.cursor.rest ≠ [] := rest_ne_nil_of_peek (by simp_all)
    exact (proceeds_advance more).then fun _ s => Forward.proceeds s
  · exact gives_pure trivial

theorem answers_scanDecimalEnd (start : Cursor) (whole fraction : List Char) :
    s.Answers calm plain (scanDecimalEnd start whole fraction) := by
  refine gives_bind fun exponent s => gives_here ?_
  have number : ∀ s : Scanner, s.Answers calm plain (pure (.number (readDecimal (whole ++ fraction ++ exponent)))) :=
    fun s => gives_pure (Token.regular_number (unsigned_readDecimal _) _ _)
  dsimp only
  split
  · rename_i big
    have more : s.cursor.rest ≠ [] := rest_ne_nil_of_peek (by simp_all)
    exact (proceeds_advance more).then fun _ _ => answers_ordinary rfl
  · apply gives_here
    split
    · exact gives_bind fun _ => number
    · exact number s

theorem answers_scanDecimal (first : Char) (start : Cursor) : s.Answers calm plain (scanDecimal first start) := by
  refine gives_bind fun digits s => ?_
  dsimp only
  split
  · exact gives_bind fun _ _ => answers_scanDecimalEnd _ _ _
  · exact gives_bind fun _ _ => answers_scanDecimalEnd _ _ _

theorem answers_scanNumber (first : Char) (start : Cursor) : s.Answers calm plain (scanNumber first start) := by
  apply gives_here
  dsimp only
  split
  · split
    · rename_i radix marked
      apply answers_scanRadix
      apply rest_ne_nil_of_peek
      intro nul
      rw [nul] at marked
      cases marked
    · split
      · refine gives_bind fun digits s => gives_pure (Token.regular_number ?_ _ _)
        split
        · exact unsigned_readRadix _ _
        · exact unsigned_readDecimal _
      · exact answers_scanDecimal _ _
  · exact answers_scanDecimal _ _

/-- Behind the backslash of a unicode escape stands its letter. -/
theorem escape_letter (escape : (decide (c.peek = '\\') && c.peekAt? 1 == some 'u')) :
    c.Passes c.advance ∧ c.advance.rest ≠ [] := by
  simp only [Bool.and_eq_true, decide_eq_true_eq, beq_iff_eq] at escape
  have enough := length_of_peekAt? escape.2
  constructor
  · exact passes_skip Nat.one_pos (Nat.le_of_lt enough)
  · apply ne_nil_of_length_pos
    simp only [Cursor.advance, Cursor.skip, length_drop]
    omega

theorem rounds_scanNameFrom : Rounds calm fun steps (name : List Char × Bool) => scanNameFrom steps name.1 name.2 := by
  refine ⟨fun _ => forward_of_pure rfl, fun n m s name again => ?_⟩
  refine agrees_here (agrees_ite (fun inside => ?_) fun _ => agrees_ite (fun escape => ?_) fun _ => ?_)
  · have passes : s.cursor.Passes s.cursor.advance := passes_advance (rest_ne_nil_of_atEnd (by simp_all))
    exact agrees_moveTo passes.toLeads (again (_, _) _ passes)
  · obtain ⟨passes, letter⟩ := escape_letter escape
    have decoding : Proceeds calm { s with cursor := s.cursor.advance } (scanUnicodeEscape s.cursor.position) :=
      proceeds_scanUnicodeEscape _ letter
    refine agrees_moveTo passes.toLeads (agrees_bind decoding ?_)
    split
    · exact again (_, _) _ (passes.trans_leads decoding.onward.leads)
    · exact agrees_pure _
  · exact agrees_pure _

instance (done : List Char) (escaped : Bool) : Forward calm (scanNameFrom steps done escaped) :=
  rounds_scanNameFrom.forward steps (done, escaped)

theorem answers_scanIdentifier (first : Char) (escaped : Bool) : s.Answers calm plain (scanIdentifier first escaped) := by
  refine gives_here (gives_bind fun name s => ?_)
  dsimp only
  split <;> exact answers_ordinary rfl

theorem rounds_passComment : Rounds calm fun steps (_ : Unit) => passComment steps := by
  refine ⟨fun _ => forward_of_pure rfl, fun n m s _ again => ?_⟩
  refine agrees_here (agrees_ite (fun _ => agrees_pure _) fun inside => ?_)
  refine agrees_ite (fun close => Gives.agrees ?_) fun _ => ?_
  · simp only [Bool.and_eq_true, decide_eq_true_eq, beq_iff_eq] at close
    exact gives_moveTo (leads_skip (length_of_peekAt? close.2)) (gives_pure trivial)
  · have passes := passes_advanceCounting (rest_ne_nil_of_atEnd inside)
    exact agrees_moveTo passes.toLeads (again () _ passes)

instance : Forward calm (passComment steps) :=
  rounds_passComment.forward steps ()

theorem answers_scanImportantComment (start : Cursor) : s.Answers calm plain (scanImportantComment start) := by
  refine gives_here (gives_bind fun closed s => ?_)
  split
  · exact answers_map fun _ => rfl
  · exact gives_bind fun _ _ => answers_map fun _ => rfl

theorem takes_skipBlockComment (opened : 2 ≤ s.cursor.rest.length) : s.Takes calm (fun _ => True) skipBlockComment :=
  takes_here (takes_here (takes_moveTo (passes_skip Nat.two_pos opened) (Forward.proceeds _)))

/-- A marker comes only where conditional comments are kept. -/
theorem answers_scanMarker (noisy : ¬calm) : s.Answers calm plain scanMarker := by
  have regular : ∀ mark : Marker, (Token.marker mark).Regular calm plain :=
    fun _ => ⟨rfl, fun asked => absurd asked noisy, trivial, fun _ => rfl⟩
  apply gives_here
  split
  · rename_i close
    simp only [Bool.and_eq_true, decide_eq_true_eq, beq_iff_eq] at close
    apply gives_moveTo (leads_skip (length_of_peekAt? close.2))
    exact (gives_modifyGet ⟨.refl _, rfl, rfl, rfl, fun _ _ => rfl, [], rfl, (append_nil _).symm⟩ trivial rfl
      fun _ _ => rfl).then fun _ _ => gives_pure (regular _)
  · exact gives_bind fun _ _ => gives_pure (regular _)

theorem length_replacementAt? {token : Token} {length : Nat}
    (found : replacementAt? cs = some (token, length)) : length ≤ cs.length := by
  have parts : ∀ text : List Char,
      (text.takeWhile isMarkerChar).length + (text.dropWhile isMarkerChar).length = text.length := by
    intro text
    rw [← length_append, takeWhile_append_dropWhile]
  have whole := parts cs
  simp only [replacementAt?, Option.bind_eq_bind, Option.bind_eq_some_iff] at found
  obtain ⟨first, -, -, -, found⟩ := found
  split at found
  · rename_i rest close
    simp only [Option.some.injEq, Prod.mk.injEq] at found
    simp only [close, length_cons] at whole
    omega
  · rename_i rest colon
    have inner := parts rest
    split at found
    · rename_i close
      simp only [Option.some.injEq, Prod.mk.injEq] at found
      simp only [colon, close, length_cons] at whole inner
      omega
    · cases found
  · cases found

theorem rounds_skipLinesFrom (stop : List String) : Rounds calm (skipLinesFrom stop) := by
  refine ⟨fun _ => forward_of_pure rfl, fun n m s depth again => ?_⟩
  refine agrees_here (agrees_ite (fun _ => agrees_pure _) fun inside => ?_)
  have passes := passes_skippedLine (fun c => c == ' ' || c == '\t') (rest_ne_nil_of_atEnd inside)
  refine agrees_moveTo passes.toLeads ?_
  split
  · refine agrees_ite (fun _ => again _ _ passes) fun _ => agrees_ite (fun _ => again _ _ passes) fun _ => ?_
    exact agrees_ite (fun _ => agrees_pure _) fun _ => again _ _ passes
  · exact again _ _ passes

instance (stop : List String) (depth : Nat) : Forward calm (skipLinesFrom stop steps depth) :=
  (rounds_skipLinesFrom stop).forward steps depth

instance (stop : List String) (start : Position) : Forward calm (skipLines stop start) :=
  ⟨fun _ => gives_here (gives_moveTo (leads_passLineEnd _) (Forward.proceeds _))⟩

instance (words : List String) : Forward calm (changeSource words) := by
  unfold changeSource
  split
  · split
    · split
      · refine ⟨fun s => gives_here ⟨onward_moveTo ?_, trivial, fun files names same => ⟨_, names, same, rfl⟩⟩⟩
        exact ⟨(leads_passLineEnd _).suffix, (leads_passLineEnd _).total⟩
      · infer_instance
    · infer_instance
  · infer_instance

instance (new : Section) : Forward calm (openSection new) :=
  ⟨fun _ => gives_modifyGet (onward_moveTo (.refl _)) trivial rfl fun _ _ => rfl⟩

instance (kind : Section) : Forward calm (closeSection kind) := by
  refine ⟨fun s => gives_modifyGet ?_ trivial ?_ fun files names => ?_⟩
  · split
    · split <;> exact onward_moveTo (.refl _)
    · exact .refl s
  · split
    · split <;> rfl
    · rfl
  · dsimp only [aside]
    split
    · split <;> rfl
    · rfl

theorem Names.contains {names : List String} (same : s.Names names) (name : String) :
    names.contains name = s.defines.contains name := by
  rw [Bool.eq_iff_iff, contains_iff_mem, contains_iff_mem]
  exact same name

theorem takes_processDirective (more : s.cursor.rest ≠ []) (inLine : isLineTerminator s.cursor.peek = false) :
    s.Takes calm (fun _ => True) processDirective := by
  have change (f : List String → List String)
      (same : ∀ names names' : List String, (∀ n, n ∈ names ↔ n ∈ names') → ∀ n, n ∈ f names ↔ n ∈ f names') :
      Forward calm (modify fun s => { s with defines := f s.defines } : Scan Unit) :=
    ⟨fun s => ⟨onward_moveTo (.refl _), trivial, fun files names all => ⟨files, f names, same names _ all, rfl⟩⟩⟩
  have define (name : String) := change (fun names => name :: names.filter (· != name)) fun _ _ same n => by simp [same n]
  have undefine (name : String) := change (·.filter (· != name)) fun _ _ same n => by simp [same n]
  have conditional (name : String) (wanted : Bool) : Forward calm (do
      if (← get).defines.contains name == wanted then openSection .conditional
      else if (← skipLines ["ELSE", "ENDIF"] s.cursor.position) == some "ELSE" then openSection .conditional) := by
    refine ⟨fun s => gives_get (fun files names same => ?_) (Forward.proceeds s)⟩
    dsimp only [aside]
    rw [same.contains]
  refine takes_here (takes_here (takes_moveTo (passes_takeLine more inLine) (gives_get (fun _ _ _ => rfl) ?_)))
  exact Forward.proceeds _

theorem two_le_of_comment {x y : Char} (opens : (decide (c.peek = x) && c.peekAt? 1 == some y)) :
    2 ≤ c.rest.length := by
  simp only [Bool.and_eq_true, beq_iff_eq] at opens
  exact length_of_peekAt? opens.2

theorem rounds_skipTrivia : Rounds calm fun steps (_ : Unit) => skipTrivia steps := by
  refine ⟨fun _ => forward_of_pure rfl, fun n m s _ again => ?_⟩
  have behind {x : Scan Unit} (takes : s.Takes calm (fun _ => True) x) :
      s.Agrees calm (x >>= fun _ => skipTrivia n) (x >>= fun _ => skipTrivia m) :=
    agrees_bind takes.toGives (again () _ ⟨takes.onward.leads, takes.fewer⟩)
  have moved {cursor : Cursor} (passes : s.cursor.Passes cursor) :
      s.Agrees calm (moveTo cursor >>= fun _ => skipTrivia n) (moveTo cursor >>= fun _ => skipTrivia m) :=
    agrees_moveTo passes.toLeads (again () _ passes)
  refine agrees_here (agrees_ite (fun _ => agrees_pure _) fun inside => ?_)
  have more : s.cursor.rest ≠ [] := rest_ne_nil_of_atEnd inside
  refine agrees_ite (fun _ => moved (passes_advance more)) fun _ => ?_
  refine agrees_ite (fun _ => moved (passes_advanceCounting more)) fun inLine => ?_
  have inLine : isLineTerminator s.cursor.peek = false := by simpa using inLine
  refine agrees_ite (fun _ => ?_) fun _ => agrees_ite (fun opens => ?_) fun _ => agrees_pure _
  · refine agrees_ite (fun _ => behind (takes_processDirective more inLine)) fun _ => ?_
    exact moved (passes_takeLine more inLine)
  · have skipped := behind (takes_skipBlockComment (two_le_of_comment opens))
    exact agrees_get (fun _ _ _ => rfl) (agrees_ite (fun _ => agrees_pure _) fun _ => skipped)

instance : Forward calm (skipTrivia steps) :=
  rounds_skipTrivia.forward steps ()

/-- Whether a text starts with the mark of a conditional comment. -/
def opensConditional (cs : List Char) : Bool :=
  ['/', '*', '@'].isPrefixOf cs

theorem opensConditional_of_peek (slash : c.peek = '/') (star : c.advance.peek = '*')
    (mark : c.advance.advance.peek = '@') : opensConditional c.rest := by
  obtain ⟨rest, position, passedLine⟩ := c
  cases rest with
  | nil => cases slash
  | cons first rest =>
    cases rest with
    | nil => cases star
    | cons second rest =>
      cases rest with
      | nil => cases mark
      | cons third rest =>
        cases (slash : first = '/')
        cases (star : second = '*')
        cases (mark : third = '@')
        rfl

theorem answers_scanRatio (mark assigning : Punctuator) : s.Answers calm plain (scanRatio mark assigning) := by
  refine gives_bind fun assigns s => ?_
  split <;> exact answers_ordinary rfl

/-- A slash starts a marker only before a star and an at sign. -/
theorem answers_scanSlash (start : Cursor) (quiet : calm → s.cursor.peek = '*' → s.cursor.advance.peek ≠ '@') :
    s.Answers calm plain (scanSlash start) := by
  apply gives_get fun _ _ _ => rfl
  split
  · rename_i star
    have more : s.cursor.rest ≠ [] := rest_ne_nil_of_peek (by simp_all)
    apply gives_moveTo (passes_advance more).toLeads
    split
    · rename_i mark
      have noisy : ¬calm := fun asked => quiet asked star mark
      exact (gives_modifyGet ⟨.refl _, rfl, rfl, rfl, fun asked => absurd asked noisy, [], rfl, (append_nil _).symm⟩
        trivial rfl fun _ _ => rfl).then fun _ _ =>
          gives_pure ⟨rfl, fun asked => absurd asked noisy, trivial, fun _ => rfl⟩
    · exact answers_scanImportantComment _
  · split
    · exact answers_scanRegExp _
    · exact answers_scanRatio _ _

/-- Whether a text has no replacement marker, not even where a percent sign is an operator. -/
def MarkerFree (cs : List Char) : Prop :=
  ∀ after, '%' :: after <:+ cs → replacementAt? after = none

theorem MarkerFree.suffix {rest : List Char} (free : MarkerFree cs) (suffix : rest <:+ cs) : MarkerFree rest :=
  fun after percent => free after (percent.trans suffix)

theorem regular_replacementAt? {token : Token} {length : Nat} (marked : ¬plain)
    (found : replacementAt? cs = some (token, length)) : token.Regular calm plain := by
  simp only [replacementAt?, Option.bind_eq_bind, Option.bind_eq_some_iff] at found
  obtain ⟨first, -, -, -, found⟩ := found
  split at found
  · cases found
    exact ⟨rfl, fun _ => rfl, trivial, fun asked => absurd asked marked⟩
  · split at found
    · cases found
      exact ⟨rfl, fun _ => rfl, trivial, fun asked => absurd asked marked⟩
    · cases found
  · cases found

theorem answers_scanPercent (free : plain → replacementAt? s.cursor.rest = none) :
    s.Answers calm plain scanPercent := by
  apply gives_get fun _ _ _ => rfl
  split
  · rename_i token length marker
    split at marker
    · apply gives_moveTo (leads_skip (length_replacementAt? marker))
      apply gives_pure (regular_replacementAt? _ marker)
      intro asked
      rw [free asked] at marker
      cases marker
    · cases marker
  · exact answers_scanRatio _ _

theorem length_operatorAt? {p : Punctuator} (found : operatorAt? cs = some p) :
    0 < p.spelling.length ∧ p.spelling.length ≤ cs.length := by
  have spelled : ∀ q, (operators.find? fun q => q.spelling.toList.isPrefixOf cs) = some q →
      0 < q.spelling.length ∧ q.spelling.length ≤ cs.length := by
    intro q first
    have starts := find?_some (p := fun q : Punctuator => q.spelling.toList.isPrefixOf cs) first
    have ahead := ( isPrefixOf_iff_prefix.1 starts).length_le
    constructor
    · cases q <;> decide
    · rwa [String.length_toList] at ahead
  unfold operatorAt? at found
  dsimp only at found
  split at found
  · rename_i chain
    simp only [Bool.and_eq_true, decide_eq_true_eq] at chain
    have two := (spelled _ chain.1).2
    cases found
    exact ⟨by decide, Nat.le_trans (by decide) two⟩
  · exact spelled p found

/-- A choice that does not depend on the scanner is made before the scanner is read. -/
theorem get_ite [Decidable p] (x y : Scanner → Scan α) :
    (get >>= fun s => if p then x s else y s) = if p then get >>= x else get >>= y := by
  split <;> rfl

theorem takes_brace (braces : List Brace → List Brace) (f : List Brace → Scan α) (passes : s.cursor.Passes cursor)
    (next : Gives calm post { s with cursor, braces := braces s.braces } (f s.braces)) :
    s.Takes calm post (do let s ← get; set { s with cursor, braces := braces s.braces }; f s.braces) :=
  ⟨⟨(onward_moveTo passes.toLeads).trans next.onward, next.holds, next.apart⟩,
    Nat.lt_of_le_of_lt next.onward.leads.length_le passes.fewer⟩

/-- A token that starts with the next character, or another one. -/
theorem takes_start [Decidable p] {x : Unit → Scan α} {y : Scan α} (passes : s.cursor.Passes cursor)
    (yes : p → Gives calm post { s with cursor } (x ())) (no : ¬p → s.Takes calm post y) :
    s.Takes calm post (if p then moveTo cursor >>= x else y) :=
  takes_ite (fun holds => takes_moveTo passes (yes holds)) no

/-- Whatever a token starts with is taken. It decides on the token's kind, which is never the end. -/
theorem takes_scanSignificant (more : s.cursor.rest ≠ []) (quiet : calm → opensConditional s.cursor.rest = false)
    (outside : calm → s.inConditionalComment = false) (free : plain → MarkerFree s.cursor.rest) :
    s.Takes calm (Offer calm plain) (scanSignificant s.cursor) := by
  have passes := passes_advance more
  dsimp only [scanSignificant]
  rw [get_ite]
  refine takes_ite (fun _ => ?_) fun _ => ?_
  · exact takes_brace (.block :: ·) (fun _ => pure _) passes (answers_ordinary rfl).offers
  rw [get_ite]
  refine takes_ite (fun _ => ?_) fun _ => ?_
  · refine takes_brace tail (fun braces => if braces.head? = some .template then _ else _) passes ?_
    split
    · exact (answers_scanTemplate _ _).offers
    · exact (answers_ordinary rfl).offers
  suffices s.Takes calm (Offer calm plain) _ from ⟨gives_get (fun _ _ _ => rfl) this.toGives, this.fewer⟩
  refine takes_start passes (fun slash => (answers_scanSlash _ ?_).offers) fun _ => ?_
  · intro asked star mark
    rw [opensConditional_of_peek slash star mark] at quiet
    cases quiet asked
  refine takes_start passes (fun percent => (answers_scanPercent ?_).offers) fun _ => ?_
  · intro asked
    apply free asked
    have first : s.cursor.rest = '%' :: s.cursor.advance.rest := by
      cases text : s.cursor.rest with
      | nil => simp [Cursor.peek, text] at percent
      | cons c rest =>
        rw [Cursor.peek, text] at percent
        rw [← percent]
        simp [Cursor.advance, Cursor.skip, text]
    exact first ▸ suffix_refl _
  refine takes_start passes (fun marker => (answers_scanMarker ?_).offers) fun _ => ?_
  · intro asked
    rw [outside asked] at marker
    simp at marker
  refine takes_start passes (fun _ => (answers_scanTemplate _ _).offers) fun _ => ?_
  refine takes_start passes (fun _ => (answers_scanString _ _).offers) fun _ => ?_
  refine takes_start passes (fun _ => (answers_scanNumber _ _).offers) fun _ => ?_
  refine takes_start passes (fun _ => (answers_scanIdentifier _ _).offers) fun _ => ?_
  refine takes_start passes (fun escape => ?_) fun _ => ?_
  · have letter : s.cursor.advance.rest ≠ [] := rest_ne_nil_of_peek (by simp_all)
    refine (proceeds_scanUnicodeEscape _ letter).then fun decoded s => ?_
    split
    · exact (answers_scanIdentifier _ _).offers
    · exact offers_none
  refine takes_start passes (fun _ => gives_bind fun name s => ?_) fun _ => ?_
  · split
    · exact gives_bind fun _ _ => offers_none
    · exact (answers_ordinary rfl).offers
  split
  · rename_i p found
    have bounds := length_operatorAt? found
    exact takes_moveTo (passes_skip bounds.1 bounds.2) (answers_ordinary rfl).offers
  · exact takes_moveTo passes (gives_bind fun _ _ => offers_none)

instance (token : Token) (start : Cursor) (newlineBefore : Bool) :
    Forward calm (finishToken token start newlineBefore) :=
  ⟨fun _ => gives_modifyGet (onward_moveTo (.refl _)) trivial rfl fun _ _ => rfl⟩

instance : Forward calm closeAtEnd := by
  refine ⟨fun s => gives_get (fun _ _ _ => rfl) ?_⟩
  split
  · exact gives_pure trivial
  · have (sections : List Section) : Forward calm (modify fun s => { s with sections } : Scan Unit) :=
      ⟨fun _ => gives_modifyGet (onward_moveTo (.refl _)) trivial rfl fun _ _ => rfl⟩
    dsimp only
    exact Forward.proceeds s

end Scanner

end Condense
