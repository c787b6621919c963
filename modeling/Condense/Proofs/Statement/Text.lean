import Condense.Proofs.Expression.Phrase
import Condense.Proofs.Statement.Syntax

/-!
How a statement is written: which of its braces are left out or set anew, and the tokens of the statement that is
left.
-/

namespace Condense

open List

variable {pretty isBody : Bool} {items : List Stmt} {s : Stmt}

namespace Token

/-- Words, and the marks that make up statements together with them. -/
def isSeparate : Token → Bool
  | identifier .. | keyword _ | punctuator .lParen | punctuator .rParen | punctuator .lBrace | punctuator .rBrace
  | punctuator .comma | punctuator .colon | punctuator .semicolon => true
  | _ => false

/-- These tokens may stand in any order. -/
theorem precedes_of_isSeparate {t u : Token} (plain : t.Plain) (separate : t.isSeparate)
    (separate' : u.isSeparate) : t.Precedes u := by
  refine ⟨fun inlineSafe last ends first _ => ?_, fun divides => ?_⟩
  · cases t with
    | identifier name escaped => exact apart_of_isWord plain.1 ends first
    | keyword word => exact apart_of_isWord (Scanner.isWord_spelling word) ends first
    | punctuator p =>
      have alone : ∀ p ∈ [Punctuator.lParen, .rParen, .lBrace, .rBrace, .comma, .colon, .semicolon],
          Scanner.extensions p = [] := by
        decide +kernel
      have none : Scanner.extensions p = [] := by
        refine alone p ?_
        cases p <;> first | (cases separate; done) | decide
      right
      cases p <;> first | (cases separate; done) | simp [endsBefore, none]
    | _ => cases separate
  · unfold Token.divides at divides
    split at divides <;> first | cases separate' | cases divides

/-- The tokens that a statement without a declaration can start with. -/
def starts : Token → Bool
  | identifier .. | punctuator .lBrace | punctuator .semicolon | keyword .if | keyword .for | keyword .while
  | keyword .do | keyword .debugger => true
  | _ => false

end Token

namespace Stmt

mutual

/-- Whether the statement ends in an `if` without `else`, braces that may be left out aside. -/
def endsOpen : Stmt → Bool
  | ifThen .. => true
  | ifElse _ _ alternate => alternate.endsOpen
  | whileLoop _ body | forLoop _ _ _ body | labeled _ body => body.endsOpen
  | block items => endsOpenAlone items
  | expression _ | empty | debugger | doWhile .. => false

def endsOpenAlone : List Stmt → Bool
  | [] => false
  | s :: rest => if s.isEmpty then endsOpenAlone rest else s.endsOpen && rest.all isEmpty

end

/-- The statement in braces, unless it has its own. -/
def braced : Stmt → Stmt
  | block items => block items
  | s => block [s]

mutual

/-- The statement as it is written. On one line the body of a branch or a loop goes without braces if it is a single
statement, except where it would take up the `else` of the branch around it. -/
def shown (pretty isBody : Bool) : Stmt → Stmt
  | expression e => expression e
  | empty => empty
  | debugger => debugger
  | block items =>
    if isBody && !pretty then
      match shownAll pretty items with
      | [] => empty
      | [only] => only
      | all => block all
    else block (shownAll pretty items)
  | ifThen test body => ifThen test (body.shown pretty true)
  | ifElse test consequent alternate =>
    ifElse test
      (if consequent.endsOpen then braced (consequent.shown pretty false) else consequent.shown pretty true)
      (alternate.shown pretty true)
  | whileLoop test body => whileLoop test (body.shown pretty true)
  | doWhile body test => doWhile (body.shown pretty true) test
  | forLoop init test step body => forLoop init test step (body.shown pretty true)
  | labeled label body => labeled label (body.shown pretty false)

def shownAll (pretty : Bool) : List Stmt → List Stmt
  | [] => []
  | s :: rest => if s.isEmpty then shownAll pretty rest else s.shown pretty false :: shownAll pretty rest

end

/-- The statements that are written. -/
def visible (items : List Stmt) : List Stmt :=
  items.filter fun s => !s.isEmpty

theorem shownAll_eq (pretty : Bool) (items : List Stmt) : shownAll pretty items = (visible items).map (shown pretty false) := by
  induction items with
  | nil => rfl
  | cons s rest ih => cases empty : s.isEmpty <;> simp [shownAll, visible, empty, ih]

theorem mem_shownAll {item : Stmt} (member : item ∈ shownAll pretty items) :
    ∃ original ∈ items, original.isEmpty = false ∧ item = original.shown pretty false := by
  rw [shownAll_eq] at member
  obtain ⟨original, kept, rfl⟩ := mem_map.mp member
  obtain ⟨inside, visible⟩ := mem_filter.mp kept
  exact ⟨original, inside, by simpa using visible, rfl⟩

theorem endsOpenAlone_eq (items : List Stmt) : endsOpenAlone items = match visible items with
    | [only] => only.endsOpen
    | _ => false := by
  induction items with
  | nil => rfl
  | cons s rest ih =>
    cases empty : s.isEmpty with
    | true => simpa [endsOpenAlone, visible, empty] using ih
    | false =>
      have none : rest.all isEmpty = (visible rest).isEmpty := by
        rw [Bool.eq_iff_iff]
        simp [visible]
      have here : visible (s :: rest) = s :: visible rest := by simp [visible, empty]
      rw [endsOpenAlone, if_neg (by simp [empty]), none, here]
      cases visible rest <;> simp

theorem isEmpty_shown (pretty : Bool) (s : Stmt) : (s.shown pretty false).isEmpty = s.isEmpty := by
  cases s <;> rfl

theorem normal_braced (s : Stmt) : (braced s).normal true = s.normal true := by
  cases s <;> rfl

theorem normalAll_shownAll (each : ∀ item ∈ items, (item.shown pretty false).normal isBody = item.normal isBody) :
    normalAll isBody (shownAll pretty items) = normalAll isBody items := by
  induction items with
  | nil => rfl
  | cons s rest ih =>
    have rest := ih fun item member => each item (.tail _ member)
    cases empty : s.isEmpty with
    | true => simpa [shownAll, normalAll, empty] using rest
    | false => simp [shownAll, normalAll, empty, isEmpty_shown, rest, each s (.head _)]

/-- A statement that is written has the normal form of the statement that it is written for. -/
theorem normal_shown (pretty : Bool) (s : Stmt) :
    (∀ isBody, (s.shown pretty false).normal isBody = s.normal isBody) ∧
      (s.shown pretty true).normal true = s.normal true := by
  induction s with
  | expression e | empty | debugger => exact ⟨fun _ => rfl, rfl⟩
  | block items ih =>
    have all (isBody : Bool) : normalAll isBody (shownAll pretty items) = normalAll isBody items :=
      normalAll_shownAll fun item member => (ih item member).1 isBody
    have same (isBody : Bool) : (block (shownAll pretty items)).normal isBody = (block items).normal isBody := by
      rw [normal, normal, all, all]
    refine ⟨same, ?_⟩
    have whole := all true
    rw [shown]
    split
    · split
      · rename_i none
        rw [none] at whole
        simp [normal, ← whole, normalAll]
      · rename_i only alone
        have some : only.isEmpty = false := by
          obtain ⟨item, -, some, rfl⟩ := mem_shownAll (by rw [alone]; exact (.head _))
          rw [isEmpty_shown, some]
        rw [alone] at whole
        simp [normal, ← whole, normalAll, some]
      · exact same true
    · exact same true
  | ifThen test body ih | whileLoop test body ih | doWhile body test ih | forLoop init test step body ih =>
    exact ⟨fun _ => by rw [shown, normal, normal, ih.2], by rw [shown, normal, normal, ih.2]⟩
  | ifElse test consequent alternate ihConsequent ihAlternate =>
    have same (isBody isBody' : Bool) : ((ifElse test consequent alternate).shown pretty isBody).normal isBody' =
        (ifElse test consequent alternate).normal isBody' := by
      rw [shown, normal, normal, ihAlternate.2]
      split
      · rw [normal_braced, ihConsequent.1]
      · rw [ihConsequent.2]
    exact ⟨same false, same true true⟩
  | labeled label body ih => exact ⟨fun _ => by rw [shown, normal, normal, ih.1], by rw [shown, normal, normal, ih.1]⟩

/-- Whether an `else` behind the statement would be taken for that of an `if` in it. -/
def dangling : Stmt → Bool
  | ifThen .. => true
  | ifElse _ _ alternate => alternate.dangling
  | whileLoop _ body | forLoop _ _ _ body | labeled _ body => body.dangling
  | expression _ | empty | debugger | block _ | doWhile .. => false

theorem dangling_braced (s : Stmt) : (braced s).dangling = false := by
  cases s <;> rfl

/-- Where an `else` would be taken up, the branch around the statement sets braces. -/
theorem endsOpen_of_dangling (dangles : (s.shown pretty isBody).dangling) : s.endsOpen := by
  induction s generalizing isBody with
  | expression e | empty | debugger | doWhile body test ih => cases dangles
  | block items ih =>
    rw [shown, shownAll_eq] at dangles
    split at dangles
    · split at dangles
      · cases dangles
      · rename_i only alone
        obtain ⟨item, rest, items', rfl, none⟩ := map_eq_cons_iff.mp alone
        obtain rfl := map_eq_nil_iff.mp none
        have member : item ∈ visible items := by
          rw [items']
          exact .head _
        rw [endsOpen, endsOpenAlone_eq, items']
        exact ih item (mem_filter.mp member).1 dangles
      · cases dangles
    · cases dangles
  | ifThen test body ih => rfl
  | ifElse _ _ _ _ ih | whileLoop _ _ ih | forLoop _ _ _ _ ih | labeled _ _ ih => exact ih dangles

def ValidPart (part : Option String) : Prop :=
  ∀ name ∈ part, (Token.identifier name false).Plain

mutual

def Valid : Stmt → Prop
  | expression e => e.Valid
  | empty | debugger => True
  | block items => AllValid items
  | ifThen test body | whileLoop test body | doWhile body test => test.Valid ∧ body.Valid
  | ifElse test consequent alternate => test.Valid ∧ consequent.Valid ∧ alternate.Valid
  | forLoop init test step body => ValidPart init ∧ ValidPart test ∧ ValidPart step ∧ body.Valid
  | labeled label body => (Token.identifier label false).Plain ∧ body.Valid

def AllValid : List Stmt → Prop
  | [] => True
  | s :: rest => s.Valid ∧ AllValid rest

end

mutual

/-- Whether each `else` stands behind a branch that does not take it up. -/
def Paired : Stmt → Prop
  | expression _ | empty | debugger => True
  | block items => AllPaired items
  | ifThen _ body | whileLoop _ body | doWhile body _ | forLoop _ _ _ body | labeled _ body => body.Paired
  | ifElse _ consequent alternate => consequent.dangling = false ∧ consequent.Paired ∧ alternate.Paired

def AllPaired : List Stmt → Prop
  | [] => True
  | s :: rest => s.Paired ∧ AllPaired rest

end

theorem allValid_iff : AllValid items ↔ ∀ item ∈ items, item.Valid := by
  induction items with
  | nil => simp [AllValid]
  | cons s rest ih => simp [AllValid, ih]

theorem allPaired_iff : AllPaired items ↔ ∀ item ∈ items, item.Paired := by
  induction items with
  | nil => simp [AllPaired]
  | cons s rest ih => simp [AllPaired, ih]

/-- What holds of the statements of a block holds of what is written for it. -/
theorem shown_block {P : Stmt → Prop} (each : ∀ item ∈ items, P (item.shown pretty false)) (none : P empty)
    (all : (∀ item ∈ shownAll pretty items, P item) → P (block (shownAll pretty items))) (isBody : Bool) :
    P ((block items).shown pretty isBody) := by
  have every : ∀ item ∈ shownAll pretty items, P item := by
    intro item member
    obtain ⟨original, inside, -, rfl⟩ := mem_shownAll member
    exact each original inside
  rw [shown]
  split
  · split
    · exact none
    · rename_i only alone
      exact every only (by rw [alone]; exact (.head _))
    · exact all every
  · exact all every

theorem valid_braced (valid : s.Valid) : (braced s).Valid := by
  cases s <;> first | exact valid | exact ⟨valid, trivial⟩

theorem paired_braced (paired : s.Paired) : (braced s).Paired := by
  cases s <;> first | exact paired | exact ⟨paired, trivial⟩

theorem Valid.shown (valid : s.Valid) : (s.shown pretty isBody).Valid := by
  induction s generalizing isBody with
  | expression e => exact valid
  | empty | debugger => trivial
  | block items ih =>
    exact shown_block (fun item member => ih item member (allValid_iff.mp valid item member)) trivial allValid_iff.mpr
      isBody
  | ifThen test body ih | whileLoop test body ih | doWhile body test ih | labeled label body ih =>
    exact ⟨valid.1, ih valid.2⟩
  | ifElse test consequent alternate ihConsequent ihAlternate =>
    refine ⟨valid.1, ?_, ihAlternate valid.2.2⟩
    split
    · exact valid_braced (ihConsequent valid.2.1)
    · exact ihConsequent valid.2.1
  | forLoop init test step body ih => exact ⟨valid.1, valid.2.1, valid.2.2.1, ih valid.2.2.2⟩

/-- In what is written each `else` belongs to the `if` that it was written for. -/
theorem paired_shown (pretty isBody : Bool) (s : Stmt) : (s.shown pretty isBody).Paired := by
  induction s generalizing isBody with
  | expression e | empty | debugger => trivial
  | block items ih => exact shown_block (fun item member => ih item member false) trivial allPaired_iff.mpr isBody
  | ifThen test body ih | whileLoop test body ih | doWhile body test ih | forLoop init test step body ih =>
    exact ih true
  | ifElse test consequent alternate ihConsequent ihAlternate =>
    rw [shown]
    split
    · exact ⟨dangling_braced _, paired_braced (ihConsequent false), ihAlternate true⟩
    · rename_i closed
      exact ⟨Bool.eq_false_iff.mpr (mt endsOpen_of_dangling closed), ihConsequent true, ihAlternate true⟩
  | labeled label body ih => exact ih false

def isOpen : Stmt → Bool
  | expression _ | debugger | doWhile .. => true
  | empty | block _ => false
  | ifThen _ body | whileLoop _ body | forLoop _ _ _ body | labeled _ body => body.isOpen
  | ifElse _ _ alternate => alternate.isOpen

def stop (s : Stmt) : List Token :=
  if s.isOpen then [.punctuator .semicolon] else []

def partText : Option String → List Token
  | none => []
  | some name => [.identifier name false]

mutual

/-- Whether the tokens are those of the statement, without the semicolon behind it. -/
inductive Writes : Stmt → List Token → Prop
  | expression (e : Simple) : Writes (expression e) e.expr.bare
  | empty : Writes empty [.punctuator .semicolon]
  | debugger : Writes debugger [.keyword .debugger]
  | block {items : List Stmt} {tokens : List Token} : WritesAll items tokens →
    Writes (block items) (.punctuator .lBrace :: (tokens ++ [.punctuator .rBrace]))
  | ifThen (test : Simple) {body : Stmt} {tokens : List Token} : Writes body tokens →
    Writes (ifThen test body) (.keyword .if :: enclosed test.expr.bare ++ tokens)
  | ifElse (test : Simple) {consequent alternate : Stmt} {tokens others : List Token} : Writes consequent tokens →
    Writes alternate others → Writes (ifElse test consequent alternate)
      (.keyword .if :: enclosed test.expr.bare ++ (tokens ++ (consequent.stop ++ .keyword .else :: others)))
  | whileLoop (test : Simple) {body : Stmt} {tokens : List Token} : Writes body tokens →
    Writes (whileLoop test body) (.keyword .while :: enclosed test.expr.bare ++ tokens)
  | doWhile (test : Simple) {body : Stmt} {tokens : List Token} : Writes body tokens →
    Writes (doWhile body test) (.keyword .do :: (tokens ++ (body.stop ++ .keyword .while :: enclosed test.expr.bare)))
  | forLoop (init test step : Option String) {body : Stmt} {tokens : List Token} : Writes body tokens →
    Writes (forLoop init test step body) (.keyword .for :: .punctuator .lParen :: (partText init ++
      .punctuator .semicolon :: (partText test ++ .punctuator .semicolon :: (partText step ++
        .punctuator .rParen :: tokens))))
  | labeled (label : String) {body : Stmt} {tokens : List Token} : Writes body tokens →
    Writes (labeled label body) (.identifier label false :: .punctuator .colon :: tokens)

/-- Whether the tokens are those of the statements. The last one may go without its semicolon. -/
inductive WritesAll : List Stmt → List Token → Prop
  | nil : WritesAll [] []
  | last {s : Stmt} {tokens : List Token} : Writes s tokens → WritesAll [s] tokens
  | cons {s : Stmt} {rest : List Stmt} {tokens others : List Token} : Writes s tokens → WritesAll rest others →
    WritesAll (s :: rest) (tokens ++ (s.stop ++ others))

end

variable {tokens others : List Token} {t : Token}

/-- The text of a statement starts with a token that no other construct starts with. -/
theorem Writes.starts (writes : Writes s tokens) : Starts Token.starts tokens := by
  cases writes with
  | expression e => cases e <;> exact ⟨_, _, rfl, rfl⟩
  | _ => exact ⟨_, _, rfl, rfl⟩

/-- Whether each of the tokens is one that may stand next to any other. -/
def Separate (tokens : List Token) : Prop :=
  ∀ t ∈ tokens, t.Plain ∧ t.isSeparate = true

theorem Separate.nil : Separate [] :=
  fun _ member => absurd member not_mem_nil

theorem Separate.append (first : Separate tokens) (second : Separate others) : Separate (tokens ++ others) :=
  fun t member => (mem_append.mp member).elim (first t) (second t)

theorem Separate.cons (first : t.Plain) (separate : t.isSeparate) (second : Separate tokens) :
    Separate (t :: tokens) :=
  forall_mem_cons.mpr ⟨⟨first, separate⟩, second⟩

theorem Separate.word {word : Keyword} (second : Separate tokens) : Separate (.keyword word :: tokens) :=
  second.cons trivial rfl

theorem Separate.mark {p : Punctuator} (separate : (Token.punctuator p).isSeparate) (second : Separate tokens) :
    Separate (.punctuator p :: tokens) :=
  second.cons trivial separate

theorem Separate.enclosed (inner : Separate tokens) : Separate (enclosed tokens) :=
  (inner.append (Separate.nil.mark rfl)).mark rfl

theorem separate_stop (s : Stmt) : Separate s.stop := by
  unfold stop
  split
  · exact Separate.nil.mark rfl
  · exact .nil

theorem ValidPart.separate {part : Option String} (valid : ValidPart part) : Separate (partText part) := by
  cases part with
  | none => exact .nil
  | some name => exact Separate.nil.cons (valid name rfl) rfl

theorem separate_listed {args : List String} (valid : ∀ arg ∈ args, (Token.identifier arg false).Plain) :
    Separate (Expr.listed (args.map fun arg => .leaf (.name arg))) := by
  induction args with
  | nil => exact .nil
  | cons arg rest ih =>
    have first := valid arg (.head _)
    have others := ih fun other member => valid other (.tail _ member)
    cases rest with
    | nil => exact Separate.nil.cons first rfl
    | cons next further => exact (others.mark (p := .comma) rfl).cons first rfl

theorem separate_bare {e : Simple} (valid : e.Valid) : Separate e.expr.bare := by
  cases e with
  | name text => exact Separate.nil.cons valid rfl
  | call callee args => exact (separate_listed valid.2).enclosed.cons valid.1 rfl

theorem WritesAll.separate (each : ∀ item ∈ items, ∀ {tokens}, Writes item tokens → Separate tokens)
    (writes : WritesAll items tokens) : Separate tokens := by
  induction items generalizing tokens with
  | nil =>
    cases writes
    exact .nil
  | cons s rest ih =>
    cases writes with
    | last first => exact each s (.head _) first
    | cons first more =>
      have others := ih (fun item member => each item (.tail _ member)) more
      exact (each s (.head _) first).append (s.separate_stop.append others)

theorem Valid.separate (valid : s.Valid) (writes : Writes s tokens) : Separate tokens := by
  induction s generalizing tokens with
  | expression e =>
    cases writes
    exact separate_bare valid
  | empty =>
    cases writes
    exact Separate.nil.mark rfl
  | debugger =>
    cases writes
    exact Separate.nil.word
  | block items ih =>
    cases writes with
    | block all =>
      have inner := all.separate fun item member _ writes => ih item member (allValid_iff.mp valid item member) writes
      exact (inner.append (Separate.nil.mark rfl)).mark rfl
  | ifThen test body ih =>
    cases writes with
    | ifThen _ inner => exact ((separate_bare valid.1).enclosed.append (ih valid.2 inner)).word
  | ifElse test consequent alternate ihConsequent ihAlternate =>
    cases writes with
    | ifElse _ first second =>
      have first := ihConsequent valid.2.1 first
      have second := ihAlternate valid.2.2 second
      exact ((separate_bare valid.1).enclosed.append (first.append (consequent.separate_stop.append second.word))).word
  | whileLoop test body ih =>
    cases writes with
    | whileLoop _ inner => exact ((separate_bare valid.1).enclosed.append (ih valid.2 inner)).word
  | doWhile body test ih =>
    cases writes with
    | doWhile _ inner =>
      exact ((ih valid.2 inner).append (body.separate_stop.append (separate_bare valid.1).enclosed.word)).word
  | forLoop init test step body ih =>
    obtain ⟨validInit, validTest, validStep, validBody⟩ := valid
    cases writes with
    | forLoop _ _ _ inner =>
      have closing := validStep.separate.append ((ih validBody inner).mark (p := .rParen) rfl)
      have middle := validTest.separate.append (closing.mark (p := .semicolon) rfl)
      exact ((validInit.separate.append (middle.mark (p := .semicolon) rfl)).mark rfl).word
  | labeled label body ih =>
    cases writes with
    | labeled _ inner => exact ((ih valid.2 inner).mark rfl).cons valid.1 rfl

end Stmt

end Condense
