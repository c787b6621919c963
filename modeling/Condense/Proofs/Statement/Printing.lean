import Condense.Proofs.Expression.Printing
import Condense.Proofs.Statement.Text

/-!
Printing a statement writes the tokens of the statement that is shown for it, on one line as on several.
-/

namespace Condense

open List Printer

variable {s : Stmt} {id : NodeId} {items : List Stmt} {ids : List NodeId} {printed : Printed} {levels : Nat}

/-- A line may end before a token that does not depend on what stands before it. -/
theorem Style.newLine_spells (c : Style) {inlineSafe : Bool} {pieces : List Piece} {t : Token} {tokens : List Token}
    (noUpdate : t.isUpdate = false) (spells : Spells inlineSafe pieces (t :: tokens)) :
    Spells inlineSafe (c.newLine ++ pieces) (t :: tokens) := by
  unfold newLine
  split
  · exact .line noUpdate spells
  · exact spells

theorem Token.not_isUpdate_of_starts {t : Token} (starts : t.starts) : t.isUpdate = false := by
  cases t with
  | punctuator p => cases p <;> first | rfl | cases starts
  | _ => rfl

namespace Stmt

variable {p : Printer} {c : Style}

theorem At.form_eq_empty {t : Tree} (here : s.At t id) : t.form id = .empty ↔ s.isEmpty := by
  cases s with
  | expression e =>
    have other := not_isControl here
    constructor
    · intro form
      rw [form] at other
      cases other
    · intro empty
      cases empty
  | empty => exact ⟨fun _ => rfl, fun _ => here.2⟩
  | _ => grind [At, isEmpty]

theorem AllAt.visible (all : AllAt c.tree items ids) : AllAt c.tree (visible items) (c.visible ids) := by
  induction items generalizing ids with
  | nil =>
    cases all
    rfl
  | cons s rest ih =>
    obtain ⟨i, others, rfl, here, more⟩ := all
    have kept := ih more
    cases empty : s.isEmpty with
    | true =>
      have form := here.form_eq_empty.mpr empty
      simpa [Stmt.visible, Style.visible, empty, form] using kept
    | false =>
      have form : c.tree.form i ≠ .empty := by simpa [empty] using here.form_eq_empty
      have first : Stmt.visible (s :: rest) = s :: Stmt.visible rest := by simp [Stmt.visible, empty]
      rw [first]
      refine ⟨i, c.visible others, ?_, here, kept⟩
      refine filter_cons_of_pos ?_
      split
      · contradiction
      · rfl

theorem AllAt.depth_le {item : Stmt} (member : item ∈ items) : item.depth ≤ depthAll items := by
  induction items with
  | nil => cases member
  | cons s rest ih =>
    rcases mem_cons.mp member with rfl | member
    · exact Nat.le_max_left ..
    · exact (ih member).trans (Nat.le_max_right ..)

section

variable (here : s.At c.tree id)

include here

theorem At.needsBraces : c.needsBraces id = false := by
  cases s with
  | expression e =>
    cases e <;> grind [At, Simple.expr, Expr.At, Leaf.Has, Style.needsBraces]
  | _ => grind [At, Style.needsBraces]

theorem At.form_ne_block (other : ∀ items, s ≠ block items) (ids : List NodeId) (scope : Option ScopeId)
    (isStatic : Bool) : c.tree.form id ≠ .block ids scope isStatic := by
  intro form
  cases s with
  | block items => exact other items rfl
  | expression e =>
    have other := not_isControl here
    rw [form] at other
    cases other
  | _ => grind [At]

theorem At.unwrapped?_eq_none (other : ∀ items, s ≠ block items) : c.unwrapped? id = none := by
  unfold Style.unwrapped?
  split
  · rename_i form
    exact absurd form (here.form_ne_block other _ none false)
  · rfl

/-- The printer finds an `if` without `else` at the end of a statement where there is one. -/
theorem At.endsOpenUpTo {steps : Nat} (enough : s.depth ≤ steps) : c.endsOpenUpTo steps id = s.endsOpen := by
  induction steps generalizing s id with
  | zero => exact absurd s.depth_pos (by omega)
  | succ fewer ih =>
    cases s with
    | expression e =>
      cases e <;> grind [At, Simple.expr, Expr.At, Leaf.Has, Style.endsOpenUpTo, endsOpen]
    | empty | debugger => grind [At, Style.endsOpenUpTo, endsOpen]
    | block items =>
      simp only [depth] at enough
      obtain ⟨ids, form, all⟩ := here
      have kept := all.visible
      have within (item : Stmt) (member : item ∈ Stmt.visible items) : item.depth ≤ fewer := by
        have := AllAt.depth_le (mem_filter.mp member).1
        omega
      rw [endsOpen, endsOpenAlone_eq]
      simp only [Style.endsOpenUpTo, form, Style.unwrapped?]
      generalize Stmt.visible items = shown at kept within
      rcases shown with - | ⟨only, - | ⟨next, rest⟩⟩
      · rw [show c.visible ids = [] from kept]
      · obtain ⟨i, others, same, onlyAt, none⟩ := kept
        obtain rfl : others = [] := none
        simp only [same, onlyAt.needsBraces, Bool.false_eq_true, if_false]
        exact ih onlyAt (within only (.head _))
      · obtain ⟨i, others, same, -, j, further, rfl, -⟩ := kept
        rw [same]
    | ifThen test body | doWhile body test =>
      obtain ⟨i, j, form, -⟩ := here
      simp only [Style.endsOpenUpTo, form, endsOpen]
    | ifElse test consequent alternate =>
      simp only [depth] at enough
      obtain ⟨i, j, k, form, -, -, alternateAt⟩ := here
      simp only [Style.endsOpenUpTo, form, endsOpen]
      exact ih alternateAt (by omega)
    | whileLoop test body =>
      simp only [depth] at enough
      obtain ⟨i, j, form, -, bodyAt⟩ := here
      simp only [Style.endsOpenUpTo, form, endsOpen]
      exact ih bodyAt (by omega)
    | forLoop init test step body =>
      obtain ⟨i, j, k, l, form, -, -, -, bodyAt⟩ := here
      simp only [Style.endsOpenUpTo, form, endsOpen]
      exact ih bodyAt (Nat.le_of_succ_le_succ enough)
    | labeled label body =>
      obtain ⟨i, form, bodyAt⟩ := here
      simp only [Style.endsOpenUpTo, form, endsOpen]
      exact ih bodyAt (Nat.le_of_succ_le_succ enough)

theorem At.endsWithOpenIf : c.endsWithOpenIf id = s.endsOpen :=
  here.endsOpenUpTo (Nat.le_succ_of_le here.depth_le_size)

end

/-- Whether what was printed is the given statement. -/
structure Shows (inlineSafe : Bool) (printed : Printed) (s : Stmt) : Prop where
  isOpen : printed.2 = s.isOpen
  spells : ∃ tokens, Writes s tokens ∧ Spells inlineSafe printed.1 tokens

/-- Whether the printer writes all nodes of so many levels, however far they are indented. -/
structure Covers (p : Printer) (c : Style) (levels : Nat) : Prop where
  expression : ∀ indent e id, Expr.At c.tree e id → e.depth ≤ levels → Expr.Prints p { c with indent } id e
  name : ∀ indent text id, (Expr.leaf (.name text)).At c.tree id → 0 < levels →
    c.Spelled (p.expression { c with indent, noIn := true } id .comma) [.identifier text false]
  statement : ∀ indent (s : Stmt) id, s.At c.tree id → s.depth ≤ levels →
    Shows c.settings.inlineSafeStrings (p.statement { c with indent } id) (s.shown c.isPretty false)

/-- Whether what was printed is the given statement, in the style. -/
abbrev Shown (c : Style) (printed : Printed) (s : Stmt) : Prop :=
  Shows c.settings.inlineSafeStrings printed s

theorem semicolon_spells (c : Style) (isOpen : Bool) :
    c.Spelled (if isOpen then [.token ";"] else []) (if isOpen then [.punctuator .semicolon] else []) := by
  split
  · exact .single rfl
  · exact .nil

theorem Shows.newLine (shows : Shown c printed s) (indent : Nat) :
    Shown c (({ c with indent } : Style).newLine ++ printed.1, printed.2) s := by
  obtain ⟨tokens, writes, spells⟩ := shows.spells
  obtain ⟨t, more, rfl, starts⟩ := writes.starts
  exact ⟨shows.isOpen, t :: more, writes, Style.newLine_spells _ (Token.not_isUpdate_of_starts starts) spells⟩

/-- Statements one after the other. On one line the semicolon behind a statement is written before the next one; the
semicolon that is left over at the end may be written too. -/
theorem statements_shows (all : AllAt c.tree items ids)
    (each : ∀ item ∈ items, ∀ id, item.At c.tree id → Shown c (p.statement c id) (item.shown c.isPretty false))
    {isOpen : Bool} (oneLine : isOpen → c.isPretty = false) (onNewLine : Bool) :
    ∃ tokens, WritesAll (items.map (shown c.isPretty false)) tokens ∧
      c.Spelled (p.statements c isOpen onNewLine ids).1
        ((if isOpen && !items.isEmpty then [.punctuator .semicolon] else []) ++ tokens) ∧
      (items ≠ [] ∨ isOpen = false → (p.statements c isOpen onNewLine ids).2 →
        WritesAll (items.map (shown c.isPretty false)) (tokens ++ [.punctuator .semicolon])) := by
  induction items generalizing ids isOpen onNewLine with
  | nil =>
    cases all
    refine ⟨[], .nil, ?_, ?_⟩
    · simp only [isEmpty_nil, Bool.not_true, Bool.and_false, Bool.false_eq_true, if_false]
      exact .nil
    · rintro (some | closed) opens
      · exact absurd rfl some
      · exact absurd (closed.symm.trans opens) Bool.false_ne_true
  | cons s rest ih =>
    obtain ⟨i, others, rfl, here, more⟩ := all
    have own := each s (.head _) i here
    have stays : ((s.shown c.isPretty false).isOpen && !c.isPretty) → c.isPretty = false := by simp
    obtain ⟨following, writesRest, spellsRest, final⟩ :=
      ih more (fun item member => each item (.tail _ member)) stays true
    obtain ⟨tokens, writes, spells⟩ : ∃ tokens, Writes (s.shown c.isPretty false) tokens ∧
        c.Spelled ((if onNewLine then c.newLine else []) ++ (p.statement c i).1) tokens := by
      split
      · exact (own.newLine c.indent).spells
      · exact own.spells
    have before := semicolon_spells c isOpen
    have opens := own.isOpen
    simp only [Printer.statements, opens, isEmpty_cons, Bool.not_false, Bool.and_true, append_assoc, map_cons]
    rw [← append_assoc (if onNewLine then c.newLine else [])]
    by_cases ends : c.isPretty = false ∧ rest = []
    · -- The last statement on a line: its semicolon is left to the caller.
      obtain ⟨pretty, rfl⟩ := ends
      cases writesRest
      refine ⟨tokens, .last writes, before.append ?_, fun _ due => ?_⟩
      · simpa [pretty] using spells.append spellsRest
      · have none : others = [] := more
        subst none
        have due : (s.shown c.isPretty false).isOpen := by
          simpa [Printer.statements, pretty] using due
        have terminated := WritesAll.cons writes .nil
        simpa [stop, due] using terminated
    · refine ⟨tokens ++ ((s.shown c.isPretty false).stop ++ following), .cons writes writesRest,
        before.append (spells.append ?_), fun _ due => ?_⟩
      · have semicolon : c.Spelled _ (s.shown c.isPretty false).stop := semicolon_spells c _
        cases pretty : c.isPretty with
        | true =>
          simp only [pretty, Bool.not_true, Bool.and_false, Bool.false_and, Bool.false_eq_true, if_false,
            nil_append, Bool.and_true] at spellsRest semicolon ⊢
          exact semicolon.append spellsRest
        | false =>
          have more : rest.isEmpty = false := by simpa [pretty] using ends
          simpa [pretty, more, stop] using spellsRest
      · have more := final ?_ due
        · simpa using WritesAll.cons writes more
        · cases pretty : c.isPretty with
          | true => exact .inr (by simp)
          | false => exact .inl fun none => ends ⟨pretty, none⟩

theorem shown_body (other : ∀ items, s ≠ block items) (pretty : Bool) : s.shown pretty true = s.shown pretty false := by
  cases s with
  | block items => exact absurd rfl (other items)
  | _ => rfl

theorem Shows.after {pieces : List Piece} {s' : Stmt} {tokens : List Token} (shows : Shown c printed s)
    (before : c.Spelled pieces tokens) (writes : ∀ others, Writes s others → Writes s' (tokens ++ others))
    (opens : s'.isOpen = s.isOpen) : Shown c (Printer.after pieces printed) s' := by
  obtain ⟨others, inner, spells⟩ := shows.spells
  exact ⟨shows.isOpen.trans opens.symm, tokens ++ others, writes others inner, before.append spells⟩

theorem Shows.closed (shows : Shown c printed s) :
    ∃ tokens, Writes s tokens ∧ c.Spelled (Printer.closed printed) (tokens ++ s.stop) := by
  obtain ⟨tokens, writes, spells⟩ := shows.spells
  refine ⟨tokens, writes, spells.append ?_⟩
  rw [shows.isOpen]
  exact semicolon_spells c s.isOpen

theorem part_spells {part : Option String} {id : Option NodeId} (written : NodeId → List Piece)
    (spells : ∀ name i, (Expr.leaf (.name name)).At c.tree i → c.Spelled (written i) [.identifier name false]) :
    PartAt c.tree part id → c.Spelled (match id with
      | some id => written id
      | none => []) (partText part) := by
  intro here
  cases part with
  | none =>
    cases here
    exact .nil
  | some name =>
    obtain ⟨i, rfl, nameAt⟩ := here
    exact spells name i nameAt

theorem braced_shown (other : ∀ items, s ≠ block items) (pretty : Bool) :
    braced (s.shown pretty false) = block [s.shown pretty false] := by
  cases s with
  | block items => exact absurd rfl (other items)
  | _ => rfl

section

variable (plain : c.Plain) (covers : Covers p c levels)

include plain covers

theorem block_shows (all : AllAt c.tree items ids) (enough : depthAll items ≤ levels) :
    Shown c (p.block c ids, false) (block (shownAll c.isPretty items)) := by
  have indented : c.indented.Plain := ⟨plain.allowsIn, plain.ownNames⟩
  have kept := all.visible
  have each : ∀ item ∈ visible items, ∀ id, item.At c.indented.tree id →
      Shown c (p.statement c.indented id) (item.shown c.indented.isPretty false) := by
    intro item member id here
    exact covers.statement (c.indent + 1) item id here (Nat.le_trans (AllAt.depth_le (mem_filter.mp member).1) enough)
  obtain ⟨tokens, writes, spells, -⟩ :=
    statements_shows (c := c.indented) kept each (fun same : false = true => by cases same) true
  have last : c.Spelled ((if (c.visible ids).isEmpty then [] else c.newLine) ++ [.token "\x7d"])
      [.punctuator .rBrace] := by
    split
    · exact .single rfl
    · exact c.newLine_spells rfl (.single rfl)
  refine ⟨rfl, _, .block (shownAll_eq _ items ▸ writes), ?_⟩
  simp only [Printer.block, indented.nested, append_assoc]
  exact (Spells.mark .lBrace).append (spells.append last)

theorem body_shows (here : s.At c.tree id) (enough : s.depth ≤ levels) : Shown c (p.body c id) (s.shown c.isPretty true) := by
  by_cases isBlock : ∃ items, s = block items
  · obtain ⟨items, rfl⟩ := isBlock
    obtain ⟨ids, form, all⟩ := here
    simp only [depth] at enough
    have inBraces : Shown c (c.space ++ p.block c ids, false) (block (shownAll c.isPretty items)) := by
      obtain ⟨tokens, writes, spells⟩ := (block_shows plain covers all (by omega)).spells
      exact ⟨rfl, tokens, writes, (c.space_spells _).append spells⟩
    rw [Printer.body, shown]
    cases pretty : c.isPretty with
    | true =>
      rw [pretty] at inBraces
      simpa [form] using inBraces
    | false =>
      rw [pretty] at inBraces
      have kept := all.visible
      have within (item : Stmt) (member : item ∈ visible items) : item.depth ≤ levels := by
        have := AllAt.depth_le (mem_filter.mp member).1
        omega
      rw [shownAll_eq] at inBraces ⊢
      simp only [Bool.false_eq_true, if_false, Bool.not_false, Bool.and_true, if_true, Style.unwrapped?, form]
      generalize visible items = written at kept within inBraces
      rcases written with - | ⟨only, - | ⟨next, rest⟩⟩
      · rw [show c.visible ids = [] from kept]
        exact ⟨rfl, _, .empty, .single rfl⟩
      · obtain ⟨i, others, same, onlyAt, none⟩ := kept
        obtain rfl : others = [] := none
        simp only [same, onlyAt.needsBraces, Bool.false_eq_true, if_false]
        have single := covers.statement c.indent only i onlyAt (within only (.head _))
        rwa [pretty] at single
      · obtain ⟨i, others, same, -, j, further, rfl, -⟩ := kept
        simp only [same]
        exact inBraces
  · have other : ∀ items, s ≠ block items := fun items same => isBlock ⟨items, same⟩
    have form : p.body c id = (c.indented.newLine ++ (p.statement c.indented id).1, (p.statement c.indented id).2) := by
      rw [Printer.body, here.unwrapped?_eq_none other, ite_self]
      split
      · rename_i noBlock
        cases noBlock
      · rename_i noBlock
        cases noBlock
      · split
        · rename_i form
          exact absurd form (here.form_ne_block other _ _ _)
        · rfl
    rw [form, shown_body other]
    exact (covers.statement (c.indent + 1) s id here enough).newLine (c.indent + 1)

/-- The word before a condition, and the condition. -/
theorem condition_spells (word : Keyword) (text : String) {test : Simple} (spelled : word.spelling = text)
    (here : test.expr.At c.tree id) (enough : test.expr.depth ≤ levels) :
    c.Spelled ([.token text] ++ c.space ++ p.inParentheses c id) (.keyword word :: enclosed test.expr.bare) := by
  have inner := covers.expression c.indent test.expr id here enough .comma
  rw [inParentheses, plain.nested, append_assoc]
  exact (Spells.single (t := .keyword word) spelled).append ((c.space_spells _).append inner.parenthesize)

/-- The branch before an `else` goes in braces if it would take up the `else`. -/
theorem consequent_spells (here : s.At c.tree id) (enough : s.depth ≤ levels) :
    let shown := if s.endsOpen then braced (s.shown c.isPretty false) else s.shown c.isPretty true
    ∃ tokens, Writes shown tokens ∧ c.Spelled (if c.endsWithOpenIf id then
        c.space ++ match c.tree.form id with
          | .block statements _ _ => p.block c statements
          | _ => [.token "\x7b"] ++ (p.statement c id).1 ++ [.token "\x7d"]
      else Printer.closed (p.body c id)) (tokens ++ shown.stop) := by
  intro shown
  simp only [shown, here.endsWithOpenIf]
  split
  · have room := c.space_spells c.settings.inlineSafeStrings
    by_cases isBlock : ∃ items, s = block items
    · obtain ⟨items, rfl⟩ := isBlock
      obtain ⟨ids, form, all⟩ := here
      simp only [depth] at enough
      obtain ⟨tokens, writes, spells⟩ := (block_shows plain covers all (by omega)).spells
      refine ⟨tokens, writes, ?_⟩
      simp only [form, Stmt.shown, Bool.false_and, Bool.false_eq_true, if_false, braced, stop, isOpen, append_nil]
      exact room.append spells
    · have other : ∀ items, s ≠ block items := fun items same => isBlock ⟨items, same⟩
      obtain ⟨tokens, writes, spells⟩ := (covers.statement c.indent s id here enough).spells
      rw [braced_shown other]
      refine ⟨_, .block (.last writes), ?_⟩
      simp only [stop, isOpen, Bool.false_eq_true, if_false, append_nil]
      split
      · rename_i form
        exact absurd form (here.form_ne_block other _ _ _)
      · exact room.append ((Spells.mark .lBrace).append (spells.append (.single rfl)))
  · exact (body_shows plain covers here enough).closed

theorem ifElse_shows {test : Simple} {consequent alternate : Stmt} {i j k : NodeId}
    (testAt : test.expr.At c.tree i) (consequentAt : consequent.At c.tree j)
    (alternateAt : alternate.At c.tree k) (enough : (ifElse test consequent alternate).depth ≤ levels + 1) :
    Shown c (p.ifStatement c i j (some k)) ((ifElse test consequent alternate).shown c.isPretty false) := by
  simp only [depth] at enough
  have room := c.space_spells c.settings.inlineSafeStrings
  have start := condition_spells plain covers .if "if" rfl testAt (by omega)
  obtain ⟨tokens, writes, branch⟩ := consequent_spells plain covers consequentAt (by omega)
  have word : c.Spelled [.token "else"] [.keyword .else] := .single rfl
  have before := ((start.append branch).append room).append word
  have whole (others : List Token) (alternateWrites : Writes (alternate.shown c.isPretty true) others) :=
    Writes.ifElse test writes alternateWrites
  simp only [Printer.ifStatement, shown]
  by_cases isIf : ∃ test consequent alternate, c.tree.form k = .ifStatement test consequent alternate
  · obtain ⟨_, _, _, form⟩ := isIf
    have other : ∀ items, alternate ≠ block items := by
      rintro items rfl
      obtain ⟨ids, block, -⟩ := alternateAt
      cases form.symm.trans block
    have last := covers.statement c.indent alternate k alternateAt (by omega)
    rw [← shown_body other] at last
    simp only [form]
    exact last.after (before.append room) (fun others inner => by simpa using whole others inner) rfl
  · have last := body_shows plain covers alternateAt (by omega)
    split
    · rename_i form
      exact absurd ⟨_, _, _, form⟩ isIf
    · exact last.after before (fun others inner => by simpa using whole others inner) rfl

theorem statementAt_shows (here : s.At c.tree id) (enough : s.depth ≤ levels + 1) (control : ∀ e, s ≠ expression e) :
    Shown c (p.statementAt c id) (s.shown c.isPretty false) := by
  have room := c.space_spells c.settings.inlineSafeStrings
  cases s with
  | expression e => exact absurd rfl (control e)
  | empty =>
    simp only [Printer.statementAt, here.2]
    exact ⟨rfl, _, .empty, .single rfl⟩
  | debugger =>
    simp only [Printer.statementAt, show c.tree.form id = _ from here]
    exact ⟨rfl, _, .debugger, .single rfl⟩
  | block items =>
    obtain ⟨ids, form, all⟩ := here
    simp only [depth] at enough
    simp only [Printer.statementAt, form]
    exact block_shows plain covers all (by omega)
  | ifThen test body =>
    obtain ⟨i, j, form, testAt, bodyAt⟩ := here
    simp only [depth] at enough
    simp only [Printer.statementAt, form, Printer.ifStatement]
    exact (body_shows plain covers bodyAt (by omega)).after (condition_spells plain covers .if "if" rfl testAt (by omega))
      (fun _ => .ifThen test) rfl
  | ifElse test consequent alternate =>
    obtain ⟨i, j, k, form, testAt, consequentAt, alternateAt⟩ := here
    simp only [Printer.statementAt, form]
    exact ifElse_shows plain covers testAt consequentAt alternateAt enough
  | whileLoop test body =>
    obtain ⟨i, j, form, testAt, bodyAt⟩ := here
    simp only [depth] at enough
    simp only [Printer.statementAt, form]
    exact (body_shows plain covers bodyAt (by omega)).after (condition_spells plain covers .while "while" rfl testAt (by omega))
      (fun _ => .whileLoop test) rfl
  | doWhile body test =>
    obtain ⟨i, j, form, bodyAt, testAt⟩ := here
    simp only [depth] at enough
    obtain ⟨tokens, writes, spells⟩ := (body_shows plain covers bodyAt (by omega)).closed
    have last := condition_spells plain covers .while "while" rfl testAt (by omega)
    simp only [Printer.statementAt, form, append_assoc] at last ⊢
    refine ⟨rfl, _, .doWhile test writes, ?_⟩
    rw [← append_assoc tokens]
    exact (Spells.single (t := .keyword .do) rfl).append (spells.append (room.append last))
  | forLoop init test step body =>
    obtain ⟨i, j, k, l, form, initAt, testAt, stepAt, bodyAt⟩ := here
    simp only [depth] at enough
    have positive : 0 < levels := by have := body.depth_pos; omega
    have first := part_spells (p.head c) (fun name i nameAt => by
      have inner := covers.name c.indent name i nameAt positive
      obtain ⟨field, type, form⟩ := nameAt
      simp only [Printer.head, form]
      exact inner) initAt
    have value (name : String) (i : NodeId) (nameAt : (Expr.leaf (.name name)).At c.tree i) :
        c.Spelled (c.space ++ p.expression c.nested i .comma) [.identifier name false] := by
      have inner := covers.expression c.indent _ i nameAt positive .comma
      rw [plain.nested]
      exact (c.space_spells _).append inner
    have second := part_spells _ value testAt
    have third := part_spells _ value stepAt
    have word : c.Spelled [.token "for"] [.keyword .for] := .single rfl
    have head := (((((((word.append room).append (.mark .lParen)).append first).append (.mark .semicolon)).append
      second).append (.mark .semicolon)).append third).append (.mark .rParen)
    simp only [Printer.statementAt, form, Printer.forLoop]
    exact (body_shows plain covers bodyAt (by omega)).after head
      (fun _ inner => by simpa [shown] using Writes.forLoop init test step inner) rfl
  | labeled label body =>
    obtain ⟨i, form, bodyAt⟩ := here
    simp only [depth] at enough
    simp only [Printer.statementAt, form]
    have head := (Spells.single (t := .identifier label false) rfl).append ((Spells.mark .colon).append room)
    exact (covers.statement c.indent body i bodyAt (by omega)).after head (fun _ => .labeled label) rfl

end

theorem expressionAt_name {text : String} (here : (Expr.leaf (.name text)).At c.tree id)
    (ownNames : ∀ id name field type, c.tree.form id = .lookup name field type → c.outputName name field = name) :
    c.Spelled (p.expressionAt c id .comma) [.identifier text false] := by
  have unwrapped := here.unwrapGrouping_of_bare rfl
  obtain ⟨field, type, form⟩ := here
  simp only [expressionAt, unwrapped, form, Style.level, Form.level, Bool.and_false, Bool.or_false,
    Expr.not_below_comma, Bool.false_eq_true, if_false, bareExpression, ownNames id text field type form]
  exact .token rfl .nil

/-- A printer for so many levels writes all nodes of so many levels. -/
theorem upTo_covers (plain : c.Plain) (levels : Nat) : Covers (upTo levels) c levels := by
  have indented (indent : Nat) : ({ c with indent } : Style).Plain := ⟨plain.allowsIn, plain.ownNames⟩
  induction levels with
  | zero =>
    refine ⟨fun _ e _ _ none => ?_, fun _ _ _ _ none => absurd none (Nat.lt_irrefl 0), fun _ s _ _ none => ?_⟩
    · exact absurd e.depth_pos (by omega)
    · exact absurd s.depth_pos (by omega)
  | succ fewer ih =>
    have expressions (indent : Nat) (e : Expr) (id : NodeId) (here : e.At c.tree id) (enough : e.depth ≤ fewer + 1) :
        Expr.Prints (upTo (fewer + 1)) { c with indent } id e :=
      here.prints (indented indent) enough
    refine ⟨expressions, fun indent text id here _ => ?_, fun indent s id here enough => ?_⟩
    · exact expressionAt_name (c := { c with indent, noIn := true }) here plain.ownNames
    · have covers : Covers (upTo fewer) { c with indent } fewer := ⟨ih.expression, ih.name, ih.statement⟩
      by_cases isExpression : ∃ e, s = expression e
      · obtain ⟨e, rfl⟩ := isExpression
        have printed : (upTo (fewer + 1)).statement { c with indent } id =
            ((upTo fewer).expressionAt { c with indent } id .comma, true) :=
          Expr.At.statementAt (e := e.expr) here
        have spells := expressions indent e.expr id here enough .comma
        rw [printed]
        exact ⟨rfl, _, .expression e, spells⟩
      · have control : ∀ e, s ≠ expression e := fun e same => isExpression ⟨e, same⟩
        exact statementAt_shows (indented indent) covers here enough control

end Stmt

end Condense
