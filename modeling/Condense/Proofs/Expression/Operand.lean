import Condense.Proofs.Expression.Boundary
import Condense.Proofs.Grammar.Input

/-!
Reading back what stands on its own: names and constants, and expressions in parentheses and in lists.
-/

namespace Condense

open List

variable {args items : List Expr} {ids : List NodeId} {e : Expr} {id : NodeId} {rounds : Nat}

namespace Expr

variable {t t' : Tree}

theorem AllAt.concat (all : AllAt t args ids) (here : e.At t id) : AllAt t (args ++ [e]) (ids ++ [id]) := by
  induction args generalizing ids with
  | nil =>
    obtain rfl : ids = [] := all
    exact ⟨id, [], rfl, here, rfl⟩
  | cons x rest ih =>
    obtain ⟨i, others, rfl, first, more⟩ := all
    exact ⟨i, others ++ [id], rfl, first, ih more⟩

theorem AllAt.imp (all : AllAt t args ids) (each : ∀ e ∈ args, ∀ id, e.At t id → e.At t' id) : AllAt t' args ids := by
  induction args generalizing ids with
  | nil => exact all
  | cons e rest ih =>
    obtain ⟨i, others, rfl, here, more⟩ := all
    exact ⟨i, others, rfl, each e (.head _) i here, ih more fun x member => each x (.tail _ member)⟩

/-- An expression stays where it is as long as the nodes do. Names may be resolved. -/
theorem At.transfer (here : e.At t id) (same : ∀ i, i.index < t.size → t'.form i = t.form i ∨
    ∃ name field type field' type', t.form i = .lookup name field type ∧ t'.form i = .lookup name field' type') :
    e.At t' id := by
  have kept {i : NodeId} {form : Form NodeId} (inside : i.index < t.size) (old : t.form i = form)
      (other : ∀ name field type, form ≠ .lookup name field type) : t'.form i = form := by
    rcases same i inside with same | ⟨name, field, type, _, _, lookup, -⟩
    · exact same.trans old
    · exact absurd (old.symm.trans lookup) (other name field type)
  induction e generalizing id with
  | leaf l =>
    cases l with
    | name text =>
      rcases same id here.inRange with same | ⟨_, _, _, field', type', old, new⟩
      · rwa [At, same]
      · obtain ⟨field, type, form⟩ := here
        rw [form] at old
        cases old
        exact ⟨field', type', new⟩
    | _ => exact kept here.inRange here (by simp)
  | grouping inner ih | unary op inner ih | update op isPrefix inner ih | member inner name ih =>
    have inside := here.inRange
    obtain ⟨i, form, innerAt⟩ := here
    exact ⟨i, kept inside form (by simp), ih innerAt⟩
  | binary op left right ihLeft ihRight | index left right ihLeft ihRight =>
    have inside := here.inRange
    obtain ⟨i, j, form, leftAt, rightAt⟩ := here
    exact ⟨i, j, kept inside form (by simp), ihLeft leftAt, ihRight rightAt⟩
  | conditional condition consequent alternate ihCondition ihConsequent ihAlternate =>
    have inside := here.inRange
    obtain ⟨i, j, k, form, conditionAt, consequentAt, alternateAt⟩ := here
    exact ⟨i, j, k, kept inside form (by simp), ihCondition conditionAt, ihConsequent consequentAt,
      ihAlternate alternateAt⟩
  | call callee args isNew ihCallee ihArgs =>
    have inside := here.inRange
    obtain ⟨i, ids, form, calleeAt, argsAt⟩ := here
    exact ⟨i, ids, kept inside form (by simp), ihCallee calleeAt,
      argsAt.imp fun arg member id here => ihArgs arg member here⟩

end Expr

/-- The nonterminals that operands of a level are read by. -/
inductive Goal.Serves : Goal → Level → Prop
  | assignment : Serves .assignment .assignment
  | unary : Serves .unary .unary
  | binary {min : Level} : min.below .coalesce = false → min.below .unary = true → Serves (.binary min.rank) min

namespace Parse

variable {rules : Rules} {input rest tokens : List Token} {b : Bool} {n : Nat} {name : String} {escaped : Bool} {β : Type}
  {Q : Tree → β → Prop}

theorem reads_rescanSlash {f : PUnit → Parse β}
    (other : ((input.headD .endOfInput).is .slash || (input.headD .endOfInput).is .slashEq) = false)
    (then' : Reads b n (f ⟨⟩) input rest Q) : Reads b n (rescanSlash >>= f) input rest Q := by
  refine .look (fun s awaits => ?_) then'
  rw [← awaits.token] at other
  simp only [rescanSlash, lexeme, Bind.bind, EStateM.bind, get_run, pure_run, other, Bool.false_eq_true, if_false]

theorem reads_nameHere? {f : Option String → Parse β}
    (then' : Reads b n (f (some name)) (.identifier name escaped :: input) rest Q) :
    Reads b n (nameHere? >>= f) (.identifier name escaped :: input) rest Q := by
  refine .look (fun s awaits => ?_) then'
  have token : s.current.token = .identifier name escaped := awaits.token
  simp only [nameHere?, Parse.token, Bind.bind, EStateM.bind, get_run, pure_run, token]

theorem leaf_reads {t : Token} {l : Leaf} {form : Form NodeId} (start : Span) (has : l.Has form) :
    Reads b n (leaf form start) (t :: rest) rest (Expr.leaf l).At := by
  refine reads_bump fun _ => (reads_alloc form start).imp fun t id same => ?_
  show l.Has (t.form id)
  rwa [same.2]

theorem primary_name (stops : StopsAt .primary rest) :
    Reads b n (primary rules) (.identifier name escaped :: rest) rest (Expr.leaf (.name name)).At := by
  refine reads_place fun start => reads_rescanSlash rfl (reads_token (reads_nameHere? (reads_get fun _ _ =>
    reads_bump fun _ => reads_isAt ?_)))
  rw [stops.not_is rfl rfl]
  exact (reads_alloc _ start).imp fun t id form => ⟨none, .variable, form.2⟩

theorem primary_leaf {l : Leaf} (stops : StopsAt .primary rest) :
    Reads b n (primary rules) (l.token :: rest) rest (Expr.leaf l).At := by
  cases l with
  | name text => exact primary_name stops
  | this | null | string text =>
    exact reads_place fun start => reads_rescanSlash rfl (reads_token (leaf_reads start rfl))
  | boolean value =>
    cases value <;> exact reads_place fun start => reads_rescanSlash rfl (reads_token (leaf_reads start rfl))

/-- Whether the rules read back every operand where up to so many tokens are left. -/
def ReadsUpTo (rules : Rules) (n : Nat) : Prop :=
  ∀ {goal : Goal} {min : Level}, goal.Serves min → ∀ {e read : Expr} {tokens rest : List Token},
    e.Valid → e.Fitted min tokens read → StopsAt min rest → Reads true n (rules goal) (tokens ++ rest) rest read.At

def itemStep {σ β : Type} (rules : Rules) (taken : σ → List NodeId) (more : List NodeId → σ) (stop : σ → β)
    (last : List NodeId → β) (x : σ) : Parse (Turn σ β) := do
  if ← isAt .rParen then return .done (stop x)
  else
    let item ← spreadable rules
    if ← eat .comma then return .again (more (item :: taken x)) else return .done (last (item :: taken x))

def commaTokens (items : List Expr) : List Token :=
  items.flatMap fun e => .punctuator .comma :: e.tokens .assignment

theorem listed_eq (e : Expr) (items : List Expr) :
    Expr.listed (e :: items) = e.tokens .assignment ++ commaTokens items := by
  induction items generalizing e with
  | nil => simp [Expr.listed, commaTokens, Expr.tokens]
  | cons d items ih =>
    rw [Expr.listed_cons e (by simp), ih d]
    rfl

theorem stopsAt_commaTokens (stops : StopsAt .comma rest) : StopsAt .assignment (commaTokens items ++ rest) := by
  cases items with
  | nil => exact stops.mono rfl
  | cons e items =>
    refine .cons fun level joins => ?_
    cases joins
    rfl

/-- The first token of an expression does not close a list. -/
theorem not_rParen_of_listed {more : List Token} :
    ((Expr.listed (e :: items) ++ more).headD .endOfInput).is .rParen = false := by
  obtain ⟨t, others, same, opens⟩ := (e.fitted_placed .assignment).opens
  rw [listed_eq, Expr.tokens, same]
  exact Token.not_is opens rfl

variable (reads : ReadsUpTo rules n)

include reads

theorem spreadable_reads {read : Expr} (valid : e.Valid) (fitted : e.Fitted .assignment tokens read)
    (stops : StopsAt .assignment rest) : Reads true n (spreadable rules) (tokens ++ rest) rest read.At := by
  refine reads_place fun start => reads_eat_of_ne ?_ (reads .assignment valid fitted stops)
  obtain ⟨t, more, rfl, opens⟩ := fitted.opens
  exact Token.not_is opens rfl

/-- Expressions behind commas are joined to what was read before. -/
theorem commaSteps_read {left : Expr} (start : Span) (valid : Expr.AllValid items) (stops : StopsAt .comma rest) :
    Loops true n (commaStep rules start) id (commaTokens items ++ rest) rest fun t joined =>
      left.At t id → ((Expr.rereadAll items).foldl (.binary .comma) left).At t joined := by
  induction items generalizing left id with
  | nil => exact .done (reads_eat_of_ne (stops.not_is rfl rfl) (reads_pure fun _ here => here))
  | cons e items ih =>
    have split : commaTokens (e :: items) ++ rest =
        .punctuator .comma :: (e.tokens .assignment ++ (commaTokens items ++ rest)) := by simp [commaTokens]
    rw [split]
    refine .step (reads_eat ((reads .assignment valid.1 (e.fitted_placed .assignment) (stopsAt_commaTokens stops)).bind
      fun right => (reads_allocFrom _ start).bind fun joined => reads_pure ?_)) ?_ fun joined => ih valid.2
    · exact fun t form rightAt here => ⟨id, right, form, here, rightAt⟩
    · simp only [length_cons, length_append]
      omega

theorem expression_reads (valid : e.Valid) (stops : StopsAt .comma rest) :
    Reads true n (expression rules) (e.bare ++ rest) rest e.reread.At := by
  obtain ⟨first, others, items, fold, -⟩ := e.reread_eq_foldl
  have validItems := valid.commaItems
  rw [e.bare_eq_listed]
  generalize e.commaItems = list at items validItems
  cases list with
  | nil => cases items
  | cons x xs =>
    obtain ⟨rfl, rfl⟩ := List.cons.inj items
    rw [listed_eq, append_assoc, fold]
    exact reads_place fun start => (reads .assignment validItems.1 (x.fitted_placed .assignment)
      (stopsAt_commaTokens stops)).bind fun id => reads_cycle (commaSteps_read reads start validItems.2 stops)

theorem itemSteps_read {σ β : Type} {taken : σ → List NodeId} {more : List NodeId → σ} {stop : σ → β}
    {last : List NodeId → β} {x : σ} (before : List Expr) (same : ∀ ids, taken (more ids) = ids)
    (ends : items = [] → stop x = last (taken x)) (valid : Expr.AllValid items) :
    Loops true n (itemStep rules taken more stop last) x (Expr.listed items ++ .punctuator .rParen :: rest)
      (.punctuator .rParen :: rest) fun t result => Expr.AllAt t before (taken x).reverse →
        ∃ ids, result = last ids ∧ Expr.AllAt t (before ++ Expr.rereadAll items) ids.reverse := by
  induction items generalizing before x with
  | nil =>
    refine .done (reads_isAt (reads_pure fun t here => ⟨taken x, ends rfl, ?_⟩))
    rwa [Expr.rereadAll, append_nil]
  | cons e items ih =>
    have atEnd : StopsAt .comma (.punctuator .rParen :: rest) := .cons fun level joins => by cases joins
    have stops : StopsAt .assignment (commaTokens items ++ .punctuator .rParen :: rest) := stopsAt_commaTokens atEnd
    have item := spreadable_reads reads valid.1 (e.fitted_placed .assignment) stops
    have longer {t : Tree} {id : NodeId} (itemAt : (Expr.placed e.level .assignment e.reread).At t id)
        (here : Expr.AllAt t before (taken x).reverse) :
        Expr.AllAt t (before ++ [.placed e.level .assignment e.reread]) (id :: taken x).reverse := by
      rw [reverse_cons]
      exact here.concat itemAt
    have split : Expr.listed (e :: items) ++ .punctuator .rParen :: rest =
        e.tokens .assignment ++ (commaTokens items ++ .punctuator .rParen :: rest) := by rw [listed_eq, append_assoc]
    cases items with
    | nil =>
      refine .done (reads_isAt ?_)
      rw [not_rParen_of_listed, split]
      exact item.bind fun id => reads_eat_of_ne rfl (reads_pure fun t itemAt here => ⟨_, rfl, longer itemAt here⟩)
    | cons d items =>
      have others (y : σ) := ih (x := y) (before ++ [.placed e.level .assignment e.reread]) (absurd · (cons_ne_nil d items)) valid.2
      simp only [append_assoc] at others
      refine .step (reads_isAt ?_) ?_ others
      · rw [not_rParen_of_listed, split]
        refine item.bind fun id => ?_
        rw [show commaTokens (d :: items) = .punctuator .comma :: Expr.listed (d :: items) by rw [listed_eq]; rfl]
        refine reads_eat (reads_pure fun t itemAt here => ?_)
        rw [same]
        exact longer itemAt here
      · obtain ⟨t, others, same, -⟩ := (e.fitted_placed .assignment).opens
        simp only [commaTokens, flatMap_cons, listed_eq, Expr.tokens, same, length_append, length_cons]
        omega

theorem arguments_reads (valid : Expr.AllValid args) :
    Reads b (n + 1) (arguments rules) (enclosed (Expr.listed args) ++ rest) rest (Expr.AllAt · (Expr.rereadAll args)) := by
  rw [enclosed_append]
  let step : List NodeId → Parse (Turn (List NodeId) (List NodeId)) :=
    itemStep rules (fun ids => ids) (fun ids => ids) (fun ids => ids) fun ids => ids
  have items : Reads true n (cycle [] step) (Expr.listed args ++ .punctuator .rParen :: rest) (.punctuator .rParen :: rest) _ :=
    reads_cycle (itemSteps_read reads [] (fun _ => rfl) (fun _ => rfl) valid)
  refine reads_expect_less fun _ => (reads_allowingIn items).bind fun ids => reads_expect fun _ => reads_pure fun t found => ?_
  obtain ⟨ids, rfl, all⟩ := found rfl
  exact all

omit reads

theorem joinItems_reads (id : NodeId) (ids : List NodeId) :
    Reads b n (joinItems id ids) input input fun t joined => ∀ first others,
      Expr.At t first id → Expr.AllAt t others ids → (others.foldl (.binary .comma) first).At t joined := by
  induction ids generalizing id with
  | nil =>
    refine reads_pure fun t first others here more => ?_
    cases others with
    | nil => exact here
    | cons e others =>
      obtain ⟨_, _, none, -⟩ := more
      cases none
  | cons i ids ih =>
    have step : Reads b n (do
        let span := (← spanOf id).merge (← spanOf i)
        alloc (.binary .comma id i) span) input input _ := reads_spanOf fun _ => reads_spanOf fun _ => reads_alloc _ _
    refine step.bind fun joined => (ih joined).imp fun t _ folded form first others here more => ?_
    cases others with
    | nil => cases more
    | cons e others =>
      obtain ⟨_, _, same, next, more⟩ := more
      cases same
      exact folded (.binary .comma first e) others ⟨id, i, form.2, here, next⟩ more

theorem not_isSpread {t : Tree} (here : e.At t id) : isSpread (t.form id) = false := by
  unfold isSpread
  split
  · rename_i argument form
    cases e with
    | leaf l => cases l <;> simp [Expr.At, Leaf.Has, form] at here
    | _ => simp [Expr.At, form] at here
  · rfl

theorem find?_isSpread {t : Tree} (all : Expr.AllAt t items ids) :
    ids.find? (fun id => isSpread (t.form id)) = none := by
  induction items generalizing ids with
  | nil =>
    obtain rfl : ids = [] := all
    rfl
  | cons e items ih =>
    obtain ⟨i, others, rfl, here, more⟩ := all
    rw [find?_cons, not_isSpread here]
    exact ih more

/-- Expressions in parentheses, none of which is spread, are joined by commas. -/
theorem grouping_reads {first : Expr} {others : List Expr} {s : ParseState} (start : Span) (awaits : s.Awaits b rest)
    (all : ∀ t, s.tree.Grows t → Expr.AllAt t (first :: others) ids) : ReadsFrom (grouping ids false start) s rest rest
      (Expr.grouping (others.foldl (.binary .comma) first)).At := by
  have noSpread := find?_isSpread (all _ (.refl _))
  obtain ⟨id, ids, rfl, -⟩ := all _ (.refl _)
  have joined : Reads b rest.length (do allocFrom (.grouping (← joinItems id ids)) start) rest rest fun t grouped =>
      Expr.AllAt t (first :: others) (id :: ids) → (Expr.grouping (others.foldl (.binary .comma) first)).At t grouped := by
    refine (joinItems_reads id ids).bind fun joined => (reads_allocFrom _ start).imp fun t grouped form folded => ?_
    rintro ⟨_, _, same, here, more⟩
    cases same
    exact ⟨joined, form, folded _ _ here more⟩
  obtain ⟨grouped, s', run, passes, holds⟩ := joined s awaits .refl
  refine ⟨grouped, s', ?_, passes, fun t grows => holds t grows (all t (passes.tree.trans grows))⟩
  refine (bind_run (get_run s)).trans ?_
  simpa only [Bool.false_eq_true, if_false, noSpread] using run

include reads

theorem parenthesizedItems_reads (rest : List Token) (valid : Expr.AllValid items) (some : items ≠ []) :
    Reads b n (parenthesizedItems rules) (Expr.listed items ++ .punctuator .rParen :: rest) (.punctuator .rParen :: rest)
      fun t result => result.2 = false ∧ Expr.AllAt t (Expr.rereadAll items) result.1 := by
  let step : List NodeId × Bool → Parse (Turn (List NodeId × Bool) (List NodeId × Bool)) :=
    itemStep rules Prod.fst (·, true) (fun x => (x.1.reverse, x.2)) (·.reverse, false)
  have steps : Loops true n step ([], false) (Expr.listed items ++ .punctuator .rParen :: rest) (.punctuator .rParen :: rest) _ :=
    itemSteps_read reads [] (fun _ => rfl) (fun none => absurd none some) valid
  refine reads_allowingIn (reads_cycle (steps.imp fun t result found => ?_))
  obtain ⟨ids, rfl, all⟩ := found rfl
  exact ⟨rfl, all⟩

/-- An expression in parentheses is read as a grouping. -/
theorem parenthesized_reads (start : Span) (valid : e.Valid) (stops : StopsAt .primary rest) :
    Reads b (n + 1) (parenthesized rules start false) (enclosed e.bare ++ rest) rest (Expr.grouping e.reread).At := by
  obtain ⟨first, others, items, fold, -⟩ := e.reread_eq_foldl
  rw [enclosed_append, e.bare_eq_listed, fold]
  have list := parenthesizedItems_reads (b := b) reads rest valid.commaItems e.commaItems_ne_nil
  rw [items] at list
  refine reads_get fun _ _ => reads_expect_less fun _ => list.bindAt fun found s awaits few holds => ?_
  obtain ⟨ids, trailing⟩ := found
  obtain rfl : trailing = false := (holds _ (.refl _)).1
  obtain ⟨l, s', run, passes⟩ := expect_run awaits rfl
  have awaits' := awaits.after passes
  refine .of_run (bind_run run) passes (.of_run (bind_run (isAt_run awaits')) awaits'.passes ?_)
  rw [stops.not_is rfl rfl]
  exact grouping_reads start awaits' fun t grows => (holds t (passes.tree.trans grows)).2

theorem primary_enclosed (valid : e.Valid) (stops : StopsAt .primary rest) :
    Reads b (n + 1) (primary rules) (enclosed e.bare ++ rest) rest (Expr.grouping e.reread).At :=
  reads_place fun start => reads_rescanSlash rfl (reads_token (parenthesized_reads reads start valid stops))

end Parse

end Condense
