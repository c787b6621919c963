import Condense.Proofs.Expression.Tokens
import Condense.Proofs.Token.Stream

/-!
The expression that the tokens of an expression are read back as.
-/

namespace Condense.Expr

open List

variable {op : BinaryOp} {min : Level} {e : Expr}

theorem join_of_ne {left right : Expr}
    (apart : ∀ first second, right = binary op first second → op.isAssociative = false) :
    join op left right = binary op left right := by
  cases right with
  | binary inner first second =>
    rw [join, if_neg]
    rintro ⟨rfl, associative⟩
    simp [associative] at apart
  | _ => rfl

theorem join_assoc (associative : op.isAssociative) (first second third : Expr) :
    join op (join op first second) third = join op first (join op second third) := by
  induction third with
  | binary inner left right ihLeft =>
    by_cases same : inner = op
    · subst same
      simp only [join, associative, and_self, if_true, ihLeft]
    · simp [join, same, associative]
  | _ => simp [join, associative]

theorem canonical_join (op : BinaryOp) (left right : Expr) :
    (join op left right).canonical = join op left.canonical right.canonical := by
  induction right with
  | binary inner first second ihFirst =>
    by_cases chain : inner = op ∧ op.isAssociative
    · obtain ⟨rfl, associative⟩ := chain
      simp only [join, associative, and_self, if_true, canonical, ihFirst]
      exact join_assoc associative _ _ _
    · simp only [join, chain, if_false, canonical]
  | _ => rfl

theorem join_eq_binary (op : BinaryOp) (left right : Expr) : ∃ first second, join op left right = binary op first second := by
  cases right with
  | binary inner first second =>
    rw [join]
    split <;> exact ⟨_, _, rfl⟩
  | _ => exact ⟨_, _, rfl⟩

/-- An operand as it is read where a level is demanded. -/
def placed (level min : Level) (e : Expr) : Expr :=
  if level.below min then grouping e else e

def placedOperand (op : BinaryOp) (operand : Expr) (min : Level) (e : Expr) : Expr :=
  if mixes op operand then grouping e else placed operand.level min e

mutual

/-- The expression that its tokens are read as. -/
def reread : Expr → Expr
  | leaf l => leaf l
  | grouping inner => inner.reread
  | unary op operand => unary op (placed operand.level .unary operand.reread)
  | update op true operand => update op true (placed operand.level .unary operand.reread)
  | update op false operand => update op false (placed operand.level .leftHandSide operand.reread)
  | binary op left right =>
    join op (placedOperand op left (leftLevel op) left.reread)
      (placedOperand op right (rightLevel op right) right.reread)
  | conditional condition consequent alternate =>
    conditional (placed condition.level .coalesce condition.reread)
      (placed consequent.level .assignment consequent.reread)
      (placed alternate.level .assignment alternate.reread)
  | member object name => member (placed object.level .leftHandSide object.reread) name
  | index object key => index (placed object.level .leftHandSide object.reread) key.reread
  | call callee args false => call (placed callee.level .leftHandSide callee.reread) (rereadAll args) false
  | call callee args true =>
    call (if callee.containsCall then grouping callee.reread else placed callee.level .bareNew callee.reread)
      (rereadAll args) true

def rereadAll : List Expr → List Expr
  | [] => []
  | e :: rest => placed e.level .assignment e.reread :: rereadAll rest

end

@[simp] theorem canonical_placed (level min : Level) (e : Expr) : (placed level min e).canonical = e.canonical := by
  unfold placed
  split <;> simp [canonical]

@[simp] theorem canonical_placedOperand (op : BinaryOp) (operand : Expr) (min : Level) (e : Expr) :
    (placedOperand op operand min e).canonical = e.canonical := by
  unfold placedOperand
  split <;> simp [canonical]

/-- Reading back changes only what the canonical form leaves out. -/
theorem canonical_reread (e : Expr) : e.reread.canonical = e.canonical := by
  induction e with
  | leaf l => rfl
  | grouping inner ih => simpa [reread, canonical] using ih
  | unary op operand ih | member object name ih => simp [reread, canonical, ih]
  | update op isPrefix operand ih => cases isPrefix <;> simp [reread, canonical, ih]
  | binary op left right ihLeft ihRight => simp [reread, canonical, canonical_join, ihLeft, ihRight]
  | conditional condition consequent alternate ihCondition ihConsequent ihAlternate =>
    simp [reread, canonical, ihCondition, ihConsequent, ihAlternate]
  | index object key ihObject ihKey => simp [reread, canonical, ihObject, ihKey]
  | call callee args isNew ihCallee ihArgs =>
    have all : canonicalAll (rereadAll args) = canonicalAll args := by
      induction args with
      | nil => rfl
      | cons arg rest ih =>
        simp only [rereadAll, canonicalAll, canonical_placed]
        rw [ihArgs arg (.head _), ih fun x member => ihArgs x (.tail _ member)]
    cases isNew with
    | false => simp [reread, canonical, ihCallee, all]
    | true =>
      simp only [reread, canonical, all]
      split <;> simp [canonical, ihCallee]

/-- Whether `tokens` is a way to write the expression where `min` is demanded, and `read` what they are read as. -/
inductive Fitted (min : Level) (e : Expr) : List Token → Expr → Prop
  | bare : e.level.below min = false → Fitted min e e.bare e.reread
  | enclosed : Fitted min e (enclosed e.bare) (grouping e.reread)

theorem fitted_placed (e : Expr) (min : Level) :
    Fitted min e (fitted e.level min e.bare) (placed e.level min e.reread) := by
  unfold Condense.fitted placed
  split
  · exact .enclosed
  · rename_i tight
    exact .bare (by simpa using tight)

theorem fitted_placedOperand (op : BinaryOp) (e : Expr) (min : Level) :
    Fitted min e (fittedOperand op e min e.bare) (placedOperand op e min e.reread) := by
  unfold fittedOperand placedOperand
  split
  · exact .enclosed
  · exact fitted_placed e min

theorem Fitted.grouping {read : Expr} {tokens : List Token}
    (fitted : Fitted min (grouping e) tokens read) : Fitted min e tokens read := by
  cases fitted with
  | bare tight =>
    simp only [Expr.bare, reread]
    exact .bare tight
  | enclosed =>
    simp only [Expr.bare, reread]
    exact .enclosed

theorem reread_ne_binary (apart : e.level ≠ op.level) (first second : Expr) : e.reread ≠ binary op first second := by
  induction e with
  | grouping inner ih => exact ih apart
  | binary inner left right =>
    intro same
    obtain ⟨_, _, joined⟩ := join_eq_binary inner (placedOperand inner left (leftLevel inner) left.reread)
      (placedOperand inner right (rightLevel inner right) right.reread)
    rw [reread, joined] at same
    obtain ⟨rfl, -, -⟩ := binary.inj same
    exact apart rfl
  | update op isPrefix operand => cases isPrefix <;> simp [reread]
  | call callee args isNew => cases isNew <;> simp [reread]
  | _ => simp [reread]

theorem Fitted.ne_binary {read : Expr} {tokens : List Token} (fitted : Fitted min e tokens read)
    (tight : op.level.below min) (first second : Expr) : read ≠ binary op first second := by
  cases fitted with
  | bare fits =>
    refine reread_ne_binary ?_ first second
    intro same
    simp [same, tight] at fits
  | enclosed => exact nofun

def commaItems : Expr → List Expr
  | grouping inner => inner.commaItems
  | binary .comma left right => left.commaItems ++ right.commaItems
  | e => [e]

theorem not_below_comma (level : Level) : level.below .comma = false := by
  cases level <;> rfl

theorem chains_of_level_comma (loose : e.level.below .assignment) : chains .comma e := by
  induction e with
  | grouping inner ih => exact ih loose
  | binary op left right => cases op <;> first | rfl | cases loose
  | update op isPrefix operand => cases isPrefix <;> cases loose
  | call callee args isNew => cases args <;> cases isNew <;> cases loose
  | _ => cases loose

/-- No operand of a comma stands in parentheses. -/
theorem not_below_rightLevel_comma (right : Expr) : right.level.below (rightLevel .comma right) = false := by
  unfold rightLevel
  split
  · exact not_below_comma _
  · rename_i noChain
    refine Bool.eq_false_iff.mpr fun loose => noChain (chains_of_level_comma loose)

theorem fittedOperand_comma {operand : Expr} (fits : operand.level.below min = false)
    (tokens : List Token) : fittedOperand .comma operand min tokens = tokens := by
  simp [fittedOperand, mixes, fitted, fits]

theorem placedOperand_comma {operand : Expr} (fits : operand.level.below min = false) (e : Expr) :
    placedOperand .comma operand min e = e := by
  simp [placedOperand, mixes, placed, fits]

theorem bare_comma (left right : Expr) :
    (binary .comma left right).bare = left.bare ++ .punctuator .comma :: right.bare := by
  have loosest : left.level.below (leftLevel .comma) = false := not_below_comma _
  rw [bare, fittedOperand_comma loosest, fittedOperand_comma (not_below_rightLevel_comma right)]
  rfl

theorem reread_comma (left right : Expr) :
    (binary .comma left right).reread = join .comma left.reread right.reread := by
  have loosest : left.level.below (leftLevel .comma) = false := not_below_comma _
  rw [reread, placedOperand_comma loosest, placedOperand_comma (not_below_rightLevel_comma right)]

theorem listed_cons (e : Expr) {rest : List Expr} (more : rest ≠ []) :
    listed (e :: rest) = fitted e.level .assignment e.bare ++ .punctuator .comma :: listed rest := by
  rwa [listed]

theorem listed_append {first second : List Expr} (some : first ≠ []) (more : second ≠ []) :
    listed (first ++ second) = listed first ++ .punctuator .comma :: listed second := by
  induction first with
  | nil => exact absurd rfl some
  | cons e rest ih =>
    cases rest with
    | nil => exact listed_cons e more
    | cons d others =>
      rw [cons_append, listed_cons e (by simp), ih (by simp), listed_cons e (by simp), append_assoc, cons_append]

theorem rereadAll_append (first second : List Expr) :
    rereadAll (first ++ second) = rereadAll first ++ rereadAll second := by
  induction first with
  | nil => rfl
  | cons e rest ih => simp [rereadAll, ih]

theorem commaItems_ne_nil (e : Expr) : e.commaItems ≠ [] := by
  fun_induction commaItems e <;> simp_all

theorem commaItems_of_other (noGrouping : ∀ inner, e = grouping inner → False)
    (noComma : ∀ left right, e = binary .comma left right → False) : e.level.below .assignment = false := by
  refine Bool.eq_false_iff.mpr fun loose => ?_
  have chain := chains_of_level_comma loose
  cases e with
  | grouping inner => exact noGrouping inner rfl
  | binary op left right =>
    obtain ⟨-, rfl⟩ : _ ∧ op = .comma := by simpa [chains, unwrap] using chain
    exact noComma left right rfl
  | _ => cases chain

theorem bare_eq_listed (e : Expr) : e.bare = listed e.commaItems := by
  fun_induction commaItems e with
  | case1 inner ih => simpa [bare] using ih
  | case2 left right ihLeft ihRight =>
    rw [bare_comma, listed_append left.commaItems_ne_nil right.commaItems_ne_nil, ihLeft, ihRight]
  | case3 e noGrouping noComma => simp [listed, fitted, commaItems_of_other noGrouping noComma]

theorem join_foldl_comma (left first : Expr) (rest : List Expr) :
    join .comma left (rest.foldl (binary .comma) first) = rest.foldl (binary .comma) (join .comma left first) := by
  induction rest generalizing first with
  | nil => rfl
  | cons e rest ih =>
    rw [foldl_cons, ih, foldl_cons, join, if_pos ⟨rfl, rfl⟩]

/-- Expressions that commas separate are joined from the left. -/
theorem reread_eq_foldl (e : Expr) : ∃ first rest, rereadAll e.commaItems = first :: rest ∧
    e.reread = rest.foldl (binary .comma) first ∧ ∀ left right, first ≠ binary .comma left right := by
  fun_induction commaItems e with
  | case1 inner ih => simpa [reread] using ih
  | case2 left right ihLeft ihRight =>
    obtain ⟨first, rest, itemsLeft, foldLeft, apart⟩ := ihLeft
    obtain ⟨second, others, itemsRight, foldRight, apart'⟩ := ihRight
    refine ⟨first, rest ++ second :: others, ?_, ?_, apart⟩
    · rw [rereadAll_append, itemsLeft, itemsRight, cons_append]
    · rw [reread_comma, foldLeft, foldRight, join_foldl_comma, foldl_append, foldl_cons,
        join_of_ne fun left right same => absurd same (apart' left right)]
  | case3 e noGrouping noComma =>
    have tight := commaItems_of_other noGrouping noComma
    refine ⟨e.reread, [], by simp [rereadAll, placed, tight], rfl, reread_ne_binary ?_⟩
    intro same
    simp [same] at tight
    cases tight

def isTarget (e : Expr) : Bool :=
  match e.unwrap with
  | leaf (.name _) | member .. | index .. => true
  | _ => false

mutual

/-- Whether names are words of the language and what is assigned to is a name, a member or an element. -/
def Valid : Expr → Prop
  | leaf l => l.token.Plain
  | grouping inner | unary _ inner => inner.Valid
  | update _ _ operand => operand.Valid ∧ operand.isTarget = true
  | binary op left right => left.Valid ∧ right.Valid ∧ (op.isAssignment = true → left.isTarget = true)
  | conditional condition consequent alternate => condition.Valid ∧ consequent.Valid ∧ alternate.Valid
  | member object name => object.Valid ∧ (Token.identifier name false).Plain
  | index object key => object.Valid ∧ key.Valid
  | call callee args _ => callee.Valid ∧ AllValid args

def AllValid : List Expr → Prop
  | [] => True
  | e :: rest => e.Valid ∧ AllValid rest

end

theorem AllValid.append {first second : List Expr} (some : AllValid first) (more : AllValid second) :
    AllValid (first ++ second) := by
  induction first with
  | nil => exact more
  | cons e rest ih => exact ⟨some.1, ih some.2⟩

theorem Valid.commaItems (valid : e.Valid) : AllValid e.commaItems := by
  fun_induction Expr.commaItems e with
  | case1 inner ih => exact ih valid
  | case2 left right ihLeft ihRight => exact (ihLeft valid.1).append (ihRight valid.2.1)
  | case3 => exact ⟨valid, trivial⟩

end Condense.Expr
