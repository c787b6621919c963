import Condense.Proofs.Expression.Tokens
import Condense.Proofs.Output.Spelling

/-!
Printing an expression writes its tokens, each as a piece of its own.
-/

namespace Condense

open List Printer

variable {e : Expr} {id : NodeId} {t : Tree} {c : Style}

namespace Spells

variable {inlineSafe : Bool} {pieces others : List Piece} {tokens rest : List Token}

theorem parenthesize (inner : Spells inlineSafe pieces tokens) :
    Spells inlineSafe (parenthesize pieces) (enclosed tokens) :=
  ((mark .lParen).append inner).append (mark .rParen)

theorem fitted {level min : Level} (inner : Spells inlineSafe pieces tokens) :
    Spells inlineSafe (if level.below min then Condense.parenthesize pieces else pieces)
      (fitted level min tokens) := by
  unfold Condense.fitted
  split
  · exact inner.parenthesize
  · exact inner

end Spells

namespace Style

theorem space_spells (c : Style) (inlineSafe : Bool) : Spells inlineSafe c.space [] := by
  unfold space
  split
  · exact .space .nil
  · exact .nil

theorem operator_spells (c : Style) {inlineSafe : Bool} {text : String} {t : Token}
    (same : t.spelled inlineSafe = text) : Spells inlineSafe (c.operator text) [t] :=
  ((c.space_spells _).append (.single same)).append (c.space_spells _)

/-- Whether pieces are the given tokens, with strings as the settings of the style want them. -/
abbrev Spelled (c : Style) (pieces : List Piece) (tokens : List Token) : Prop :=
  Spells c.settings.inlineSafeStrings pieces tokens

/-- A style that lets `in` stand anywhere and writes names as they are. -/
structure Plain (c : Style) : Prop where
  allowsIn : c.noIn = false
  ownNames : ∀ id name field type, c.tree.form id = .lookup name field type → c.outputName name field = name

theorem Plain.nested (plain : c.Plain) : c.nested = c := by
  have := plain.allowsIn
  cases c
  simp_all [Style.nested]

end Style

namespace Expr

open Style (Plain)

theorem At.level (here : e.At c.tree id) (bare : e.isGrouping = false) : c.level id = e.level := by
  cases e with
  | grouping inner => cases bare
  | leaf l => cases l with
    | name text =>
      obtain ⟨field, type, form⟩ := here
      simp [Style.level, form, Form.level, Expr.level]
    | _ => simp [Style.level, show c.tree.form id = _ from here, Form.level, Expr.level]
  | update op isPrefix operand =>
    obtain ⟨i, form, -⟩ := here
    cases isPrefix <;> simp [Style.level, form, Form.level, Expr.level]
  | call callee args isNew =>
    obtain ⟨i, ids, form, -, argsAt⟩ := here
    cases args <;> cases isNew <;> grind [Style.level, Form.level, Expr.level, AllAt]
  | binary op left right | index left right =>
    obtain ⟨i, j, form, -⟩ := here
    simp [Style.level, form, Form.level, Expr.level]
  | conditional condition consequent alternate =>
    obtain ⟨i, j, k, form, -⟩ := here
    simp [Style.level, form, Form.level, Expr.level]
  | unary op operand | member operand name =>
    obtain ⟨i, form, -⟩ := here
    simp [Style.level, form, Form.level, Expr.level]

theorem At.containsCallUpTo {steps : Nat} (here : e.At t id)
    (enough : e.depth ≤ steps) : t.containsCallUpTo steps id = e.containsCall := by
  induction steps generalizing e id with
  | zero => exact absurd e.depth_pos (by omega)
  | succ fewer ih =>
    cases e with
    | grouping inner | member inner name =>
      obtain ⟨i, form, innerAt⟩ := here
      simp only [Tree.containsCallUpTo, form, containsCall]
      exact ih innerAt (Nat.le_of_succ_le_succ enough)
    | index object key =>
      obtain ⟨i, j, form, objectAt, -⟩ := here
      simp only [depth] at enough
      simp only [Tree.containsCallUpTo, form, containsCall]
      exact ih objectAt (by omega)
    | leaf l => cases l <;> grind [At, Leaf.Has, Tree.containsCallUpTo, containsCall]
    | _ => grind [At, Tree.containsCallUpTo, containsCall]

theorem At.containsCall (here : e.At t id) : t.containsCall id = e.containsCall :=
  here.containsCallUpTo (Nat.le_succ_of_le here.depth_le_size)

/-- None of these expressions starts like a statement of another kind. -/
theorem At.startsLikeStatementUpTo (here : e.At t id)
    (onlyObjects : Bool) (steps : Nat) : t.startsLikeStatementUpTo onlyObjects steps id = false := by
  induction steps generalizing e id with
  | zero => rfl
  | succ steps ih =>
    cases e with
    | leaf l => cases l <;> grind [At, Leaf.Has, Tree.startsLikeStatementUpTo]
    | update op isPrefix operand => cases isPrefix <;> grind [At, Tree.startsLikeStatementUpTo]
    | call callee args isNew => cases isNew <;> grind [At, Tree.startsLikeStatementUpTo]
    | _ => grind [At, Tree.startsLikeStatementUpTo]

theorem isGrouping_unwrap (e : Expr) : e.unwrap.isGrouping = false := by
  induction e with
  | grouping inner ih => exact ih
  | _ => rfl

theorem At.unwrapGrouping_of_bare (here : e.At t id) (bare : e.isGrouping = false) : t.unwrapGrouping id = id :=
  here.unwrapUpTo_of_bare bare t.size

theorem unwrap_tokens (e : Expr) (min : Level) : e.unwrap.tokens min = e.tokens min := by
  induction e with
  | grouping inner ih => exact ih
  | _ => rfl

theorem unwrap_depth (e : Expr) : e.unwrap.depth ≤ e.depth := by
  induction e with
  | grouping inner ih => exact Nat.le_succ_of_le ih
  | _ => exact .refl

@[simp] theorem tokens_comma (e : Expr) : e.tokens .comma = e.bare := by
  simp [tokens, fitted, Level.below, Level.rank, Level.ctorIdx]

/-- Whether a printer writes the tokens of the expression for the node, whatever level is demanded. -/
def Prints (p : Printer) (c : Style) (id : NodeId) (e : Expr) : Prop :=
  ∀ min, c.Spelled (p.expression c id min) (e.tokens min)

section

variable {p : Printer}

theorem Prints.list {args : List Expr} {ids : List NodeId} (all : AllAt c.tree args ids)
    (printed : ∀ arg ∈ args, ∀ i, arg.At c.tree i → Prints p c i arg) : c.Spelled (p.list c ids) (listed args) := by
  induction args generalizing ids with
  | nil =>
    cases all
    exact .nil
  | cons arg rest ih =>
    obtain ⟨i, others, rfl, argAt, restAt⟩ := all
    have first := printed arg (.head _) i argAt .assignment
    cases rest with
    | nil =>
      cases restAt
      exact first
    | cons next further =>
      have second := ih restAt fun x member => printed x (.tail _ member)
      obtain ⟨j, more, rfl, -, -⟩ := restAt
      simp only [Printer.list, map_cons, Style.separated, append_assoc, listed] at second ⊢
      exact first.append ((Spells.mark .comma).append ((c.space_spells _).append second))

variable (here : e.At c.tree id)

include here

/-- Parentheses in the source leave no trace. -/
theorem At.expressionAt_unwrap (min : Level) :
    p.expressionAt c (c.tree.unwrapGrouping id) min = p.expressionAt c id min := by
  have idempotent := here.unwrap.unwrapGrouping_of_bare e.isGrouping_unwrap
  simp only [expressionAt, idempotent]

theorem At.expressionAt_spells (plain : c.Plain) (bare : e.isGrouping = false)
    (inner : c.Spelled (p.bareExpression c id) e.bare) (min : Level) :
    c.Spelled (p.expressionAt c id min) (e.tokens min) := by
  simp only [expressionAt, here.unwrapGrouping_of_bare bare, here.level bare, plain.allowsIn,
    Bool.false_and, Bool.or_false, plain.nested]
  exact inner.fitted

theorem At.operand_eq (op : BinaryOp) (min : Level) :
    p.operand c op id min =
      if mixes op e then p.inParentheses c (c.tree.unwrapGrouping id) else p.expression c id min := by
  have unwrappedAt := here.unwrap
  unfold Printer.operand mixes
  generalize e.unwrap = inner at unwrappedAt
  cases inner with
  | leaf l => cases l <;> grind [At, Leaf.Has]
  | _ => grind [At]

theorem Prints.operand (plain : c.Plain) (printed : Prints p c id e)
    (unwrapped : Prints p c (c.tree.unwrapGrouping id) e) (op : BinaryOp) (min : Level) :
    c.Spelled (p.operand c op id min) (fittedOperand op e min e.bare) := by
  rw [here.operand_eq, fittedOperand]
  split
  · rw [inParentheses, plain.nested]
    exact (e.tokens_comma ▸ unwrapped .comma).parenthesize
  · exact printed min

theorem At.isChained (op : BinaryOp) : Printer.isChained c op id = chains op e := by
  have unwrappedAt := here.unwrap
  unfold Printer.isChained chains
  generalize e.unwrap = inner at unwrappedAt
  cases inner with
  | leaf l => cases l <;> grind [At, Leaf.Has]
  | _ => grind [At]

theorem Prints.memberObject (unwrapped : Prints p c (c.tree.unwrapGrouping id) e) :
    c.Spelled (p.memberObject c id) (e.tokens .leftHandSide) := by
  have noNumber : ∀ x, c.tree.form (c.tree.unwrapGrouping id) ≠ .constant (.number x) := by
    intro x form
    have unwrappedAt := here.unwrap
    generalize e.unwrap = inner at unwrappedAt
    cases inner with
    | leaf l => cases l <;> simp [At, Leaf.Has, form] at unwrappedAt
    | _ => simp [At, form] at unwrappedAt
  simp only [Printer.memberObject]
  exact unwrapped .leftHandSide

/-- A node is printed as its tokens if the nodes below it are. -/
theorem At.bareExpression_spells (plain : c.Plain) (bare : e.isGrouping = false)
    (below : ∀ child i, At c.tree child i → child.depth < e.depth → Prints p c i child) :
    c.Spelled (p.bareExpression c id) e.bare := by
  have unwrapped : ∀ child i, At c.tree child i → child.depth < e.depth →
      Prints p c (c.tree.unwrapGrouping i) child := by
    intro child i childAt smaller min
    rw [← child.unwrap_tokens]
    exact below _ _ childAt.unwrap (child.unwrap_depth.trans_lt smaller) min
  cases e with
  | grouping inner => cases bare
  | leaf l =>
    cases l with
    | name text =>
      obtain ⟨field, type, form⟩ := here
      simp only [bareExpression, form, plain.ownNames id text field type form]
      exact .token rfl .nil
    | boolean value =>
      have form : c.tree.form id = .constant (.boolean value) := here
      simp only [bareExpression, form, Style.literal]
      cases value <;> exact .single rfl
    | _ =>
      simp only [bareExpression, show c.tree.form id = _ from here, Style.literal, Style.stringLiteral]
      exact .single rfl
  | unary op operand =>
    obtain ⟨i, form, operandAt⟩ := here
    have printed := below operand i operandAt (by simp [depth]) .unary
    have gap : c.Spelled (if (op == .typeof || op == .void || op == .delete) = true then c.space else []) [] := by
      split
      · exact c.space_spells _
      · exact .nil
    simp only [bareExpression, form, append_assoc, Expr.bare]
    exact (Spells.single (op.token_spelled _)).append (gap.append printed)
  | update op isPrefix operand =>
    obtain ⟨i, form, operandAt⟩ := here
    have printed := below operand i operandAt (by simp [depth])
    cases isPrefix with
    | true =>
      simp only [bareExpression, form, Expr.bare]
      exact (Spells.single (op.token_spelled _)).append (printed .unary)
    | false =>
      simp only [bareExpression, form, Expr.bare]
      exact (printed .leftHandSide).append (Spells.single (op.token_spelled _))
  | binary op left right =>
    obtain ⟨i, j, form, leftAt, rightAt⟩ := here
    have shallowLeft : left.depth < (binary op left right).depth := by simp only [depth]; omega
    have shallowRight : right.depth < (binary op left right).depth := by simp only [depth]; omega
    have printedLeft := Prints.operand leftAt plain (below left i leftAt shallowLeft)
      (unwrapped left i leftAt shallowLeft) op (leftLevel op)
    have printedRight := Prints.operand rightAt plain (below right j rightAt shallowRight)
      (unwrapped right j rightAt shallowRight) op (rightLevel op right)
    have sign : c.Spelled
        (if (op == .comma) = true then [.token ","] ++ c.space else c.operator op.spelling) [op.token] := by
      split
      · rename_i comma
        obtain rfl : op = .comma := by simpa using comma
        exact (Spells.mark .comma).append (c.space_spells _)
      · exact c.operator_spells (op.token_spelled _)
    have levels : p.binary c op i j = p.operand c op i (leftLevel op) ++
        (if (op == .comma) = true then [.token ","] ++ c.space else c.operator op.spelling) ++
        p.operand c op j (rightLevel op right) := by
      simp only [Printer.binary, operandLevels, rightAt.isChained, leftLevel, rightLevel]
      grind
    simp only [bareExpression, form, levels, Expr.bare, append_assoc]
    exact printedLeft.append (sign.append printedRight)
  | conditional condition consequent alternate =>
    obtain ⟨i, j, k, form, conditionAt, consequentAt, alternateAt⟩ := here
    have first := below condition i conditionAt (by simp only [depth]; omega) .coalesce
    have second := below consequent j consequentAt (by simp only [depth]; omega) .assignment
    have third := below alternate k alternateAt (by simp only [depth]; omega) .assignment
    simp only [bareExpression, form, Expr.bare, append_assoc, cons_append]
    exact first.append ((c.operator_spells (t := .punctuator .question) rfl).append
      (second.append ((c.operator_spells (t := .punctuator .colon) rfl).append third)))
  | member object name =>
    obtain ⟨i, form, objectAt⟩ := here
    have printed := Prints.memberObject objectAt (unwrapped object i objectAt (by simp [depth]))
    simp only [bareExpression, form, Bool.false_eq_true, if_false, Expr.bare]
    exact printed.append ((Spells.mark .dot).append
      (Spells.single (t := .identifier name false) rfl))
  | index object key =>
    obtain ⟨i, j, form, objectAt, keyAt⟩ := here
    have printedObject := below object i objectAt (by simp only [depth]; omega) .leftHandSide
    have printedKey := below key j keyAt (by simp only [depth]; omega) .comma
    rw [tokens_comma] at printedKey
    simp only [bareExpression, form, plain.nested, Bool.false_eq_true, if_false, Expr.bare, append_assoc, cons_append]
    exact printedObject.append ((Spells.mark .lBracket).append
      (printedKey.append (Spells.mark .rBracket)))
  | call callee args isNew =>
    obtain ⟨i, ids, form, calleeAt, argsAt⟩ := here
    have printed := below callee i calleeAt (by simp only [depth]; omega)
    have printedArgs := (Prints.list argsAt fun arg member j argAt => below arg j argAt (by
      have := depth_le_depthAll member
      simp only [depth]
      omega)).parenthesize
    cases isNew with
    | false =>
      simp only [bareExpression, form, Printer.call, Printer.arguments, plain.nested,
        Bool.false_eq_true, if_false, append_nil, Expr.bare]
      exact (printed .leftHandSide).append printedArgs
    | true =>
      have empty : ids.isEmpty = args.isEmpty := by cases args <;> grind [AllAt]
      simp only [bareExpression, form, Printer.call, Printer.arguments, inParentheses,
        plain.nested, if_true, calleeAt.containsCall, empty, Expr.bare, cons_append,
        append_assoc]
      refine (Spells.single (t := .keyword .new) rfl).append (Spells.append ?_ ?_)
      · split
        · exact (callee.tokens_comma ▸ printed .comma).parenthesize
        · exact printed .bareNew
      · split
        · exact .nil
        · exact printedArgs

end

/-- A printer for enough levels writes the tokens of an expression. -/
theorem At.prints (plain : c.Plain) {levels : Nat}
    (here : e.At c.tree id) (enough : e.depth ≤ levels) : Prints (upTo levels) c id e := by
  induction levels generalizing e id with
  | zero => exact absurd e.depth_pos (by omega)
  | succ fewer ih =>
    intro min
    show Spells _ ((upTo fewer).expressionAt c id min) _
    rw [← here.expressionAt_unwrap, ← e.unwrap_tokens]
    refine here.unwrap.expressionAt_spells plain e.isGrouping_unwrap ?_ min
    refine here.unwrap.bareExpression_spells plain e.isGrouping_unwrap fun child i childAt smaller => ?_
    have shallow := e.unwrap_depth
    exact ih childAt (by omega)

end Expr

namespace Expr

theorem At.statementAt {p : Printer} (here : e.At c.tree id) :
    p.statementAt c id = (p.expressionAt c id .comma, true) := by
  have plain : c.tree.startsLikeStatement false id = false := here.startsLikeStatementUpTo false _
  have statement : p.statementAt c id = p.expressionStatement c id := by
    cases e with
    | leaf l =>
      cases l with
      | name text =>
        obtain ⟨field, type, form⟩ := here
        simp only [Printer.statementAt, form]
      | _ => simp only [Printer.statementAt, show c.tree.form id = _ from here]
    | call | binary | index =>
      obtain ⟨i, j, form, -⟩ := here
      simp only [Printer.statementAt, form]
    | conditional =>
      obtain ⟨i, j, k, form, -⟩ := here
      simp only [Printer.statementAt, form]
    | _ =>
      obtain ⟨i, form, -⟩ := here
      simp only [Printer.statementAt, form]
  rw [statement, Printer.expressionStatement, plain]
  rfl

theorem At.visible (here : e.At c.tree id) : c.visible [id] = [id] := by
  unfold Style.visible
  cases e with
  | leaf l => cases l <;> grind [At, Leaf.Has]
  | _ => grind [At]

end Expr

end Condense
