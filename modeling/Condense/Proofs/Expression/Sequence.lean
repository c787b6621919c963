import Condense.Proofs.Expression.RoundTrip
import Condense.Proofs.Token.Replay

/-!
Names with binary operators between them.
-/

namespace Condense

open List

/-- A binary operator, neither an assignment nor a comma, and the name behind it. -/
structure Joint where
  op : BinaryOp
  name : String
  escaped : Bool
  joins : op.isAssignment = false ∧ op ≠ .comma

namespace Joint

variable (joint : Joint)

def tokens (rest : List Joint) : List Token :=
  rest.flatMap fun joint => [joint.op.token, .identifier joint.name joint.escaped]

theorem tokens_cons (rest : List Joint) :
    tokens (joint :: rest) = joint.op.token :: .identifier joint.name joint.escaped :: tokens rest := rfl

theorem length_tokens (rest : List Joint) : (tokens rest).length = 2 * rest.length := by
  induction rest with
  | nil => rfl
  | cons joint rest ih =>
    rw [tokens_cons, length_cons, length_cons, length_cons, ih]
    omega

theorem climbs : joint.op.level.below .coalesce = false := by
  obtain ⟨op, name, escaped, plain, noComma⟩ := joint
  show op.level.below .coalesce = false
  cases op <;> first | exact absurd rfl noComma | rfl | cases plain

/-- Only `**` associates to the right, and nothing else is of its rank. -/
theorem associativity_eq_right_iff : joint.op.associativity = .right ↔ joint.op.level.rank = Level.exponent.rank := by
  obtain ⟨op, name, escaped, plain, noComma⟩ := joint
  show op.associativity = .right ↔ op.level.rank = Level.exponent.rank
  cases op <;> first | exact absurd rfl noComma | (cases plain; done) | decide

theorem rank_right_cases :
    joint.op.associativity = .left ∧ joint.op.level.right.rank = joint.op.level.rank + 1 ∨
      joint.op.associativity = .right ∧ joint.op.level.right.rank = joint.op.level.rank := by
  have next := BinaryOp.rank_right joint.climbs
  cases side : joint.op.associativity with
  | left => exact .inl ⟨rfl, by rw [← next, Parse.operandRank, side]⟩
  | right => exact .inr ⟨rfl, by rw [← next, Parse.operandRank, side]⟩

end Joint

namespace Expr

/-- Whether the names and operators of a tree, read from left to right, are the sequence. -/
inductive InOrder : Expr → String → List Joint → Prop
  | name (text : String) : InOrder (.leaf (.name text)) text []
  | binary {left right : Expr} {first : String} {joint : Joint} {before after : List Joint} :
    InOrder left first before → InOrder right joint.name after →
    InOrder (.binary joint.op left right) first (before ++ joint :: after)

def operator? : Expr → Option BinaryOp
  | binary op _ _ => some op
  | _ => none

/-- Whether an operand may stand on the side of an operator: its own operator binds tighter, or as tightly on the side
that the outer one associates to. -/
def Nests (side : Associativity) (op : BinaryOp) (operand : Expr) : Prop :=
  ∀ inner ∈ operand.operator?, op.level.rank < inner.level.rank ∨
    op.level.rank = inner.level.rank ∧ op.associativity = side

/-- Whether the operands of every operator may stand where they do. -/
def Grouped : Expr → Prop
  | binary op left right => Nests .left op left ∧ Nests .right op right ∧ left.Grouped ∧ right.Grouped
  | _ => True

variable {e other : Expr} {first : String} {joints : List Joint}

/-- What holds of the operator of an operand holds of all operators in it. -/
theorem InOrder.nests_all (reads : e.InOrder first joints) (grouped : e.Grouped) {side : Associativity} {op : BinaryOp}
    (nests : e.Nests side op) : ∀ joint ∈ joints, op.level.rank < joint.op.level.rank ∨
      op.level.rank = joint.op.level.rank ∧ op.associativity = side := by
  induction reads generalizing op side with
  | name => exact fun _ none => by cases none
  | @binary left right first root before after readsLeft readsRight ihLeft ihRight =>
    obtain ⟨nestsLeft, nestsRight, groupedLeft, groupedRight⟩ := grouped
    intro joint member
    have least : root.op.level.rank ≤ joint.op.level.rank := by
      rcases mem_append.mp member with member | member
      · rcases ihLeft groupedLeft nestsLeft joint member with less | ⟨same, -⟩ <;> omega
      · rcases mem_cons.mp member with rfl | member
        · exact .refl
        · rcases ihRight groupedRight nestsRight joint member with less | ⟨same, -⟩ <;> omega
    rcases nests root.op rfl with tighter | ⟨same, sided⟩
    · exact .inl (tighter.trans_le least)
    · exact (Nat.lt_or_eq_of_le (same ▸ least)).imp_right fun equal => ⟨equal, sided⟩

/-- Of two operators only one can be at the root of a tree with the other below it. -/
theorem not_nests_both {j k : Joint}
    (above : j.op.level.rank < k.op.level.rank ∨ j.op.level.rank = k.op.level.rank ∧ j.op.associativity = .right)
    (below : k.op.level.rank < j.op.level.rank ∨ k.op.level.rank = j.op.level.rank ∧ k.op.associativity = .left) :
    False := by
  rcases above with less | ⟨same, right⟩
  · omega
  · rcases below with less | ⟨-, left⟩
    · omega
    · rw [j.associativity_eq_right_iff, same, ← k.associativity_eq_right_iff, left] at right
      cases right

/-- A sequence has one tree. -/
theorem InOrder.unique (reads : e.InOrder first joints) (grouped : e.Grouped) (readsOther : other.InOrder first joints)
    (groupedOther : other.Grouped) : other = e := by
  induction reads generalizing other with
  | name text =>
    generalize none : ([] : List Joint) = joints at readsOther
    cases readsOther with
    | name => rfl
    | binary => simp at none
  | @binary left right first joint before after readsLeft readsRight ihLeft ihRight =>
    obtain ⟨nestsLeft, nestsRight, groupedLeft, groupedRight⟩ := grouped
    generalize all : before ++ joint :: after = joints at readsOther
    cases readsOther with
    | name => simp at all
    | @binary left' right' _ joint' before' after' readsLeft' readsRight' =>
      obtain ⟨nestsLeft', nestsRight', groupedLeft', groupedRight'⟩ := groupedOther
      rcases append_eq_append_iff.mp all with ⟨between, rfl, rest⟩ | ⟨between, rfl, rest⟩
      all_goals
        rcases between with _ | ⟨k, between⟩
        · obtain ⟨rfl, rfl⟩ := List.cons.inj rest
          simp only [append_nil] at *
          rw [ihLeft groupedLeft readsLeft' groupedLeft', ihRight groupedRight readsRight' groupedRight']
        · obtain ⟨rfl, rfl⟩ := List.cons.inj rest
          -- Each of the two operators would be above the other one.
          first
          | exact (not_nests_both (readsRight.nests_all groupedRight nestsRight joint' (by simp))
              (readsLeft'.nests_all groupedLeft' nestsLeft' joint (by simp))).elim
          | exact (not_nests_both (readsRight'.nests_all groupedRight' nestsRight' joint (by simp))
              (readsLeft.nests_all groupedLeft nestsLeft joint' (by simp))).elim

end Expr

namespace Parse

variable {rules : Rules} {rest : List Joint} {rank n : Nat} {name : String} {escaped : Bool} {left right : Expr}

theorem stopsAt_tokens (rest : List Joint) : StopsAt .unary (Joint.tokens rest) := by
  cases rest with
  | nil => exact .nil
  | cons joint rest => exact .binary joint.op.level_below_unary

/-- What climbing with a rank reads of a sequence: a tree of the joints taken, none of them looser than the rank, where
the next one is. -/
structure Climbed (rank : Nat) (first : String) (taken left : List Joint) (e : Expr) : Prop where
  reads : e.InOrder first taken
  grouped : e.Grouped
  tight : ∀ op ∈ e.operator?, rank ≤ op.level.rank
  loose : ∀ joint ∈ left.head?, joint.op.level.rank < rank

/-- Whether the sequence is climbed by the rule, with any rank and behind any name. -/
def ClimbsSequence (rule : Nat → Parse NodeId) (rest : List Joint) : Prop :=
  ∀ rank name escaped, ∃ e taken left, rest = taken ++ left ∧ Climbed rank name taken left e ∧
    ∀ n, Reads true n (rule rank) (.identifier name escaped :: Joint.tokens rest) (Joint.tokens left) e.At

theorem nests_right {joint : Joint} (tight : ∀ op ∈ right.operator?, joint.op.level.right.rank ≤ op.level.rank) :
    right.Nests .right joint.op := by
  intro inner root
  have least := tight inner root
  rcases joint.rank_right_cases with ⟨-, next⟩ | ⟨side, next⟩
  · exact .inl (by omega)
  · rcases Nat.lt_or_eq_of_le (next ▸ least) with less | same
    · exact .inl less
    · exact .inr ⟨same, side⟩

/-- Behind a joint that ends the right operand the tree so far is a left operand. -/
theorem nests_left {joint next : Joint} (ends : next.op.level.rank < joint.op.level.right.rank) :
    (Expr.binary joint.op left right).Nests .left next.op := by
  intro inner root
  obtain rfl : joint.op = inner := Option.some.inj root
  rcases joint.rank_right_cases with ⟨side, tighter⟩ | ⟨-, tighter⟩
  · rcases Nat.lt_or_eq_of_le (Nat.le_of_lt_succ (tighter ▸ ends)) with less | same
    · exact .inl less
    · refine .inr ⟨same, ?_⟩
      cases other : next.op.associativity with
      | left => rfl
      | right =>
        rw [next.associativity_eq_right_iff, same, ← joint.associativity_eq_right_iff, side] at other
        cases other
  · exact .inl (by omega)

variable (climbs : ∀ rest : List Joint, rest.length < n → ClimbsSequence (fun rank => rules (.binary rank)) rest)

include climbs

/-- The rounds of climbing: the tree so far may always be the left operand of the next operator. -/
theorem climb_joints {before : List Joint} {first : String} (rank : Nat) (short : rest.length ≤ n) (reads : left.InOrder first before)
    (grouped : left.Grouped) (tight : ∀ op ∈ left.operator?, rank ≤ op.level.rank)
    (nests : ∀ joint ∈ rest.head?, left.Nests .left joint.op) :
    ∃ e taken others, rest = taken ++ others ∧ Climbed rank first (before ++ taken) others e ∧
      ∀ m start id, Loops true m (climb rules rank start) id (Joint.tokens rest) (Joint.tokens others) fun t found =>
        left.At t id → e.At t found := by
  generalize count : rest.length = length at short
  induction length using Nat.strongRecOn generalizing rest before left with
  | _ length ih =>
    have stop (loose : ∀ joint ∈ rest.head?, joint.op.level.rank < rank) : Climbed rank first (before ++ []) rest left :=
      ⟨(append_nil before).symm ▸ reads, grouped, tight, loose⟩
    cases rest with
    | nil =>
      refine ⟨left, [], [], rfl, stop fun _ none => ?_, fun _ _ _ => climb_done fun _ none => ?_⟩
      all_goals cases none
    | cons joint rest =>
      have isOp := BinaryOp.binaryOp?_token joint.climbs
      by_cases loose : joint.op.level.rank < rank
      · refine ⟨left, [], joint :: rest, rfl, stop fun _ same => ?_, fun _ _ _ => climb_done fun op same => ?_⟩
        · cases same
          exact loose
        · cases isOp.symm.trans same
          exact loose
      · rw [length_cons] at count
        obtain ⟨right, taken, others, rfl, ⟨readsRight, groupedRight, tightRight, ends⟩, operand⟩ :=
          climbs rest (by omega) joint.op.level.right.rank joint.name joint.escaped
        rw [length_append] at count
        obtain ⟨e, more, final, rfl, climbed, loops⟩ := ih others.length (by omega) (reads.binary readsRight)
          ⟨nests joint rfl, nests_right tightRight, grouped, groupedRight⟩
          (fun _ root => by cases root; exact not_lt.1 loose) (fun next member => nests_left (ends next member)) rfl (by omega)
        refine ⟨e, joint :: (taken ++ more), final, by simp, by simpa using climbed, fun m start id => ?_⟩
        refine .step ((climb_operator joint.climbs (not_lt.1 loose) (operand m)).mono (Nat.le_succ m)) ?_ (loops m start)
        simp only [Joint.length_tokens, length_append, length_cons]
        omega

theorem binary_climbs (short : rest.length ≤ n) : ClimbsSequence (binary rules) rest := by
  intro rank name escaped
  obtain ⟨e, taken, others, all, climbed, loops⟩ := climb_joints climbs rank short (.name name) trivial
    (fun _ none => by cases none) fun _ _ _ none => by cases none
  exact ⟨e, taken, others, all, climbed, fun m => reads_place fun start =>
    (unary_name (stopsAt_tokens rest)).bind fun id => reads_cycle (loops m start id)⟩

omit climbs

theorem rulesUpTo_climbs (depth : Nat) (rest : List Joint) (short : rest.length < depth) :
    ClimbsSequence (fun rank => rulesUpTo depth (.binary rank)) rest := by
  induction depth generalizing rest with
  | zero => cases short
  | succ depth ih => exact binary_climbs ih (Nat.le_of_lt_succ short)

/-- A sequence is read as one tree, grouped as it is to be. -/
theorem expression_sequence {depth : Nat} (short : rest.length ≤ depth) (name : String) (escaped : Bool) :
    ∃ e : Expr, e.InOrder name rest ∧ e.Grouped ∧ ∀ n, Reads true n (expression (rulesUpTo (depth + 1)))
      (.identifier name escaped :: Joint.tokens rest) [] e.At := by
  obtain ⟨e, taken, left, rfl, ⟨reads, grouped, -, loose⟩, read⟩ :=
    binary_climbs (rulesUpTo_climbs depth) short Level.coalesce.rank name escaped
  cases left with
  | cons joint left =>
    have climbs := joint.climbs
    rw [Level.below, decide_eq_false_iff_not] at climbs
    exact absurd (loose joint rfl) climbs
  | nil =>
    rw [append_nil] at read ⊢
    exact ⟨e, reads, grouped, fun n => expression_of_binary rfl (read n) .nil⟩

/-- A sequence is read as the only statement, or in JSON as the only value. -/
theorem chunk_sequence {source : List Char} (json : Bool) (short : rest.length ≤ source.length) (name : String)
    (escaped : Bool) : ∃ e : Expr, e.InOrder name rest ∧ e.Grouped ∧ Reads true source.length
      (if json then jsonChunk (rulesFor source) else statementList (rulesFor source) none true)
      (.identifier name escaped :: Joint.tokens rest) [] fun t result => result.2 = none ∧ ∃ id, result.1 = [id] ∧ e.At t id := by
  have expression (extra : Nat) := expression_sequence (Nat.le_trans short (by omega : _ ≤ 4 * source.length + extra)) name escaped
  cases json with
  | true =>
    obtain ⟨e, reads, grouped, read⟩ := expression 15
    refine ⟨e, reads, grouped, reads_isAtEnd fun s awaits few => ?_⟩
    obtain ⟨id, s₁, run, passes, holds⟩ := expressionStatement_reads (.bare rfl) (read _) s awaits few
    have attempted : attempt (expressionStatement (rulesFor source)) s = .ok (.ok id) s₁ := by
      simp only [attempt, rulesFor, run]
    have last : Reads true source.length (statementList (rulesFor source) none false [id]) [] [] fun t result =>
        e.At t id → result.2 = none ∧ ∃ id, result.1 = [id] ∧ e.At t id := by
      unfold statementList
      exact reads_cycle (listStep_last (.inl rfl) fun t here => ⟨rfl, id, rfl, here⟩)
    exact .of_run (bind_run attempted) passes ((last s₁ (awaits.after passes) (Nat.zero_le _)).given holds)
  | false =>
    obtain ⟨e, reads, grouped, read⟩ := expression 14
    have noLabel : NoLabel (.identifier name escaped :: Joint.tokens rest) := by
      cases rest with
      | nil => exact .single _
      | cons joint rest => exact (NoLabel.single _).append (cons_ne_nil _ _) (by cases joint.op <;> rfl)
    refine ⟨e, reads, grouped, statementList_of_item rfl (item_of_statement rfl ?_)⟩
    rw [← append_nil (_ :: Joint.tokens rest)] at read ⊢
    exact statement_of_opens ⟨_, _, rfl, rfl⟩ noLabel rfl (expressionStatement_reads (.bare rfl) (read _))

end Parse

deriving instance DecidableEq for Token

/-- The tokens of a text, none of which is a comment or an update, are delivered one after the other. -/
theorem Scanner.delivers_of_tokens {s : Scanner} {steps : Nat} {tokens : List Token}
    (plain : ∀ t ∈ tokens, t.isTrivia = false ∧ t.isUpdate = false)
    (all : (s.tokensUpTo steps).1.map Lexeme.token = tokens ++ [.endOfInput])
    (silent : (s.tokensUpTo steps).2.diagnostics = []) : s.diagnostics = [] ∧ s.Delivers tokens := by
  induction steps generalizing s tokens with
  | zero => simp [tokensUpTo] at all
  | succ steps ih =>
    obtain ⟨settings, source, lookahead, reports⟩ := s.next_keeps
    have comes {t : Token} (token : s.next.1.token = t) (plain : t.isTrivia = false ∧ t.isUpdate = false)
        (after : s.next.2.diagnostics = []) : s.diagnostics = [] ∧ s.Comes t := by
      have before := prefix_nil.mp (after ▸ reports)
      exact ⟨before, token, plain.1, fun update => (by rw [plain.2] at update; cases update), before, after, settings,
        source, lookahead⟩
    unfold tokensUpTo at all silent
    cases tokens with
    | nil =>
      have token : s.next.1.token = .endOfInput := by
        cases ending : s.next.1.token.isEnd <;> simp_all
      simp only [token, Token.isEnd, if_true] at silent
      exact comes token ⟨rfl, rfl⟩ silent
    | cons t tokens =>
      cases ending : s.next.1.token.isEnd with
      | true => simp [ending] at all
      | false =>
        simp only [ending, Bool.false_eq_true, if_false, map_cons, cons_append, List.cons.injEq] at all silent
        obtain ⟨after, delivers⟩ := ih (fun t member => plain t (.tail _ member)) all.2 silent
        obtain ⟨before, comes⟩ := comes all.1 (plain t (.head _)) after
        exact ⟨before, comes, delivers⟩

/-- A text of names with binary operators between them is parsed without errors as one expression: the tree with these
names and operators in this order where every operand binds tighter than its operator, or as tightly on the side that
the operator associates to. There is no other such tree. -/
theorem parse_sequence {source : String} {settings : Settings} {name : String} {escaped : Bool} {rest : List Joint}
    (tokens : (Scanner.new source settings).tokens.1.map Lexeme.token =
      .identifier name escaped :: Joint.tokens rest ++ [.endOfInput])
    (silent : (Scanner.new source settings).tokens.2.diagnostics = []) :
    let parsed := parse source settings
    (∀ d ∈ parsed.diagnostics, d.isError = false) ∧ ∃ (id : NodeId) (scope : ScopeId) (e : Expr),
      parsed.tree.form parsed.root = .program [id] scope ∧ e.At parsed.tree id ∧ e.InOrder name rest ∧ e.Grouped ∧
      ∀ other : Expr, other.InOrder name rest → other.Grouped → other = e := by
  intro parsed
  have plain : ∀ t ∈ Token.identifier name escaped :: Joint.tokens rest, t.isTrivia = false ∧ t.isUpdate = false := by
    simp only [Joint.tokens, List.mem_cons, List.mem_flatMap, forall_eq_or_imp]
    refine ⟨⟨rfl, rfl⟩, ?_⟩
    rintro t ⟨joint, -, rfl | rfl | none⟩
    · cases joint.op <;> exact ⟨rfl, rfl⟩
    · exact ⟨rfl, rfl⟩
    · cases none
  have delivers := (Scanner.delivers_of_tokens plain tokens silent).2
  have short : (Token.identifier name escaped :: Joint.tokens rest).length ≤ source.toList.length := by
    have inText := Scanner.inText_new source settings
    obtain ⟨before, last, all, few, -⟩ := @Scanner.tokensUpTo_tile _ (source.toList.length + 2) inText rfl
      (by have := inText.length_le; simp only [Scanner.new] at this ⊢; omega)
    have count := congrArg List.length tokens
    rw [Scanner.tokens, show (Scanner.new source settings).source = source.toList from rfl, all] at count
    simp only [List.length_map, List.length_append, List.length_cons, List.length_nil] at count ⊢
    have := inText.length_le
    simp only [Scanner.new] at this few
    omega
  have fewer := short
  rw [List.length_cons, Joint.length_tokens] at fewer
  have few : rest.length ≤ source.toList.length := by omega
  obtain ⟨e, reads, grouped, list⟩ := Parse.chunk_sequence (settings.outputMode == .json) few name escaped
  obtain ⟨mild, -, ids, scope, program, id, rfl, here⟩ := parse_of_delivers
    (P := fun t ids => ∃ id, ids = [id] ∧ e.At t id) (fun found agrees => by
      obtain ⟨id, same, here⟩ := found
      exact ⟨id, same, here.agrees agrees⟩)
    delivers short list
  exact ⟨mild, id, scope, e, program, here, reads, grouped, fun other => reads.unique grouped⟩

/-- Operators of several levels, one of them to the right, and mixed ones that have to be kept apart in print. -/
theorem parse_sequence_mixed :
    let joint (op : BinaryOp) (name : String) (joins : op.isAssignment = false ∧ op ≠ .comma) : Joint :=
      { op, name, escaped := false, joins }
    let rest := [joint .nullish "b" (by decide), joint .or "c" (by decide), joint .exp "d" (by decide),
      joint .exp "e" (by decide), joint .sub "f" (by decide), joint .sub "g" (by decide), joint .isIn "h" (by decide)]
    let parsed := parse "a ?? b || c ** d ** e - f - g in h" {}
    (∀ d ∈ parsed.diagnostics, d.isError = false) ∧ ∃ (id : NodeId) (scope : ScopeId) (e : Expr),
      parsed.tree.form parsed.root = .program [id] scope ∧ e.At parsed.tree id ∧ e.InOrder "a" rest ∧ e.Grouped ∧
      ∀ other : Expr, other.InOrder "a" rest → other.Grouped → other = e := by
  intro joint rest
  exact @parse_sequence _ _ _ false _ (by decide +kernel) (by decide +kernel)

end Condense
