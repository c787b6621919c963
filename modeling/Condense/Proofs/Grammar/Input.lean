import Condense.Grammar.Chunk
import Condense.Proofs.Scope.Store
import Condense.Proofs.Syntax.Store
import Condense.Proofs.Token.Stream

/-!
A parse that stands before known tokens: what each small step does there.
-/

namespace Condense

/-- Nothing of the first store is changed in the second, links aside. -/
structure Tree.Grows (t t' : Tree) : Prop where
  size : t.size ≤ t'.size
  form : ∀ id, id.index < t.size → t'.form id = t.form id

namespace Tree.Grows

theorem refl (t : Tree) : t.Grows t :=
  ⟨.refl, fun _ _ => rfl⟩

theorem trans {t t' t'' : Tree} (first : t.Grows t') (second : t'.Grows t'') : t.Grows t'' where
  size := Nat.le_trans first.size second.size
  form id range := (second.form id (Nat.lt_of_lt_of_le range first.size)).trans (first.form id range)

theorem alloc (t : Tree) (form : Form NodeId) (span : Span) : t.Grows (t.alloc form span).2 where
  size := by
    rw [alloc_size]
    exact Nat.le_succ _
  form id range := by
    rw [alloc_form, if_neg]
    rintro rfl
    exact Nat.lt_irrefl _ range

end Tree.Grows

/-- No scope of the first tree is given other names in the second. -/
structure ScopeTree.Spares (t t' : ScopeTree) : Prop where
  size : t.scopes.size ≤ t'.scopes.size
  fields : ∀ id, id.index < t.scopes.size → (t'.scope id).fields = (t.scope id).fields
  kind : ∀ id, id.index < t.scopes.size → (t'.scope id).kind = (t.scope id).kind
  isNameScope : ∀ id, id.index < t.scopes.size → (t'.scope id).isNameScope = (t.scope id).isNameScope
  parent : ∀ id, id.index < t.scopes.size → (t.scope id).parent.isSome = true → (t'.scope id).parent.isSome = true

namespace ScopeTree.Spares

variable {t t' t'' : ScopeTree}

theorem refl (t : ScopeTree) : t.Spares t :=
  ⟨.refl, fun _ _ => rfl, fun _ _ => rfl, fun _ _ => rfl, fun _ _ inner => inner⟩

theorem trans (first : t.Spares t') (second : t'.Spares t'') : t.Spares t'' where
  size := Nat.le_trans first.size second.size
  fields id range := (second.fields id (Nat.lt_of_lt_of_le range first.size)).trans (first.fields id range)
  kind id range := (second.kind id (Nat.lt_of_lt_of_le range first.size)).trans (first.kind id range)
  isNameScope id range :=
    (second.isNameScope id (Nat.lt_of_lt_of_le range first.size)).trans (first.isNameScope id range)
  parent id range inner := second.parent id (Nat.lt_of_lt_of_le range first.size) (first.parent id range inner)

theorem modifyScope (t : ScopeTree) (id : ScopeId) {f : Scope → Scope}
    (same : ∀ s, (f s).fields = s.fields ∧ (f s).kind = s.kind ∧ (f s).isNameScope = s.isNameScope ∧
      (s.parent.isSome → (f s).parent.isSome)) : t.Spares (t.modifyScope id f) where
  size := Nat.le_of_eq (modifyScope_size ..).symm
  fields x _ := by
    rw [modifyScope_scope]
    split
    · exact (same _).1
    · rfl
  kind x _ := by
    rw [modifyScope_scope]
    split
    · exact (same _).2.1
    · rfl
  isNameScope x _ := by
    rw [modifyScope_scope]
    split
    · exact (same _).2.2.1
    · rfl
  parent x _ inner := by
    rw [modifyScope_scope]
    split
    · exact (same _).2.2.2 inner
    · exact inner

end ScopeTree.Spares

namespace ParseState

/-- Whether the state stands before the tokens, with no comments waiting. -/
structure Stands (s : ParseState) (input : List Token) : Prop where
  token : s.current.token = input.headD .endOfInput
  inLine : s.current.token.isUpdate = true → s.current.newlineBefore = false
  quiet : s.scanner.diagnostics = []
  ahead : ∀ t rest, input = t :: rest → s.scanner.Delivers rest
  short : input.length + 2 ≤ s.rounds
  comments : s.comments = []

/-- Where a state stands does not depend on what was built. -/
theorem Stands.beside {s : ParseState} {input : List Token} {tree : Tree} {scopes : ScopeTree} {context : Context}
    {labels : List (String × Bool)} (stands : s.Stands input) :
    ({ s with tree, scopes, context, labels } : ParseState).Stands input :=
  ⟨stands.token, stands.inLine, stands.quiet, stands.ahead, stands.short, stands.comments⟩

/-- Whether the state stands before the tokens and, where that is asked for, `in` is an operator. -/
structure Awaits (s : ParseState) (allowsIn : Bool) (input : List Token) : Prop extends Stands s input where
  allowed : allowsIn = true → s.context.noIn = false

/-- Tokens were taken, nodes added and maybe scopes until the second state stood before the rest of the tokens. -/
structure Passes (s : ParseState) (input rest : List Token) (s' : ParseState) : Prop where
  tree : s.tree.Grows s'.tree
  scopes : s.scopes.Spares s'.scopes
  context : s'.context = s.context
  labels : s'.labels = s.labels
  diagnostics : s'.diagnostics = s.diagnostics
  fewer : rest.length ≤ input.length
  stands : s'.Stands rest

variable {s s' s'' : ParseState} {input mid rest : List Token} {allowsIn : Bool}

theorem Stands.passes (stands : s.Stands input) : s.Passes input input s :=
  ⟨.refl _, .refl _, rfl, rfl, rfl, .refl, stands⟩

theorem Passes.trans (first : s.Passes input mid s') (second : s'.Passes mid rest s'') : s.Passes input rest s'' where
  tree := first.tree.trans second.tree
  scopes := first.scopes.trans second.scopes
  context := second.context.trans first.context
  labels := second.labels.trans first.labels
  diagnostics := second.diagnostics.trans first.diagnostics
  fewer := Nat.le_trans second.fewer first.fewer
  stands := second.stands

theorem Awaits.after (awaits : s.Awaits allowsIn input) (passes : s.Passes input rest s') : s'.Awaits allowsIn rest :=
  ⟨passes.stands, fun asked => passes.context ▸ awaits.allowed asked⟩

end ParseState

namespace Parse

variable {α β σ : Type} {s : ParseState} {t : Token} {input mid rest : List Token} {b c : Bool} {n : Nat}
  {P : Tree → α → Prop} {Q : Tree → β → Prop} {x y : Parse α} {p : Punctuator}

theorem get_run (s : ParseState) : (get : Parse ParseState) s = .ok s s := rfl

theorem pure_run (a : α) (s : ParseState) : (pure a : Parse α) s = .ok a s := rfl

theorem bind_run {f : α → Parse β} {a : α} {s' : ParseState} (run : x s = .ok a s') : (x >>= f) s = f a s' := by
  simp only [Bind.bind, EStateM.bind, run]

/-- Whether the rule succeeds in a state and stops before the rest, and what it gives, in the tree that it leaves and in
every tree that grows from it. -/
def ReadsFrom (x : Parse α) (s : ParseState) (input rest : List Token) (here : Tree → α → Prop) : Prop :=
  ∃ a s', x s = .ok a s' ∧ s.Passes input rest s' ∧ ∀ t, s'.tree.Grows t → here t a

/-- Whether the rule reads the input, at most so many tokens, up to the rest, and what it gives. Where that is asked
for, the rule may rely on `in` being an operator. -/
def Reads (allowsIn : Bool) (n : Nat) (x : Parse α) (input rest : List Token) (here : Tree → α → Prop) : Prop :=
  ∀ s : ParseState, s.Awaits allowsIn input → input.length ≤ n → ReadsFrom x s input rest here

theorem ReadsFrom.of_run {s' : ParseState} (run : x s = y s') (passes : s.Passes input mid s')
    (then' : ReadsFrom y s' mid rest P) : ReadsFrom x s input rest P := by
  obtain ⟨a, s'', run', passes', holds⟩ := then'
  exact ⟨a, s'', run.trans run', passes.trans passes', holds⟩

/-- What is known where a rule starts is known where it ends. -/
theorem ReadsFrom.given {F : Tree → Prop} (reads : ReadsFrom x s input rest fun t a => F t → P t a)
    (known : ∀ t, s.tree.Grows t → F t) : ReadsFrom x s input rest P := by
  obtain ⟨a, s', run, passes, holds⟩ := reads
  exact ⟨a, s', run, passes, fun t grows => holds t grows (known t (passes.tree.trans grows))⟩

theorem Reads.imp {P' : Tree → α → Prop} (reads : Reads b n x input rest P) (imp : ∀ t a, P t a → P' t a) :
    Reads b n x input rest P' := by
  intro s awaits few
  obtain ⟨a, s', run, passes, holds⟩ := reads s awaits few
  exact ⟨a, s', run, passes, fun t grows => imp t a (holds t grows)⟩

theorem Reads.bindAt {f : α → Parse β} (first : Reads b n x input mid P)
    (then' : ∀ a s, s.Awaits b mid → mid.length ≤ n → (∀ t, s.tree.Grows t → P t a) →
      ReadsFrom (f a) s mid rest Q) : Reads b n (x >>= f) input rest Q := by
  intro s awaits few
  obtain ⟨a, s', run, passes, holds⟩ := first s awaits few
  exact (then' a s' (awaits.after passes) (Nat.le_trans passes.fewer few) holds).of_run (bind_run run) passes

/-- One rule after the other. What the first one gives still holds where the second one ends. -/
theorem Reads.bind {f : α → Parse β} (first : Reads b n x input mid P)
    (then' : ∀ a, Reads b n (f a) mid rest fun t d => P t a → Q t d) : Reads b n (x >>= f) input rest Q :=
  first.bindAt fun a s awaits few holds => (then' a s awaits few).given holds

/-- What the first rule gives may be known in part before the second one starts. -/
theorem Reads.bindKnown {f : α → Parse β} {R : α → Prop} (first : Reads b n x input mid fun t a => R a ∧ P t a)
    (then' : ∀ a, R a → Reads b n (f a) mid rest fun t d => P t a → Q t d) : Reads b n (x >>= f) input rest Q :=
  first.bindAt fun a s awaits few holds =>
    (then' a (holds _ (.refl _)).1 s awaits few).given fun t grows => (holds t grows).2

theorem reads_pure {a : α} (holds : ∀ t, P t a) : Reads b n (pure a) input input P :=
  fun s awaits _ => ⟨a, s, rfl, awaits.passes, fun t _ => holds t⟩

/-- A step that leaves the state as it is. -/
theorem Reads.look {f : α → Parse β} {a : α} (run : ∀ s : ParseState, s.Awaits b input → x s = .ok a s)
    (then' : Reads b n (f a) input rest Q) : Reads b n (x >>= f) input rest Q := by
  intro s awaits few
  obtain ⟨d, s', run', holds⟩ := then' s awaits few
  exact ⟨d, s', (bind_run (run s awaits)).trans run', holds⟩

/-- A step whose result is known. -/
theorem Reads.value {f : α → Parse β} {a : α} (first : Reads b n x input mid fun _ found => found = a)
    (then' : Reads b n (f a) mid rest Q) : Reads b n (x >>= f) input rest Q := by
  refine first.bindAt fun found s awaits few holds => ?_
  obtain rfl := holds _ (.refl _)
  exact then' s awaits few

/-- A bound on the tokens may be lowered. -/
theorem Reads.mono {m : Nat} (reads : Reads b m x input rest P) (le : n ≤ m) : Reads b n x input rest P :=
  fun s awaits few => reads s awaits (Nat.le_trans few le)

/-- What follows a choice may be stated once for both ways. -/
theorem reads_choice {f : α → Parse β} (reads : Reads b n ((if c then x else y) >>= f) input rest Q) :
    Reads b n (if c then x >>= f else y >>= f) input rest Q := by
  cases c <;> exact reads

section Turns

variable {body : σ → Parse (Turn σ β)} {u : σ}

/-- What holds of the state of a loop after a round that was not the last. -/
def Turn.Again (P : σ → Prop) : Turn σ β → Prop
  | .again u => P u
  | .done _ => False

/-- What holds of the result of a loop after its last round. -/
def Turn.Done (Q : β → Prop) : Turn σ β → Prop
  | .again _ => False
  | .done b => Q b

/-- Whether a loop that may take more rounds than there are tokens reads the input up to the rest. -/
def Loops (allowsIn : Bool) (n : Nat) (body : σ → Parse (Turn σ β)) (u : σ) (input rest : List Token)
    (here : Tree → β → Prop) : Prop :=
  ∀ rounds, input.length < rounds → Reads allowsIn n (turns body rounds u) input rest here

theorem Loops.imp {Q' : Tree → β → Prop} (loops : Loops b n body u input rest Q) (imp : ∀ t d, Q t d → Q' t d) :
    Loops b n body u input rest Q' :=
  fun rounds enough => (loops rounds enough).imp imp

theorem Loops.done (round : Reads b n (body u) input rest fun t => Turn.Done (Q t)) : Loops b n body u input rest Q := by
  intro rounds enough
  obtain ⟨rounds, rfl⟩ : ∃ fewer, rounds = fewer + 1 := ⟨rounds - 1, by omega⟩
  refine Reads.bindAt round fun turn s awaits _ holds => ?_
  cases turn with
  | again u => exact (holds _ (.refl _)).elim
  | done d => exact ⟨d, s, rfl, awaits.passes, holds⟩

theorem Loops.again {R : Tree → σ → Prop} (round : Reads b n (body u) input mid fun t => Turn.Again (R t))
    (less : mid.length < input.length) (then' : ∀ u, Loops b n body u mid rest fun t d => R t u → Q t d) :
    Loops b n body u input rest Q := by
  intro rounds enough
  obtain ⟨rounds, rfl⟩ : ∃ fewer, rounds = fewer + 1 := ⟨rounds - 1, by omega⟩
  refine Reads.bindAt round fun turn s awaits few holds => ?_
  cases turn with
  | again u => exact (then' u rounds (by omega) s awaits few).given holds
  | done d => exact (holds _ (.refl _)).elim

/-- A round of a loop that keeps a fact about what was read so far. -/
theorem Loops.step {I : Tree → Prop} {J : Tree → σ → Prop}
    (round : Reads b n (body u) input mid fun t => Turn.Again fun u => I t → J t u) (less : mid.length < input.length)
    (then' : ∀ u, Loops b n body u mid rest fun t d => J t u → Q t d) :
    Loops b n body u input rest fun t d => I t → Q t d :=
  .again round less fun u => (then' u).imp fun _ _ result kept before => result (kept before)

theorem cycle_done {d : β} {s' : ParseState} (run : body u s = .ok (.done d) s') (long : 0 < s.rounds) :
    cycle u body s = .ok d s' := by
  obtain ⟨n, rounds⟩ : ∃ n, s.rounds = n + 1 := ⟨s.rounds - 1, by omega⟩
  change turns body s.rounds u s = _
  rw [rounds]
  exact bind_run run

theorem reads_cycle (loops : Loops b n body u input rest Q) : Reads b n (cycle u body) input rest Q :=
  fun s awaits few => loops s.rounds (by have := awaits.short; omega) s awaits few

end Turns

theorem nextSignificant_run (comes : s.scanner.Comes t) (long : 0 < s.rounds) :
    nextSignificant s = .ok s.scanner.next.1 { s with scanner := s.scanner.next.2 } := by
  obtain ⟨token, significant, -, -, after, -, -, -⟩ := comes
  refine cycle_done ?_ long
  have taken {f : Lexeme → Parse (Turn Bool Lexeme)} :
      (modifyGet (fun s => (s.scanner.next.1, { s with scanner := s.scanner.next.2 })) >>= f : Parse _) s =
        f s.scanner.next.1 { s with scanner := s.scanner.next.2 } := rfl
  refine taken.trans ?_
  generalize s.scanner.next = result at *
  obtain ⟨l, scanner⟩ := result
  have collected {f : Unit → Parse (Turn Bool Lexeme)} : (collectDiagnostics >>= f) { s with scanner } = f ()
        { s with scanner := { scanner with diagnostics := [] }, diagnostics := s.diagnostics ++ scanner.diagnostics } :=
    rfl
  refine collected.trans ?_
  have quiet : scanner.diagnostics = [] := after
  have same : ({ scanner with diagnostics := [] } : Scanner) = scanner := by
    cases scanner
    cases quiet
    rfl
  simp only [quiet, same, List.append_nil]
  subst token
  obtain ⟨token, span, raw, newline⟩ := l
  cases token
  case importantComment => cases significant
  all_goals
    simp only [Bool.or_false]
    rfl

section

variable (awaits : s.Awaits b input)

include awaits

theorem token_run : token s = .ok (input.headD .endOfInput) s := by
  rw [← awaits.token]
  rfl

theorem isAt_run : isAt p s = .ok ((input.headD .endOfInput).is p) s :=
  bind_run (token_run awaits)

theorem bump_run {more : List Token} (first : input = t :: more) : ∃ l s', bump s = .ok l s' ∧ s.Passes input more s' := by
  subst first
  have delivers := awaits.ahead t more rfl
  have comes := delivers.comes
  have short := awaits.short
  rw [List.length_cons] at short
  let s' : ParseState := { s with scanner := s.scanner.next.2, current := s.scanner.next.1, previous := s.current.span }
  have stands : s'.Stands more := by
    refine ⟨comes.token, fun update => ?_, comes.after, ?_, ?_, awaits.comments⟩
    · rw [show s'.current.token = s.scanner.next.1.token from rfl, comes.token] at update
      exact comes.inLine update
    · rintro u rest rfl
      exact delivers.2
    · show more.length + 2 ≤ s.rounds
      omega
  exact ⟨s.current, s', bind_run (nextSignificant_run comes (by omega)),
    .refl _, .refl _, rfl, rfl, rfl, Nat.le_succ _, stands⟩

theorem expect_run {more : List Token} (first : input = .punctuator p :: more) :
    ∃ l s', expect p s = .ok l s' ∧ s.Passes input more s' := by
  have same : expect p s = bump s := by
    refine (bind_run (isAt_run awaits)).trans ?_
    simp only [first, List.headD_cons, Token.is, BEq.rfl, if_true]
  rw [same]
  exact bump_run awaits first

end

section

variable {f : Lexeme → Parse β} (then' : ∀ l, Reads b n (f l) input rest Q)

include then'

/-- Taking a token leaves one less for the rules behind it. -/
theorem reads_bump_less : Reads b (n + 1) (bump >>= f) (t :: input) rest Q := by
  intro s awaits few
  obtain ⟨l, s', run, passes⟩ := bump_run awaits rfl
  exact (then' l s' (awaits.after passes) (Nat.le_of_succ_le_succ few)).of_run (bind_run run) passes

theorem reads_expect_less : Reads b (n + 1) (expect p >>= f) (.punctuator p :: input) rest Q := by
  intro s awaits few
  obtain ⟨l, s', run, passes⟩ := expect_run awaits rfl
  exact (then' l s' (awaits.after passes) (Nat.le_of_succ_le_succ few)).of_run (bind_run run) passes

theorem reads_bump : Reads b n (bump >>= f) (t :: input) rest Q :=
  (reads_bump_less then').mono (Nat.le_succ n)

theorem reads_expect : Reads b n (expect p >>= f) (.punctuator p :: input) rest Q :=
  (reads_expect_less then').mono (Nat.le_succ n)

end

theorem reads_place {f : Span → Parse β} (then' : ∀ span, Reads b n (f span) input rest Q) :
    Reads b n (place >>= f) input rest Q :=
  fun s => then' s.current.span s

theorem reads_lexeme {f : Lexeme → Parse β} (then' : ∀ l, l.token = input.headD .endOfInput →
      (l.token.isUpdate = true → l.newlineBefore = false) → Reads b n (f l) input rest Q) :
    Reads b n (lexeme >>= f) input rest Q :=
  fun s awaits => then' s.current awaits.token awaits.inLine s awaits

theorem reads_spanOf {id : NodeId} {f : Span → Parse β} (then' : ∀ span, Reads b n (f span) input rest Q) :
    Reads b n (spanOf id >>= f) input rest Q :=
  fun s => then' (s.tree.span id) s

theorem reads_get {f : ParseState → Parse β} (then' : ∀ s, s.Awaits b input → Reads b n (f s) input rest Q) :
    Reads b n (get >>= f) input rest Q :=
  fun s awaits => then' s awaits s awaits

theorem reads_token {f : Token → Parse β} (then' : Reads b n (f (input.headD .endOfInput)) input rest Q) :
    Reads b n (token >>= f) input rest Q :=
  .look (fun _ => token_run) then'

section

variable {f : Bool → Parse β}

theorem reads_isAt (then' : Reads b n (f ((input.headD .endOfInput).is p)) input rest Q) :
    Reads b n (isAt p >>= f) input rest Q :=
  .look (fun _ => isAt_run) then'

theorem reads_isAtEnd (then' : Reads b n (f (input.headD .endOfInput).isEnd) input rest Q) :
    Reads b n (isAtEnd >>= f) input rest Q :=
  .look (fun _ awaits => bind_run (token_run awaits)) then'

theorem reads_isAtWord {k : Keyword} (then' : Reads b n (f ((input.headD .endOfInput).isWord k)) input rest Q) :
    Reads b n (isAtWord k >>= f) input rest Q :=
  .look (fun _ awaits => bind_run (token_run awaits)) then'

theorem reads_isAtName {name : String} (then' : Reads b n (f ((input.headD .endOfInput).isName name)) input rest Q) :
    Reads b n (isAtName name >>= f) input rest Q :=
  .look (fun _ awaits => bind_run (token_run awaits)) then'

theorem reads_eat_of_ne (other : (input.headD .endOfInput).is p = false) (then' : Reads b n (f false) input rest Q) :
    Reads b n (eat p >>= f) input rest Q := by
  refine .look (fun s awaits => (bind_run (isAt_run awaits)).trans ?_) then'
  rw [other]
  rfl

theorem reads_eat_less (then' : Reads b n (f true) input rest Q) :
    Reads b (n + 1) (eat p >>= f) (.punctuator p :: input) rest Q := by
  intro s awaits few
  obtain ⟨l, s', run, passes⟩ := bump_run awaits rfl
  have eaten : eat p s = .ok true s' := by
    refine (bind_run (isAt_run awaits)).trans ?_
    simp only [List.headD_cons, Token.is, BEq.rfl, if_true]
    exact bind_run run
  exact (then' s' (awaits.after passes) (Nat.le_of_succ_le_succ few)).of_run (bind_run eaten) passes

theorem reads_eat (then' : Reads b n (f true) input rest Q) : Reads b n (eat p >>= f) (.punctuator p :: input) rest Q :=
  (reads_eat_less then').mono (Nat.le_succ n)

end

theorem reads_alloc (form : Form NodeId) (span : Span) :
    Reads b n (alloc form span) input input fun t id => id.index < t.size ∧ t.form id = form := by
  intro s awaits _
  refine ⟨⟨s.tree.size⟩, { s with tree := (s.tree.alloc form span).2 }, rfl,
    ⟨.alloc .., .refl _, rfl, rfl, rfl, .refl, awaits.toStands.beside⟩, fun t grows => ?_⟩
  have inside : s.tree.size < (s.tree.alloc form span).2.size := by
    rw [Tree.alloc_size]
    exact Nat.lt_succ_self _
  refine ⟨Nat.lt_of_lt_of_le inside grows.size, (grows.form ⟨s.tree.size⟩ inside).trans ?_⟩
  show (s.tree.alloc form span).2.form ⟨s.tree.size⟩ = form
  rw [Tree.alloc_form, if_pos rfl]

theorem reads_spanFrom (start : Span) {f : Span → Parse β} (then' : ∀ span, Reads b n (f span) input rest Q) :
    Reads b n (spanFrom start >>= f) input rest Q := by
  intro s awaits few
  have run : ∃ span, spanFrom start s = .ok span s := by
    have run : spanFrom start s =
        (if s.previous.file != start.file || s.previous.stop.precedes start.start then return start
          else return { start with stop := s.previous.stop } : Parse Span) s := rfl
    rw [run]
    split <;> exact ⟨_, rfl⟩
  obtain ⟨span, run⟩ := run
  exact (then' span s awaits few).of_run (bind_run run) awaits.passes

theorem reads_allocFrom (form : Form NodeId) (start : Span) :
    Reads b n (allocFrom form start) input input fun t id => t.form id = form :=
  reads_spanFrom start fun span => (reads_alloc form span).imp fun _ _ => And.right

theorem reads_withContext {f : Context → Context} (inner : Reads c n x input rest P)
    (allows : c = true → ∀ context : Context, (b = true → context.noIn = false) → (f context).noIn = false) :
    Reads b n (withContext f x) input rest P := by
  intro s awaits few
  let inside : ParseState := { s with context := f s.context }
  obtain ⟨a, s', run, passes, holds⟩ := inner inside ⟨awaits.toStands.beside, fun asked => allows asked _ awaits.allowed⟩ few
  refine ⟨a, { s' with context := s.context }, ?_, { passes with context := rfl, stands := passes.stands.beside }, holds⟩
  show (x.afterwards fun s' => { s' with context := s.context }) inside = _
  simp only [afterwards, run]

/-- Where `in` is an operator again, a rule may rely on that. -/
theorem reads_allowingIn (inner : Reads true n x input rest P) : Reads b n (allowingIn x) input rest P :=
  reads_withContext inner fun _ _ _ => rfl

end Parse

end Condense
