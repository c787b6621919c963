import Condense.Grammar.Chunk
import Condense.Proofs.Grammar.Trace
import Condense.Proofs.Ownership.Invariant

/-!
A parse under watch. At every moment it is known what was written, which nodes no slot holds yet, and which scopes are
in use.
-/

set_option synthInstance.maxSize 2048

namespace Condense

/-- What is watched: what was written since `start`, which ends of the input were reported, and maybe the nodes and the
scopes. -/
class Watch extends Outset where
  terms : Terms
  start : Tree
  told : List Diagnostic
  ofNodes : Prop
  ofScopes : Prop

variable [Watch] {base : Tree} {held kept : List NodeId} {context : Context} {known : List ScopeId}

namespace ParseState

/-- The state holds the nodes `held`, which were added to `base`, and stands in `context` with the scopes `known` in
use. -/
structure Good (base : Tree) (held : List NodeId) (context : Context) (known : List ScopeId) (s : ParseState) :
    Prop where
  written : Watch.start.Writes Watch.terms.markers s.tree
  fits : s.Fits Watch.terms Watch.told
  holding : Watch.ofNodes → s.Holding base held
  within : Watch.ofScopes → s.Within context known

variable {s : ParseState} (good : s.Good base held context known)

include good

theorem Good.fewer {fewer : List ScopeId} (nodes : ∀ x, kept.count x ≤ held.count x)
    (scopes : ∀ x ∈ fewer, x ∈ known) : s.Good base kept context fewer :=
  ⟨good.written, good.fits, fun watched => (good.holding watched).fewer nodes,
    fun watched => (good.within watched).fewer scopes⟩

theorem Good.failed {more : List ScopeId} (scopes : ∀ x ∈ more, x ∈ known) : s.Good base [] context more :=
  good.fewer (fun _ => by simp) scopes

/-- A rule may be run on its own, and what was held before it is held behind it. -/
theorem Good.alone : s.Good s.tree [] context known :=
  ⟨good.written, good.fits, fun watched => .of_tied (good.holding watched).tied, good.within⟩

theorem Good.framed {s' : ParseState} {more : List NodeId} (after : s'.Good s.tree more context known) :
    s'.Good base (more ++ held) context known :=
  ⟨after.written, after.fits, fun watched => (good.holding watched).framed (after.holding watched), after.within⟩

/-- Nothing but nodes, scopes, the context and the tokens to come matters. -/
theorem Good.changed {s' : ParseState} {context' : Context} {more : List ScopeId}
    (fits : s'.Fits Watch.terms Watch.told) (tree : s'.tree = s.tree)
    (within : Watch.ofScopes → s.Within context known → s'.Within context' more) : s'.Good base held context' more :=
  ⟨tree ▸ good.written, fits, fun watched => (good.holding watched).congr tree,
    fun watched => within watched (good.within watched)⟩

theorem Good.aside {s' : ParseState} (fits : s'.Fits Watch.terms Watch.told) (tree : s'.tree = s.tree)
    (scopes : s'.scopes = s.scopes) (same : s'.context = s.context) : s'.Good base held context known :=
  good.changed fits tree fun _ within => within.congr tree scopes same

theorem Good.reported (problem : Problem) (span : Span) [inside : Holds problem.isInside] :
    ({ s with diagnostics := s.diagnostics ++ [problem.diagnostic span] } : ParseState).Good base held context known := by
  refine good.aside ⟨good.fits.current, good.fits.scanner, ?_⟩ rfl rfl rfl
  rw [endings_append, problem.endings_of_isInside inside.holds, List.append_nil, good.fits.quiet]

theorem Good.rescoped {scopes : ScopeTree} {more : List ScopeId}
    (within : Watch.ofScopes → s.Within context known → ({ s with scopes } : ParseState).Within context more) :
    ({ s with scopes } : ParseState).Good base held context more :=
  good.changed (good.fits.same rfl rfl rfl) rfl within

theorem Good.alloc {form : Form NodeId} (span : Span) (written : form.Written Watch.terms.markers)
    (placed : form.Placed known) (sub : ∀ x, (form.children ++ kept).count x ≤ held.count x) :
    ({ s with tree := (s.tree.alloc form span).2 } : ParseState).Good base (⟨s.tree.size⟩ :: kept) context known := by
  refine ⟨good.written.trans fun id => ?_, good.fits.same rfl rfl rfl,
    fun watched => (good.holding watched).alloc span sub, fun watched => (good.within watched).allocated placed span⟩
  rw [Tree.alloc_form]
  split
  · exact .inr written
  · exact .inl rfl

/-- Forms change, but of new nodes only, and neither slots nor links do. -/
theorem Good.reshaped {tree : Tree} (links : Watch.ofNodes → s.tree.SameLinks tree)
    (old : Watch.ofNodes → ∀ id, id.index < base.size → tree.form id = s.tree.form id)
    (forms : ∀ id, tree.form id = s.tree.form id ∨
      (tree.form id).Written Watch.terms.markers ∧ (tree.form id).Placed known) :
    ({ s with tree } : ParseState).Good base held context known := by
  refine ⟨good.written.trans fun id => (forms id).imp_right And.left,
    good.fits.same rfl rfl rfl, fun watched => ?_, fun watched => ?_⟩
  · exact (good.holding watched).reshaped (links watched) (old watched)
  · exact (good.within watched).replanted fun id => (forms id).imp (fun same => ⟨id, same⟩) And.right

end ParseState

open ParseState (Good)

namespace Failure

omit [Watch]

/-- Whether a failure leaves a state with `R` behind. Where the input ended, `R` holds but for one report of that. -/
def Leaves (R : ParseState → Prop) (s : ParseState) : Failure → Prop
  | endOfInput line column => ∃ before span, R { s with diagnostics := before } ∧ s.current.token.isEnd = true ∧
      endings s.diagnostics = endings before ++ [Problem.endOfInput.diagnostic span] ∧
      span.start.line = line ∧ span.start.column = column
  | _ => R s

@[reducible] def isQuiet : Failure → Bool
  | endOfInput .. => false
  | _ => true

variable {e : Failure} {R R' : ParseState → Prop} {s : ParseState}

theorem leaves_of_isQuiet (quiet : e.isQuiet) (holds : R s) : e.Leaves R s := by
  cases e with
  | endOfInput => cases quiet
  | recover | exhausted => exact holds

/-- A change that neither reads nor writes reports and leaves the current token alone. -/
theorem Leaves.map {f : ParseState → ParseState}
    (apart : ∀ s diagnostics, f { s with diagnostics } = { f s with diagnostics })
    (current : ∀ s, (f s).current = s.current) (step : ∀ s, R s → R' (f s)) (leaves : e.Leaves R s) :
    e.Leaves R' (f s) := by
  cases e with
  | endOfInput line column =>
    obtain ⟨before, span, holds, ended, reports, place⟩ := leaves
    have same : (f s).diagnostics = s.diagnostics := by
      conv_lhs => rw [apart s s.diagnostics]
    exact ⟨before, span, apart s before ▸ step _ holds, (current s).symm ▸ ended, same.symm ▸ reports, place⟩
  | recover | exhausted => exact step s leaves

theorem Leaves.imp (leaves : e.Leaves R s) (weaker : ∀ s, R s → R' s) : e.Leaves R' s :=
  leaves.map (fun _ _ => rfl) (fun _ => rfl) weaker

end Failure

namespace Parse

variable {α β σ : Type} {P R : ParseState → Prop} {Q : α → ParseState → Prop} {Q' : β → ParseState → Prop} {x : Parse α}

section

omit [Watch]

/-- From a state with `P` the rule comes out in one with `Q`, or leaves one with `R` behind if it fails. -/
def Ensures (P : ParseState → Prop) (x : Parse α) (Q : α → ParseState → Prop) (R : ParseState → Prop) : Prop :=
  ∀ s, P s → match x s with
    | .ok a s' => Q a s'
    | .error e s' => e.Leaves R s'

theorem Ensures.bind {f : α → Parse β} (first : Ensures P x Q R)
    (rest : ∀ a, Ensures (Q a) (f a) Q' R) : Ensures P (x >>= f) Q' R := by
  intro s before
  have run := first s before
  simp only [Bind.bind, EStateM.bind]
  cases result : x s with
  | ok a s' =>
    rw [result] at run
    exact rest a s' run
  | error e s' =>
    rwa [result] at run

theorem Ensures.imp {P' R' : ParseState → Prop} {Q' : α → ParseState → Prop} (rule : Ensures P x Q R)
    (before : ∀ s, P' s → P s) (ok : ∀ a s, Q a s → Q' a s) (error : ∀ s, R s → R' s) : Ensures P' x Q' R' := by
  intro s holds
  have run := rule s (before s holds)
  cases result : x s with
  | ok a s' =>
    rw [result] at run
    exact ok a s' run
  | error e s' =>
    rw [result] at run
    exact run.imp error

/-- What follows may rely on the state that is read. -/
theorem Ensures.read {f : ParseState → Parse β} (rest : ∀ s, P s → Ensures (· = s) (f s) Q' R) :
    Ensures P (get >>= f) Q' R :=
  fun s before => rest s before s rfl

theorem Ensures.get {f : ParseState → Parse β} (rest : ∀ s, Ensures P (f s) Q' R) : Ensures P (get >>= f) Q' R :=
  fun s before => rest s s before

theorem Ensures.afterwards {f : ParseState → ParseState} {Q'' : α → ParseState → Prop}
    {R' : ParseState → Prop} (rule : Ensures P x Q R) (ok : ∀ a s, Q a s → Q'' a (f s)) (error : ∀ s, R s → R' (f s))
    (apart : ∀ s diagnostics, f { s with diagnostics } = { f s with diagnostics })
    (current : ∀ s, (f s).current = s.current) : Ensures P (x.afterwards f) Q'' R' := by
  intro s before
  have run := rule s before
  unfold Parse.afterwards
  cases result : x s with
  | ok a s' =>
    rw [result] at run
    exact ok a s' run
  | error e s' =>
    rw [result] at run
    exact run.map apart current error

def Turn.After (between : σ → ParseState → Prop) (Q : β → ParseState → Prop) : Turn σ β → ParseState → Prop
  | .again x => between x
  | .done b => Q b

theorem Ensures.cycle (between : σ → ParseState → Prop) {body : σ → Parse (Turn σ β)} {start : σ}
    (failed : ∀ x s, between x s → R s) (each : ∀ x, Ensures (between x) (body x) (Turn.After between Q') R) :
    Ensures (between start) (cycle start body) Q' R := by
  have repeated (rounds : Nat) (start : σ) : Ensures (between start) (turns body rounds start) Q' R := by
    induction rounds generalizing start with
    | zero => exact fun s before => failed start s before
    | succ rounds ih =>
      refine (each start).bind fun turn => ?_
      cases turn with
      | again x => exact ih x
      | done b => exact fun _ after => after
  exact .get fun s => repeated _ start

theorem Ensures.forM {f : σ → Parse PUnit} {list : List σ} (each : ∀ x ∈ list, Ensures P (f x) (fun _ => P) R) :
    Ensures P (list.forM f) (fun _ => P) R := by
  induction list with
  | nil => exact fun _ before => before
  | cons x rest ih => exact (each x (.head _)).bind fun _ => ih fun y member => each y (.tail _ member)

end

class Knows (scope : ScopeId) (known : List ScopeId) : Prop where
  member : scope ∈ known

omit [Watch] in
instance (scope : ScopeId) (known : List ScopeId) : Knows scope (scope :: known) :=
  ⟨.head _⟩

omit [Watch] in
instance (scope other : ScopeId) (known : List ScopeId) [knows : Knows scope known] : Knows scope (other :: known) :=
  ⟨.tail _ knows.member⟩

/-- A rule that leaves nodes, known scopes and the context as they are. -/
class Steady (known : List ScopeId) (x : Parse α) : Prop where
  run : ∀ base held context,
    Ensures (Good base held context known) x (fun _ => Good base held context known) (Good base held context known)

instance steady_pure (a : α) : Steady known (pure a) :=
  ⟨fun _ _ _ _ good => good⟩

instance steady_get : Steady known (get : Parse ParseState) :=
  ⟨fun _ _ _ _ good => good⟩

theorem Steady.andThen {x : Parse α} {f : α → Parse β} [first : Steady known x] (rest : ∀ a, Steady known (f a)) :
    Steady known (x >>= f) :=
  ⟨fun base held context => (first.run base held context).bind fun a => (rest a).run base held context⟩

instance steady_bind {f : α → Parse β} [Steady known x] [rest : ∀ a, Steady known (f a)] : Steady known (x >>= f) :=
  .andThen rest

theorem Steady.choice {p : Prop} [Decidable p] {y : Parse α} (yes : Steady known x) (no : Steady known y) :
    Steady known (if p then x else y) := by
  split
  · exact yes
  · exact no

instance steady_ite {p : Prop} [Decidable p] {y : Parse α} [yes : Steady known x] [no : Steady known y] :
    Steady known (if p then x else y) :=
  .choice yes no

theorem Steady.rounds {start : σ} {body : σ → Parse (Turn σ β)} (each : ∀ x, Steady known (body x)) :
    Steady known (cycle start body) := by
  refine ⟨fun base held context => .cycle (fun _ => Good base held context known) (fun _ _ => id) fun x => ?_⟩
  refine ((each x).run base held context).imp (fun _ => id) (fun turn s good => ?_) fun _ => id
  cases turn <;> exact good

theorem steady_modifyGet {f : ParseState → α × ParseState}
    (same : ∀ s : ParseState, s.Fits Watch.terms Watch.told → (f s).2.Fits Watch.terms Watch.told ∧ (f s).2.tree = s.tree ∧
      (f s).2.scopes = s.scopes ∧ (f s).2.context = s.context) : Steady known (modifyGet f : Parse α) := by
  refine ⟨fun base held context s good => ?_⟩
  obtain ⟨fits, tree, scopes, context⟩ := same s good.fits
  exact good.aside fits tree scopes context

/-- A change of what is neither a node nor a scope nor the context nor a token. -/
theorem steady_modify {f : ParseState → ParseState}
    (same : ∀ s : ParseState, (f s).tree = s.tree ∧ (f s).scopes = s.scopes ∧ (f s).context = s.context ∧
      (f s).current = s.current ∧ (f s).scanner = s.scanner ∧ (f s).diagnostics = s.diagnostics) :
    Steady known (modify f : Parse PUnit) := by
  refine steady_modifyGet fun s fits => ?_
  obtain ⟨tree, scopes, context, current, scanner, reports⟩ := same s
  exact ⟨fits.same current scanner reports, tree, scopes, context⟩

instance : Steady known lexeme := steady_bind

instance : Steady known token := steady_bind

instance : Steady known place := steady_bind

instance (p : Punctuator) : Steady known (isAt p) := steady_bind

instance (k : Keyword) : Steady known (isAtWord k) := steady_bind

instance (name : String) : Steady known (isAtName name) := steady_bind

instance : Steady known isAtEnd := steady_bind

instance : Steady known newlineBefore := steady_bind

instance : Steady known peekLexeme :=
  steady_modifyGet fun _ fits => ⟨⟨fits.current, (scanned_peek fits.scanner).scanner, fits.quiet⟩, rfl, rfl, rfl⟩

instance : Steady known peek := steady_bind

instance : Steady known collectDiagnostics :=
  steady_modifyGet fun _ fits => ⟨⟨fits.current,
    ⟨fits.scanner.settings, fits.scanner.lookahead, fits.scanner.free, rfl⟩,
    (endings_append ..).trans (by simp [fits.quiet, fits.scanner.quiet, Scanner.takeDiagnostics])⟩, rfl, rfl, rfl⟩

/-- A token that is taken is one that may come up. -/
theorem nextSignificant_ensures :
    Ensures (Good base held context known) nextSignificant
      (fun l s => s.Good base held context known ∧ l.token.Fits Watch.terms) (Good base held context known) := by
  refine .cycle (fun _ => Good base held context known) (fun _ _ => id) fun newline => ?_
  have next : Ensures (Good base held context known)
      (modifyGet fun s => (s.scanner.next.1, { s with scanner := s.scanner.next.2 }))
      (fun l s => s.Good base held context known ∧ l.token.Fits Watch.terms) (Good base held context known) :=
    fun s good => ⟨good.aside ⟨good.fits.current, (scanned_next good.fits.scanner).scanner, good.fits.quiet⟩ rfl rfl rfl,
      (scanned_next good.fits.scanner).token⟩
  refine next.bind fun ⟨token, _, _, _⟩ s ⟨good, fits⟩ => ?_
  have good := Steady.run (x := collectDiagnostics) base held context s good
  cases token
  case importantComment => exact good.aside (good.fits.same rfl rfl rfl) rfl rfl rfl
  all_goals exact ⟨good, fits⟩

instance : Steady known bump :=
  ⟨fun _ _ _ => nextSignificant_ensures.bind fun _ _ ⟨good, fits⟩ =>
    good.aside ⟨fits, good.fits.scanner, good.fits.quiet⟩ rfl rfl rfl⟩

instance (p : Punctuator) : Steady known (eat p) := steady_bind

instance (mark : Parse Bool) (part : Parse α) [Steady known mark] [Steady known part] :
    Steady known (optionally mark part) := steady_bind

instance (problem : Problem) (span : Span) [Holds problem.isInside] : Steady known (report problem span) :=
  ⟨fun _ _ _ _ good => good.reported problem span⟩

/-- A rule that gives up may promise anything. Only at the end of the input it reports that this ended. -/
theorem fail_ensures (what : Expectation) :
    Ensures (Good base held context known) (fail what) Q (Good base held context known) := by
  intro s good
  have run : (fail what : Parse α) s = (if s.current.token.isEnd = true then do
      report .endOfInput s.current.span
      throw (.endOfInput s.current.span.start.line s.current.span.start.column)
    else do
      report (.expected what (← token)) s.current.span
      throw .recover : Parse α) s := rfl
  rw [run]
  cases ended : s.current.token.isEnd with
  | true => exact ⟨s.diagnostics, s.current.span, good, ended, endings_append .., rfl, rfl⟩
  | false => exact good.reported (.expected what s.current.token) s.current.span

instance (what : Expectation) : Steady known (fail what : Parse α) :=
  ⟨fun _ _ _ => fail_ensures what⟩

instance (p : Punctuator) : Steady known (expect p) := steady_bind

instance : Steady known consumeSemicolon := steady_bind

instance (startOffset : Nat) : Steady known (synchronize startOffset) := by
  refine .rounds fun _ => ?_
  infer_instance

instance : Steady known rescanSlash := by
  have rescan (l : Lexeme) : Steady known (modify fun s =>
      { s with current := (s.scanner.rescanAsRegExp l).1, scanner := (s.scanner.rescanAsRegExp l).2 } : Parse PUnit) :=
    steady_modifyGet fun s fits =>
      ⟨⟨(scanned_rescanAsRegExp fits.scanner l).token, (scanned_rescanAsRegExp fits.scanner l).scanner, fits.quiet⟩,
        rfl, rfl, rfl⟩
  unfold rescanSlash
  infer_instance

instance (start : Span) : Steady known (spanFrom start) := steady_bind

instance (id : NodeId) : Steady known (formOf id) := steady_bind

instance (id : NodeId) : Steady known (spanOf id) := steady_bind

instance : Steady known nameHere? := by
  refine .andThen fun s => .andThen fun t => ?_
  split <;> infer_instance

instance : Steady known expectIdentifier := by
  refine .andThen fun name => ?_
  split <;> infer_instance

instance : Steady known expectPropertyName := by
  refine .andThen fun t => ?_
  split <;> infer_instance

instance (kind : FunctionKind) : Steady known (functionName kind) := by
  refine .andThen fun name => ?_
  split <;> infer_instance

instance (opened : Span) : Steady known (closeBrace opened) := steady_bind

instance (target : NodeId) (allowPattern : Bool) : Steady known (checkTarget target allowPattern) := steady_bind

instance : Steady known isStaticMember := by
  refine .andThen fun found => .choice (.andThen fun t => ?_) inferInstance
  split <;> infer_instance

instance : Steady known methodPrefixes := steady_bind

instance : Steady known isLetDeclaration := by
  refine .andThen fun t => ?_
  split <;> infer_instance

instance : Steady known jumpLabel := by
  refine .andThen fun l => ?_
  split <;> infer_instance

instance : Steady known sourceText := by
  refine .andThen fun t => ?_
  split <;> infer_instance

instance : Steady known moduleSpecifier := by
  refine .andThen fun source => ?_
  split <;> infer_instance

instance : Steady known exportedNames := by
  refine @Steady.andThen _ _ _ _ _ _ (.rounds fun done => ?_) fun names => inferInstance
  exact .andThen fun closed => inferInstance

end Parse

end Condense
