import Condense.Proofs.Grammar.Statements

/-!
A whole chunk under watch.
-/

namespace Condense

open ScopeTree

open ParseState (Good)

@[reducible] def Watch.telling [watch : Watch] (told : List Diagnostic) : Watch :=
  { watch with told }

def Diagnostic.place (d : Diagnostic) : UInt32 × UInt32 :=
  (d.span.start.line, d.span.start.column)

structure ParseState.Ended [Watch] (base : Tree) (root : NodeId) (aborted : Option (UInt32 × UInt32)) (s : ParseState) :
    Prop where
  written : Watch.start.Writes Watch.terms.markers s.tree
  holding : Watch.ofNodes → s.Holding base [root]
  within : Watch.ofScopes → ∃ context, s.Within context []
  places : (endings s.diagnostics).map Diagnostic.place = Watch.told.map Diagnostic.place ++ aborted.toList

theorem ParseState.Good.ended [Watch] {base : Tree} {root : NodeId} {context : Context} {known : List ScopeId}
    {s : ParseState} {told : List Diagnostic} {aborted : Option (UInt32 × UInt32)}
    (good : @Good (Watch.telling told) base [root] context known s)
    (places : told.map Diagnostic.place = Watch.told.map Diagnostic.place ++ aborted.toList) :
    s.Ended base root aborted := by
  obtain ⟨written, fits, holding, within⟩ := good
  exact ⟨written, holding, fun watched => ⟨context, (within watched).fewer (by simp)⟩, fits.quiet ▸ places⟩

namespace Parse

attribute [local simp] Form.children List.count_cons

section

variable [Watch] {base : Tree} {held : List NodeId} {context : Context} {known : List ScopeId}

theorem rulesUpTo_sound (depth : Nat) : Rules.Sound (rulesUpTo depth) := by
  induction depth with
  | zero => exact ⟨fun _ _ => ⟨fun _ => carries_throw _⟩⟩
  | succ depth ih =>
    refine ⟨fun goal known => ?_⟩
    show Makes known (rule (rulesUpTo depth) goal)
    cases goal <;> dsimp only [rule] <;> infer_instance

instance {rules : Rules} [Rules.Sound rules] : Yields known (jsonChunk rules) Prod.fst Prod.snd := by
  refine ⟨fun base => .skip fun ended => ?_⟩
  split
  · exact carries_answer rfl (by simp)
  refine (Yields.attempt (show Makes known _ from ⟨fun base => ?_⟩)).caught (fun value => ?_) fun e _ s left => ?_
  · refine .take fun value => .skip fun _ => ?_
    exact carries_pure (by simp)
  · exact statementList_carries none false [value]
  · exact left

theorem programScope_ensures (settings : Settings) :
    Ensures (Good base held context [global]) (programScope settings)
      (fun scope => Good base held context [scope]) (Good base [] context []) := by
  have strict (known : List ScopeId) (scope : ScopeId) : Ensures (Good base held context known)
      (modifyScopes (·.modifyScope scope fun s => { s with useStrict := true })) (fun _ => Good base held context known)
      (Good base [] context []) :=
    (Steady.run base held context).imp (fun _ => id) (fun _ _ => id) fun _ good => good.failed (by simp)
  unfold programScope
  extract_lets rest
  have behind (u : Unit) : Ensures (Good base held context [global]) (rest u)
      (fun scope => Good base held context [scope]) (Good base [] context []) := by
    dsimp only [rest]
    split
    · exact fun _ good => good
    · refine ((push_ensures .module global).imp (fun _ => id) (fun _ _ => id) fun _ good => ?_).bind fun scope => ?_
      · exact good.failed (by simp)
      refine (strict _ scope).bind fun _ s good => good.fewer (fun _ => .refl) (by simp)
  split
  · exact (strict _ _).bind behind
  · exact behind ()

theorem addFiles_carries (files : List String) :
    Carries base held known (modifyTree fun t => files.foldl (fun t name => (t.addFile name).2) t) fun _ => held := by
  intro context s good
  have nodes := s.tree.foldl_addFile_nodes files
  have same (id : NodeId) : (files.foldl (fun t name => (t.addFile name).2) s.tree).form id = s.tree.form id := by
    simp only [Tree.form, Tree.node?, nodes]
  exact good.reshaped (fun _ => .of_nodes nodes) (fun _ id _ => same id) fun id => .inl (same id)

omit [Watch] in
theorem flushComments_answers (s : ParseState) : ∃ ids s', flushComments s = .ok ids s' := by
  have mapped (waiting : List (String × Span)) (s : ParseState) :
      ∃ ids s', waiting.mapM (fun comment => alloc (.importantComment comment.1) comment.2) s = .ok ids s' := by
    induction waiting generalizing s with
    | nil => exact ⟨[], s, rfl⟩
    | cons comment rest ih =>
      obtain ⟨ids, s', run⟩ := ih { s with tree := (s.tree.alloc (.importantComment comment.1) comment.2).2 }
      rw [List.mapM_cons]
      have allocated : alloc (.importantComment comment.1) comment.2 s =
          .ok ⟨s.tree.size⟩ { s with tree := (s.tree.alloc (.importantComment comment.1) comment.2).2 } := rfl
      exact ⟨⟨s.tree.size⟩ :: ids, s', by simp only [Bind.bind, EStateM.bind, allocated, run]; rfl⟩
  exact mapped s.comments { s with comments := [] }

/-- The end of the input that a failure has reported is told in what follows. -/
theorem Left.told {s : ParseState} {failure : Option Failure}
    (left : Left (fun s => ∃ context, s.Good base held context known) s failure) :
    ∃ told context, @Good (Watch.telling told) base held context known s ∧
      told.map Diagnostic.place = Watch.told.map Diagnostic.place ++ (failure.bind (·.place?)).toList := by
  cases failure with
  | none =>
    obtain ⟨context, good⟩ := left
    exact ⟨Watch.told, context, good, by simp⟩
  | some e =>
    cases e with
    | recover | exhausted =>
      obtain ⟨context, good⟩ := left
      exact ⟨Watch.told, context, good, by simp [Failure.place?]⟩
    | endOfInput line column =>
      obtain ⟨before, span, ⟨context, good⟩, -, reports, startLine, startColumn⟩ := left
      refine ⟨endings s.diagnostics, context, @Good.mk (Watch.telling _) _ _ _ _ _ good.written
        ⟨good.fits.current, good.fits.scanner, rfl⟩ (fun watched => (good.holding watched).congr rfl)
        fun watched => (good.within watched).congr rfl rfl rfl, ?_⟩
      rw [reports, good.fits.quiet, List.map_append, ← startLine, ← startColumn]
      rfl

/-- The statements of a chunk are read in its own scope. -/
theorem program_ensures (settings : Settings) :
    Ensures (Good base [] context [global]) (program settings)
      (fun r s => s.Ended base r.1 (r.2.bind (·.place?))) fun s => ∃ context, s.Good base [] context [] := by
  have failed {held : List NodeId} {context : Context} {known : List ScopeId} (s : ParseState)
      (good : s.Good base held context known) : ∃ context, s.Good base [] context [] :=
    ⟨context, good.failed (by simp)⟩
  refine .get fun s => ?_
  have sound : Rules.Sound (rulesFor s.scanner.source) := rulesUpTo_sound _
  refine (nextSignificant_ensures.imp (fun _ => id) (fun _ _ => id) failed).bind fun first => ?_
  refine Ensures.bind (Q := fun _ => Good base [] context [global]) ?_ fun _ => ?_
  · exact fun s ⟨good, fits⟩ => good.aside ⟨fits, good.fits.scanner, good.fits.quiet⟩ rfl rfl rfl
  refine ((programScope_ensures settings).imp (fun _ => id) (fun _ _ => id) failed).bind fun scope => ?_
  refine Ensures.bind (Q := fun _ => Good base [] { context with scope } [scope]) (fun s good => ?_) fun _ => ?_
  · refine good.changed (good.fits.same rfl rfl rfl) rfl fun _ within => ?_
    rw [← within.context_eq]
    exact within.moved _ (within.live scope (by simp))
  refine Ensures.bind (Q := fun _ => Good base [] { context with scope } [scope]) (fun _ good => good) fun start => ?_
  extract_lets rest
  have carried (watch : Watch) (r : List NodeId × Option Failure) :
      Carries base r.1 [scope] (rest r) fun r => [r.1] := by
    have sited (statements : List NodeId) : Sited [scope] (.program statements scope) :=
      ⟨trivial, List.mem_singleton_self _⟩
    refine .take fun comments => .skip fun span => ?_
    refine (carries_alloc [] (by simp +arith)).bind fun root => ?_
    have owned : Steady [scope] (modifyScopes (·.modifyScope scope fun s =>
        if scope != global || s.owner.isNone then { s with owner := some root, span } else s)) := by
      refine steady_markScope scope (fun s => ?_) fun s => ?_
      all_goals split <;> rfl
    refine .skip fun _ => .skip fun s => (addFiles_carries _).bind fun _ => ?_
    exact .skip fun _ => carries_pure (by simp)
  have answers (r : List NodeId × Option Failure) (s : ParseState) : ∃ root s', rest r s = .ok (root, r.2) s' := by
    obtain ⟨comments, s₁, flushed⟩ := flushComments_answers s
    obtain ⟨span, spanned⟩ : ∃ span, spanFrom start s₁ = .ok span s₁ := by
      change ∃ span, (ite _ (pure start) (pure { start with stop := s₁.previous.stop }) : Parse Span) s₁ = _
      split <;> exact ⟨_, rfl⟩
    simp only [rest, Bind.bind, EStateM.bind, flushed, spanned]
    exact ⟨_, _, rfl⟩
  -- What comes behind the statements is done under another watch, which has an end of the input told.
  have behind (r : List NodeId × Option Failure) {context : Context} :
      Ensures (fun s => Left (Good base r.1 context [scope]) s r.2) (rest r)
        (fun r s => s.Ended base r.1 (r.2.bind (·.place?))) fun s => ∃ context, s.Good base [] context [] := by
    intro s left
    obtain ⟨told, context, good, places⟩ := (left.imp fun _ good => ⟨_, good⟩).told
    obtain ⟨root, s', run⟩ := answers r s
    have after := carried (Watch.telling told) r context s good
    rw [run] at after ⊢
    exact ParseState.Good.ended after places
  split
  · exact ((Yields.run base _).imp (fun _ => id) (fun _ _ => id) failed).bind fun r => behind r
  · exact ((statementList_carries none true [] _).imp (fun _ => id) (fun _ _ => id) failed).bind fun r => behind r

end

end Parse

def ParseState.begin (source fileName : String) (settings : Settings) (tree : Tree) (scopes : ScopeTree) : ParseState :=
  { scanner := (Scanner.new source settings).setFile (tree.addFile fileName).1 (tree.addFile fileName).2.files.size
    tree := (tree.addFile fileName).2
    scopes }

/-- The program node of a chunk that could not be read. -/
theorem ParseState.Good.rooted [Watch] {s : ParseState} {base : Tree} {context : Context}
    (good : s.Good base [] context []) :
    ({ s with tree := (s.tree.alloc (.program [] global) {}).2 } : ParseState).Good base [⟨s.tree.size⟩] context
      [global] := by
  have rooted : s.Good base [] context [global] := by
    refine good.changed good.fits rfl fun _ within => ?_
    have nested := within.sound.held.nested
    have here := within.sound.here
    exact within.more [_] (by simpa using nested.live_of_mem_ancestors here (nested.global_mem_ancestors here.1))
  exact rooted.alloc {} trivial (List.mem_singleton_self _) (by simp [Form.children])

theorem ScopeTree.linked_new : ({} : ScopeTree).Linked := by
  have alone (f : FieldId) : (({} : ScopeTree).field f).outer = none := by simp [field]
  have chained : ({} : ScopeTree).Chained := ⟨held_new, fun f o _ link => by simp [alone] at link⟩
  exact ⟨chained, fun f _ link => absurd (alone f) link⟩

@[reducible] def Outset.new : Outset :=
  ⟨{}, ScopeTree.linked_new⟩

theorem Declared.new : @Declared Outset.new {} {} := by
  refine @Declared.mk Outset.new _ _ ScopeTree.held_new (.refl _) ?_ ?_ ?_
  · simp [ScopeTree.Unnamed, field]
  · simp [Tree.form, Tree.node?, Form.ownScopes]
  · simp [Tree.form, Tree.node?, Form.reference?]

theorem Tree.tied_of_empty {t : Tree} (empty : t.nodes = #[]) : t.Tied := by
  have none (id : NodeId) : t.parent? id = none := by simp [Tree.parent?, Tree.node?, empty]
  have leaf (id : NodeId) : t.children id = [] := by
    simp [Tree.children, Tree.form, Tree.node?, empty, Form.children]
  refine ⟨fun id => ⟨?_, ?_⟩, ?_⟩ <;> simp [Tree.Held, none, leaf]

section

variable (source fileName : String) (settings : Settings) (tree : Tree) (scopes : ScopeTree)

/-- What is watched of a chunk: its nodes if they were tied before it, and its scopes if they are where it is set out. -/
@[reducible] def Watch.chunk [outset : Outset] (markers : Bool) : Watch :=
  { outset with
    terms := ⟨settings, markers⟩
    start := tree
    told := []
    ofNodes := tree.Tied
    ofScopes := scopes = outset.scopes ∧ Declared tree scopes }

section

variable (markers : Bool)
  (free : markers = false → settings.hasReplacements = false ∨ Scanner.MarkerFree source.toList)

include free

theorem ParseState.begin_good [Outset] :
    @Good (Watch.chunk settings tree scopes markers) (tree.addFile fileName).2 [] {} [global]
      (begin source fileName settings tree scopes) := by
  let watch := Watch.chunk settings tree scopes markers
  refine ⟨fun _ => .inl rfl, ⟨⟨trivial, fun _ => .inr rfl⟩, ⟨rfl, ?_, fun unmarked => ?_, rfl⟩, rfl⟩, ?_, ?_⟩
  · simp [begin, Scanner.new, Scanner.setFile]
  · exact (free unmarked).imp_right fun free => ⟨free, (Scanner.inText_new source settings).suffix⟩
  · exact fun tied => @Holding.of_tied (begin ..) (tied.congr (.of_nodes rfl))
  · rintro ⟨rfl, declared⟩
    have live := declared.held.nested.rooted.1
    exact ⟨⟨⟨declared.held, declared.built, declared.unnamed, declared.inside, declared.resolved⟩, live⟩, rfl,
      fun _ member => List.mem_singleton.mp member ▸ live⟩

theorem parseChunk_ended [Outset] :
    let parsed := parseChunk source fileName settings tree scopes
    ∃ s : ParseState, s.tree = parsed.2.1 ∧ s.scopes = parsed.2.2 ∧ s.diagnostics = parsed.1.diagnostics ∧
      @ParseState.Ended (Watch.chunk settings tree scopes markers) (tree.addFile fileName).2 parsed.1.root
        parsed.1.abortedAt s := by
  let watch := Watch.chunk settings tree scopes markers
  have run := Parse.program_ensures settings _ (ParseState.begin_good source fileName settings tree scopes markers free)
  unfold ParseState.begin at run
  dsimp only [parseChunk]
  split
  · rename_i root failure s result
    rw [result] at run
    exact ⟨s, rfl, rfl, rfl, run⟩
  · rename_i e s result
    rw [result] at run
    have left : Parse.Left (fun s => ∃ context, s.Good (tree.addFile fileName).2 [] context []) s (some e) := run
    obtain ⟨told, context, good, places⟩ := left.told
    have rooted := @ParseState.Good.rooted (Watch.telling told) _ _ _ good
    exact ⟨{ s with tree := (s.tree.alloc (.program [] global) {}).2 }, rfl, rfl, rfl, rooted.ended places⟩

/-- Parsing a chunk writes forms that the parser may write only. -/
theorem parseChunk_writes : tree.Writes markers (parseChunk source fileName settings tree scopes).2.1 := by
  let _ := Outset.new
  obtain ⟨s, sameTree, -, -, ⟨written, -, -, -⟩⟩ := parseChunk_ended source fileName settings tree scopes markers free
  exact sameTree ▸ written

end

/-- A chunk is aborted exactly where the end of the input is reported, which is once then and at the same place. -/
theorem parseChunk_aborted_iff :
    let chunk := (parseChunk source fileName settings tree scopes).1
    (chunk.abortedAt.isSome = true ↔ ∃ d ∈ chunk.diagnostics, d.code = .unexpectedEndOfInput) ∧
      (endings chunk.diagnostics).map Diagnostic.place = chunk.abortedAt.toList := by
  let _ := Outset.new
  obtain ⟨s, -, -, reports, ⟨-, -, -, places⟩⟩ := parseChunk_ended source fileName settings tree scopes true nofun
  intro chunk
  have once : (endings chunk.diagnostics).map Diagnostic.place = chunk.abortedAt.toList := reports ▸ places
  have some : chunk.abortedAt.isSome = true ↔ endings chunk.diagnostics ≠ [] := by
    rw [ne_eq, ← List.map_eq_nil_iff (f := Diagnostic.place), once]
    cases chunk.abortedAt <;> simp
  refine ⟨some.trans ?_, once⟩
  simp [endings]

variable {tree}

/-- A chunk leaves the nodes alone that were there before it, and nothing holds its program node. -/
theorem parseChunk_holding (tied : tree.Tied) :
    ∃ s : ParseState, s.tree = (parseChunk source fileName settings tree scopes).2.1 ∧
      s.Holding (tree.addFile fileName).2 [(parseChunk source fileName settings tree scopes).1.root] := by
  let _ := Outset.new
  obtain ⟨s, sameTree, -, -, ⟨-, holding, -, -⟩⟩ := parseChunk_ended source fileName settings tree scopes true nofun
  exact ⟨s, sameTree, holding tied⟩

/-- Every slot is linked to its holder, whether the chunk was read to its end or not. -/
theorem parseChunk_tied :
    let parsed := parseChunk source fileName settings {} {}
    parsed.2.1.Tied ∧ parsed.1.root.index < parsed.2.1.size ∧ parsed.2.1.parent? parsed.1.root = none := by
  have empty : ({} : Tree).Tied := Tree.tied_of_empty rfl
  obtain ⟨s, tree, holding⟩ := parseChunk_holding source fileName settings {} empty
  obtain ⟨-, inside, top⟩ := holding.free _ (.head _)
  exact ⟨tree ▸ holding.tied, tree ▸ inside, tree ▸ top⟩

/-- Parsing declares all names of a text and resolves none. -/
theorem parseChunk_declared [Outset] (declared : Declared tree Outset.scopes) :
    Declared (parseChunk source fileName settings tree Outset.scopes).2.1
      (parseChunk source fileName settings tree Outset.scopes).2.2 := by
  obtain ⟨s, sameTree, sameScopes, -, ⟨-, -, within, -⟩⟩ :=
    parseChunk_ended source fileName settings tree Outset.scopes true nofun
  obtain ⟨_, within⟩ := within ⟨rfl, declared⟩
  rw [← sameTree, ← sameScopes]
  exact within.sound.toDeclared

end

end Condense
