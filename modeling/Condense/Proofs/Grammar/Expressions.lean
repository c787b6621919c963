import Condense.Proofs.Grammar.Functions

/-!
The rules for expressions.
-/

namespace Condense.Parse

attribute [local simp] Form.children List.count_cons

variable [Watch] {β : Type} {base : Tree} {held : List NodeId} {known : List ScopeId}

instance (name : String) (span : Span) : Makes known (lookup name span) :=
  ⟨fun _ => carries_alloc _ (by simp)⟩

instance [marked : Holds Watch.terms.markers] (x : Float) : Sited known (.constant (.number x)) :=
  ⟨fun unmarked => absurd (marked.holds.symm.trans unmarked) Bool.noConfusion, trivial⟩

mutual

theorem jsonLiteral_yields [Holds Watch.terms.markers] (span : Span) : ∀ value, Makes known (jsonLiteral span value)
  | .null | .boolean _ | .number _ | .string _ => ⟨fun _ => carries_alloc _ (by simp)⟩
  | .array items => by
    rw [jsonLiteral]
    exact ⟨fun _ => (jsonItems_yields span items).bind fun elements => carries_alloc _ (by simp)⟩
  | .object members => by
    rw [jsonLiteral]
    exact ⟨fun _ => (jsonMembers_yields span members).bind fun properties => carries_alloc _ (by simp)⟩

theorem jsonItems_yields [Holds Watch.terms.markers] (span : Span) : ∀ items, Yields known (jsonItems span items) id
  | [] => ⟨fun _ => carries_pure (by simp)⟩
  | item :: rest => by
    rw [jsonItems]
    refine ⟨fun _ => (jsonLiteral_yields span item).bind fun id => ?_⟩
    exact (jsonItems_yields span rest).bind fun ids => carries_pure (by simp)

theorem jsonMembers_yields [Holds Watch.terms.markers] (span : Span) : ∀ members, Yields known (jsonMembers span members) id
  | [] => ⟨fun _ => carries_pure (by simp)⟩
  | (key, value) :: rest => by
    rw [jsonMembers]
    refine ⟨fun _ => (carries_alloc [] (by simp)).bind fun key => ?_⟩
    refine (jsonLiteral_yields span value).bind fun value => ?_
    refine (carries_alloc [] (by simp +arith)).bind fun property => ?_
    exact (jsonMembers_yields span rest).bind fun ids => carries_pure (by simp)

end

instance [Holds Watch.terms.markers] (value : ReplacementValue) (span : Span) :
    Makes known (replacementLiteral value span) := by
  refine ⟨fun base => ?_⟩
  cases value with
  | json value => exact (jsonLiteral_yields span value).run base
  | _ => exact carries_alloc _ (by simp)

/-- A marker in place of an expression. Where none may be replaced it brings no number. -/
theorem replacement_carries {name : String} {fallback : Option String}
    (fits : (Token.replacement name fallback).Fits Watch.terms) (start : Span) :
    Carries base [] known (replacement name fallback start) fun id => [id] := by
  refine .skip fun _ context s good => ?_
  suffices rest : Carries base [] known ((s.scanner.settings.resolveMarker? name fallback).elim
      (alloc (.replacementToken name fallback) start) fun text => replacementLiteral (ReplacementValue.classify text) start)
      fun id => [id] from rest context s good
  cases found : s.scanner.settings.resolveMarker? name fallback with
  | none => exact carries_alloc _ (by simp)
  | some text =>
    cases marked : Watch.terms.markers with
    | true =>
      have : Holds Watch.terms.markers := ⟨marked⟩
      exact Yields.run (x := replacementLiteral _ start) base
    | false =>
      rcases fits.unreplaced marked with unset | other
      · simp [Settings.resolveMarker?, good.fits.scanner.settings, unset] at found
      · cases other

theorem leaf_carries {form : Form NodeId} [Sited known form] (none : form.children = []) (start : Span) :
    Carries base [] known (leaf form start) fun id => [id] :=
  .skip fun _ => carries_alloc _ fun _ => by rw [none, List.nil_append]

theorem joinItems_carries (first : NodeId) (rest : List NodeId) :
    Carries base (first :: rest) known (joinItems first rest) fun id => [id] := by
  induction rest generalizing first with
  | nil => exact carries_pure (by simp)
  | cons second rest ih =>
    rw [joinItems, List.foldlM_cons]
    refine Carries.bind ?_ ih
    refine .skip fun _ => .skip fun _ => ?_
    exact carries_alloc _ (by simp)

theorem grouping_carries (items : List NodeId) (trailing : Bool) (start : Span) :
    Carries base items known (grouping items trailing start) fun id => [id] := by
  refine .skip fun s => ?_
  cases items with
  | nil => exact carries_fail _
  | cons first rest =>
    dsimp only
    split
    · exact carries_fail _
    split
    · exact .skip fun _ => carries_throw _
    · exact (joinItems_carries first rest).bind fun id => carries_allocFrom _ (by simp)

/-- An arrow function opens its scope and moves the scopes of its parameters into it. -/
theorem Carries.adopting {f : ScopeId → Parse β} {after : β → List NodeId} {enclosing : ScopeId} {since : Nat}
    [knows : Knows enclosing known] (recent : Watch.ofScopes → Outset.scopes.scopes.size ≤ since)
    (rest : ∀ scope, Carries base held (scope :: known) (f scope) after) :
    Carries base held known (do
      let scope ← onScopes (·.pushScope .function enclosing)
      modifyScopes fun t =>
        (t.modifyScope scope fun s => { s with isArrow := true }).adoptScopes since enclosing scope
      f scope) after := by
  intro context s good
  let arrow : Scope → Scope := fun s => { s with isArrow := true }
  have pushed := good.rescoped fun _ within =>
    within.pushed .function (within.live _ knows.member)
  have marked := pushed.rescoped fun _ within =>
    within.marked (ScopeTree.marks_modifyScope ⟨s.scopes.scopes.size⟩ arrow (fun _ => rfl) fun _ => rfl)
  have link (watched : Watch.ofScopes) : (((s.scopes.pushScope .function enclosing).2.modifyScope
      ⟨s.scopes.scopes.size⟩ arrow).scope ⟨s.scopes.scopes.size⟩).parent = some enclosing := by
    have same (x : Scope) : (arrow x).parent = x.parent := rfl
    have live := (good.within watched).live _ knows.member
    rw [ScopeTree.modifyScope_keeps _ Scope.parent _ arrow same,
      ScopeTree.pushScope_parent .function enclosing none live.1, if_pos rfl]
  have adopted := marked.rescoped fun watched within =>
    within.adopted (recent watched) enclosing _ (within.live _ (.head _)) (link watched)
  exact (rest _).forget (fun _ => List.mem_cons_of_mem _) context _ adopted

/-- A scope that is opened from now on is new. -/
theorem Carries.since {f : ParseState → Parse β} {after : β → List NodeId}
    (rest : ∀ s : ParseState, (Watch.ofScopes → Outset.scopes.scopes.size ≤ s.scopes.scopes.size) →
      Carries base held known (f s) after) : Carries base held known (get >>= f) after :=
  fun context s good => rest s (fun watched => (good.within watched).sound.built.scopes) context s good

variable {rules : Rules} [Rules.Sound rules]

instance : Makes known (expression rules) := by
  refine ⟨fun base => .skip fun start => .take fun first => ?_⟩
  refine carries_cycle first (fun left => [left]) (fun left => [left]) fun left => ?_
  refine .skip fun comma => ?_
  split
  · refine .take fun right => ?_
    exact (carries_allocFrom [] (by simp +arith)).bind fun id => carries_pure (by simp +arith)
  · exact carries_pure (by simp)

instance (scope : ScopeId) (isAsync : Bool) [knows : Knows scope known] :
    Makes known (arrowBody rules scope isAsync) := by
  refine ⟨fun base => .skip fun brace => ?_⟩
  split
  · exact .last (by simp +arith)
  · refine .skip fun start => ?_
    refine (Yields.around _ (fun _ _ within => within.live scope knows.member) fun _ => inferInstance).bind fun body => ?_
    exact carries_allocFrom _ (by simp)

theorem finishArrow_carries (params : List NodeId) (isAsync : Bool) (start : Span) {since : Nat}
    (recent : Watch.ofScopes → Outset.scopes.scopes.size ≤ since) :
    Carries base params known (finishArrow rules params isAsync start since) fun id => [id] := by
  refine .skip fun arrow => ?_
  split
  · exact carries_fail _
  refine .skip fun _ => .here fun enclosing => .adopting recent fun scope => ?_
  refine (Carries.forM fun param member => declarePattern_carries _ _ _ member).bind fun _ => ?_
  refine .take fun body => (carries_allocFrom [] (by simp)).bind fun id => ?_
  exact .skip fun _ => carries_pure (by simp)

instance : Makes known (spreadable rules) := by
  refine ⟨fun base => .skip fun start => .skip fun spread => ?_⟩
  split
  · exact .take fun argument => carries_allocFrom _ (by simp)
  · exact .last (by simp +arith)

instance : Yields known (arguments rules) id :=
  ⟨fun _ => .skip fun _ => .take fun items => .skip fun _ => carries_pure (by simp)⟩

instance : Makes known (arrayLiteral rules) :=
  ⟨fun _ => .skip fun _ => .take fun elements => .skip fun _ => carries_allocFrom _ (by simp)⟩

theorem shorthandProperty_carries (name : String) (key : NodeId) (start : Span) :
    Carries base [key] known (shorthandProperty rules name key start) fun id => [id] := by
  refine .skip fun span => .take fun value => .skip fun assigned => ?_
  split
  · refine .take fun default => (carries_allocFrom [key] (by simp +arith)).bind fun value => ?_
    exact carries_allocFrom _ (by simp +arith)
  · exact carries_allocFrom _ (by simp +arith)

instance : Makes known (objectProperty rules) := by
  refine ⟨fun base => .skip fun start => .skip fun spread => ?_⟩
  split
  · exact .take fun argument => carries_allocFrom _ (by simp)
  refine .skip fun modifiers => .skip fun name => .take fun key => .skip fun call => ?_
  split
  · exact .take fun value => carries_allocFrom _ (by simp +arith)
  refine .skip fun colon => ?_
  split
  · exact .take fun value => carries_allocFrom _ (by simp +arith)
  split
  · exact shorthandProperty_carries _ _ _
  · exact carries_fail _

instance : Makes known (objectLiteral rules) :=
  ⟨fun _ => .skip fun _ => .take fun properties => .skip fun _ => carries_allocFrom _ (by simp)⟩

instance : Yields known (parenthesizedItems rules) fun r => r.1 := by
  refine yields_allowingIn fun _ => ?_
  refine yields_cycle Prod.fst Prod.fst rfl fun base (done, trailing) => ?_
  refine .skip fun closed => ?_
  split
  · exact carries_pure (by simp)
  refine .take fun item => .skip fun more => ?_
  split <;> exact carries_pure (by simp)

instance (start : Span) (isAsync : Bool) : Makes known (parenthesized rules start isAsync) := by
  refine ⟨fun base => .since fun s recent => .skip fun _ => ?_⟩
  refine .take fun items => .skip fun _ => .skip fun arrow => .skip fun newline => ?_
  split
  · refine (Carries.forM fun item member => toBinding_carries (by simpa using member)).bind fun _ => ?_
    exact (finishArrow_carries _ _ _ recent).drop (by simp +arith)
  split
  · exact .take fun callee => carries_allocFrom _ (by simp)
  · exact (grouping_carries _ _ _).drop (by simp +arith)

instance : Yields known (templateParts rules) fun r => r.2 := by
  refine yields_cycle Prod.snd Prod.snd rfl fun base parts => ?_
  refine .take fun part => .skip fun t => ?_
  split
  · exact .skip fun _ => carries_pure (by simp)
  · exact .skip fun _ => carries_pure (by simp)
  · exact carries_fail _

theorem template_carries (tag : Option NodeId) (start : Span) :
    Carries base tag.toList known (template rules tag start) fun id => [id] := by
  refine .skip fun l => ?_
  split
  · exact carries_allocFrom _ (by simp)
  · exact .take fun parts => carries_allocFrom _ (by simp +arith)
  · exact carries_fail _

instance (start : Span) : Makes known (nameOrArrow rules start) := by
  refine ⟨fun base => .skip fun name => ?_⟩
  cases name with
  | none => exact carries_fail _
  | some name =>
    refine .since fun s recent => .skip fun _ => .skip fun arrow => ?_
    refine .skip fun newline => ?_
    split
    · exact (carries_alloc [] (by simp)).bind fun param => finishArrow_carries _ _ _ recent
    · exact .last (by simp +arith)

instance (start : Span) : Makes known (asyncPrimary rules start) := by
  refine ⟨fun base => .skip fun next => ?_⟩
  split
  · exact Yields.run base
  split
  · exact .skip fun _ => .skip fun _ => Yields.run base
  · refine .since fun s recent => .skip fun _ => ?_
    refine .skip fun name => (carries_alloc [] (by simp)).bind fun param => ?_
    exact finishArrow_carries _ _ _ recent
  · exact .skip fun _ => Yields.run base
  · exact Yields.run base

instance : Makes known (primary rules) := by
  refine ⟨fun base => .skip fun start => .skip fun _ => .token fun t fits => ?_⟩
  split
  case h_1 =>
    have := sited_number fits.unsigned known
    exact leaf_carries rfl _
  case h_12 => exact .skip fun _ => Yields.run base
  case h_18 => exact replacement_carries fits start
  all_goals first
    | exact leaf_carries rfl _
    | exact template_carries none _
    | exact Yields.run base

theorem memberSuffix?_carries (object : NodeId) (start : Span) :
    Carries base [object] known (memberSuffix? rules object start) fun id => [id.getD object] := by
  refine .skip fun t => ?_
  split
  · refine .skip fun _ => .skip fun name => ?_
    exact (carries_allocFrom [] (by simp)).bind fun id => carries_pure (by simp)
  · refine .skip fun _ => .take fun key => .skip fun _ => ?_
    exact (carries_allocFrom [] (by simp +arith)).bind fun id => carries_pure (by simp +arith)
  case h_3 | h_4 => exact (template_carries (some object) start).bind fun id => carries_pure (by simp)
  · exact carries_pure (by simp)

theorem optionalSuffix_carries (object : NodeId) (start : Span) :
    Carries base [object] known (optionalSuffix rules object start) fun id => [id] := by
  refine .skip fun _ => .skip fun call => ?_
  split
  · exact .take fun items => carries_allocFrom _ (by simp)
  refine .skip fun element => ?_
  split
  · refine .take fun key => .skip fun _ => ?_
    exact carries_allocFrom _ (by simp +arith)
  · exact .skip fun name => carries_allocFrom _ (by simp)

instance : Makes known (newExpression rules) := by
  refine ⟨fun base => .skip fun first => .skip fun dot => ?_⟩
  split
  · refine .skip fun target => ?_
    split
    · exact .skip fun _ => carries_allocFrom _ (by simp)
    · exact carries_fail _
  refine .skip fun again => ?_
  extract_lets rest
  have behind (callee : NodeId) : Carries base [callee] known (rest callee) fun id => [id] := by
    refine (carries_cycle callee (fun id => [id]) (fun id => [id]) fun callee => ?_).bind fun callee => ?_
    · refine (memberSuffix?_carries callee _).bind fun next => ?_
      cases next with
      | none | some next => exact carries_pure (by simp)
    · refine .skip fun call => ?_
      split
      · exact .take fun items => carries_allocFrom _ (by simp)
      · exact carries_allocFrom _ (by simp)
  split <;> exact .take behind

instance : Makes known (leftHandSide rules) := by
  refine ⟨fun base => .skip fun start => .skip fun new => ?_⟩
  extract_lets rest
  have behind (first : NodeId) : Carries base [first] known (rest first) fun id => [id] := by
    refine carries_cycle first (fun id => [id]) (fun id => [id]) fun object => ?_
    refine .skip fun t => ?_
    split
    · exact (optionalSuffix_carries object start).bind fun id => carries_pure (by simp)
    · refine .take fun items => ?_
      exact (carries_allocFrom [] (by simp)).bind fun id => carries_pure (by simp)
    · refine (memberSuffix?_carries object start).bind fun next => ?_
      cases next with
      | none | some next => exact carries_pure (by simp)
  split <;> exact .take behind

instance (start : Span) : Makes known (postfixUpdate rules start) := by
  refine ⟨fun base => .take fun operand => .skip fun l => ?_⟩
  split
  · refine .skip fun _ => .skip fun _ => ?_
    exact carries_allocFrom _ (by simp)
  · exact carries_pure (by simp)

instance : Makes known (unary rules) := by
  refine ⟨fun base => .skip fun start => .skip fun t => ?_⟩
  split
  · refine .skip fun _ => .take fun operand => ?_
    exact carries_allocFrom _ (by simp)
  · exact .skip fun _ => .take fun operand => .skip fun _ => carries_allocFrom _ (by simp)
  · refine .skip fun s => ?_
    split
    · refine .skip fun _ => .take fun argument => ?_
      exact carries_allocFrom _ (by simp)
    · exact Yields.run base

instance (rank : Nat) : Makes known (binary rules rank) := by
  refine ⟨fun base => .skip fun start => .take fun first => ?_⟩
  refine carries_cycle first (fun id => [id]) (fun id => [id]) fun left => .skip fun t => ?_
  split
  · exact carries_pure (by simp)
  refine .skip fun s => ?_
  split
  · exact carries_pure (by simp)
  refine .skip fun _ => .take fun right => ?_
  exact (carries_allocFrom [] (by simp +arith)).bind fun id => carries_pure (by simp +arith)

instance : Makes known (conditional rules) := by
  refine ⟨fun base => .skip fun start => .take fun test => .skip fun question => ?_⟩
  split
  · exact .take fun consequent => .skip fun _ => .take fun alternate => carries_allocFrom _ (by simp +arith)
  · exact carries_pure (by simp)

instance : Makes known (yieldExpression rules) := by
  refine ⟨fun base => .skip fun first => .skip fun newline => ?_⟩
  extract_lets rest
  have behind (delegate : Bool) : Carries base [] known (rest delegate) fun id => [id] := by
    refine .skip fun l => ?_
    split
    · exact .take fun argument => carries_allocFrom _ (by simp)
    · exact carries_allocFrom _ (by simp)
  split
  · exact behind false
  · exact .skip behind

instance : Makes known (assignment rules) := by
  refine ⟨fun base => .skip fun start => .skip fun word => .skip fun s => ?_⟩
  split
  · exact Yields.run base
  refine .take fun left => .skip fun t => ?_
  split
  · exact .skip fun _ => .skip fun _ => .take fun right => carries_allocFrom _ (by simp +arith)
  · exact carries_pure (by simp)

end Condense.Parse
