import Condense.Proofs.Grammar.Watch

/-!
Rules that take nodes over and hand nodes out, and the scopes that they bring.
-/

set_option synthInstance.maxSize 2048

namespace Condense.Parse

open ParseState (Good)

attribute [local simp] Form.children List.count_cons

variable [Watch] {α β σ : Type} {base : Tree} {held : List NodeId} {context : Context} {known : List ScopeId}
  {nodes : α → List NodeId} {failure : β → Option Failure} {x : Parse α} {f : α → Parse β} {after : β → List NodeId}

omit [Watch] in
def failure? : Except Failure α → Option Failure
  | .ok _ => none
  | .error e => some e

omit [Watch] in
/-- Whether a rule leaves a state with `R` behind that may have answered with a failure. -/
def Left (R : ParseState → Prop) (s : ParseState) : Option Failure → Prop
  | none => R s
  | some e => e.Leaves R s

omit [Watch] in
theorem Left.imp {R R' : ParseState → Prop} {s : ParseState} {failure : Option Failure} (left : Left R s failure)
    (weaker : ∀ s, R s → R' s) : Left R' s failure := by
  cases failure with
  | none => exact weaker s left
  | some e => exact Failure.Leaves.imp left weaker

/-- A rule that starts with the nodes `held` and answers with the nodes that `after` says. One that fails has
dropped all. Some rules answer with a failure. -/
def Carries (base : Tree) (held : List NodeId) (known : List ScopeId) (x : Parse α) (after : α → List NodeId)
    (failure : α → Option Failure := fun _ => none) : Prop :=
  ∀ context, Ensures (Good base held context known) x
    (fun a s => Left (Good base (after a) context known) s (failure a)) (Good base [] context known)

class Yields (known : List ScopeId) (x : Parse α) (nodes : outParam (α → List NodeId))
    (failure : outParam (α → Option Failure) := fun _ => none) : Prop where
  run : ∀ base, Carries base [] known x nodes failure

abbrev Makes (known : List ScopeId) (x : Parse NodeId) : Prop :=
  Yields known x fun id => [id]

theorem Carries.bind {between : α → List NodeId}
    (first : Carries base held known x between) (rest : ∀ a, Carries base (between a) known (f a) after failure) :
    Carries base held known (x >>= f) after failure :=
  fun context => (first context).bind fun a => rest a context

/-- What was brought is forgotten at the end. -/
theorem Carries.forget {after : α → List NodeId} {more : List ScopeId}
    (carries : Carries base held more x after) (sub : ∀ s ∈ known, s ∈ more) (context : Context) :
    Ensures (Good base held context more) x (fun a => Good base (after a) context known) (Good base [] context known) :=
  (carries context).imp (fun _ => id) (fun _ _ good => good.fewer (fun _ => .refl) sub) fun _ good =>
    good.failed sub

theorem Steady.carries (x : Parse α) [steady : Steady known x] : Carries base held known x fun _ => held :=
  fun context => (steady.run base held context).imp (fun _ => id) (fun _ _ => id) fun _ good => good.failed fun _ => id

/-- A rule that touches no nodes may come first. -/
theorem Carries.skip [Steady known x] (rest : ∀ a, Carries base held known (f a) after failure) :
    Carries base held known (x >>= f) after failure :=
  (Steady.carries x).bind rest

/-- Such a rule may also be left out. -/
theorem Carries.optional {c : Prop} [Decidable c] {rest : Parse β} [Steady known x]
    (behind : Carries base held known rest after) :
    Carries base held known (if c then x >>= fun _ => rest else rest) after := by
  split
  · exact .skip fun _ => behind
  · exact behind

/-- A rule that answers with new nodes leaves those alone that are held. -/
theorem Yields.beside {failed : α → Option Failure} (yields : Yields known x nodes failed) :
    Carries base held known x (fun a => nodes a ++ held) failed := by
  intro context s good
  refine (yields.run s.tree context).imp (fun _ => id) (fun a s' left => ?_) (fun _ after => ?_) s good.alone
  · exact left.imp fun _ => good.framed
  · exact (good.framed after).failed fun _ => id

theorem Yields.bind (first : Yields known x nodes)
    (rest : ∀ a, Carries base (nodes a ++ held) known (f a) after failure) :
    Carries base held known (x >>= f) after failure :=
  first.beside.bind rest

theorem Carries.take [yields : Yields known x nodes]
    (rest : ∀ a, Carries base (nodes a ++ held) known (f a) after failure) :
    Carries base held known (x >>= f) after failure :=
  yields.bind rest

/-- A failure that was answered is looked at. -/
theorem Carries.caught {x : Parse (Except Failure α)} {f : Except Failure α → Parse β}
    {between : Except Failure α → List NodeId} (first : Carries base held known x between failure?)
    (ok : ∀ a, Carries base (between (.ok a)) known (f (.ok a)) after failure)
    (error : ∀ e context, Ensures (fun s => e.Leaves (Good base (between (.error e)) context known) s) (f (.error e))
      (fun b s => Left (Good base (after b) context known) s (failure b)) (Good base [] context known)) :
    Carries base held known (x >>= f) after failure := by
  refine fun context => (first context).bind fun a => ?_
  cases a with
  | ok a => exact ok a context
  | error e => exact error e context

theorem carries_answer {b : β} (none : failure b = none)
    (fits : ∀ x, (after b).count x ≤ held.count x) : Carries base held known (pure b) after failure := by
  intro _ s good
  show Left _ s (failure b)
  rw [none]
  exact good.fewer fits fun _ => id

theorem carries_pure {a : α} {after : α → List NodeId}
    (fits : ∀ x, (after a).count x ≤ held.count x) : Carries base held known (pure a) after :=
  carries_answer rfl fits

theorem Carries.value {a : α} (rest : Carries base held known (f a) after) :
    Carries base held known (pure a >>= f) after :=
  rest

/-- A rule that always fails may promise anything. -/
theorem carries_throw (e : Failure) [quiet : Holds e.isQuiet] {after : α → List NodeId} :
    Carries base held known (throw e) after :=
  fun _ _ good => Failure.leaves_of_isQuiet quiet.holds (good.failed fun _ => id)

theorem carries_fail (what : Expectation) {after : α → List NodeId} : Carries base held known (fail what) after :=
  fun _ => (fail_ensures what).imp (fun _ => id) (fun _ _ => id) fun _ good => good.failed fun _ => id

/-- A failure that was answered is passed on. -/
theorem rethrow_ensures (e : Failure) {Q : α → ParseState → Prop} :
    Ensures (fun s => e.Leaves (Good base held context known) s) (throw e) Q (Good base [] context known) :=
  fun _ left => left.imp fun _ good => good.failed fun _ => id

theorem Carries.weaken {after fewer : α → List NodeId} (carries : Carries base held known x after)
    (fits : ∀ a x, (fewer a).count x ≤ (after a).count x) : Carries base held known x fewer :=
  fun context => (carries context).imp (fun _ => id) (fun a _ good => good.fewer (fits a) fun _ => id) fun _ => id

/-- A rule may start with more nodes than it needs. -/
theorem Carries.drop {needed : List NodeId} {after : α → List NodeId} {failed : α → Option Failure}
    (carries : Carries base needed known x after failed) (fits : ∀ x, needed.count x ≤ held.count x) :
    Carries base held known x after failed :=
  fun context => (carries context).imp (fun _ good => good.fewer fits fun _ => id) (fun _ _ => id) fun _ => id

/-- A last rule hands out its nodes and those that are held. -/
theorem Carries.last {after : α → List NodeId} [yields : Yields known x nodes]
    (fits : ∀ a x, (after a).count x ≤ (nodes a ++ held).count x) : Carries base held known x after :=
  yields.beside.weaken fits

instance (mark : Parse Bool) (part : Parse NodeId) [Steady known mark] [Makes known part] :
    Yields known (optionally mark part) Option.toList := by
  refine ⟨fun base => .skip fun found => ?_⟩
  split
  · exact .skip fun _ => .take fun id => carries_pure (by simp)
  · exact carries_pure (by simp)

/-- What is held after a round of a repetition, be it the last or not. -/
@[simp] def Turn.holding (holds : σ → List NodeId) (after : β → List NodeId) : Turn σ β → List NodeId
  | .again x => holds x
  | .done b => after b

def Turn.failed (failure : β → Option Failure) : Turn σ β → Option Failure
  | .again _ => none
  | .done b => failure b

/-- What is held after a rule whose failure is answered as a value. -/
@[simp] def attempted (nodes : α → List NodeId) (held : List NodeId) : Except Failure α → List NodeId
  | .ok a => nodes a ++ held
  | .error _ => held

/-- Every round of a repetition starts with the nodes that `holds` says. -/
theorem carries_cycle {body : σ → Parse (Turn σ β)} (start : σ) (holds : σ → List NodeId) (after : β → List NodeId)
    (each : ∀ x, Carries base (holds x) known (body x) (Turn.holding holds after) (Turn.failed failure)) :
    Carries base (holds start) known (cycle start body) after failure := by
  intro context
  refine .cycle (fun x => Good base (holds x) context known) (fun _ _ good => good.failed fun _ => id) fun x => ?_
  refine (each x context).imp (fun _ => id) (fun turn s left => ?_) fun _ => id
  cases turn <;> exact left

theorem yields_cycle {body : σ → Parse (Turn σ β)} {start : σ} (holds : σ → List NodeId) (after : β → List NodeId)
    (none : holds start = []) (each : ∀ base x, Carries base (holds x) known (body x) (Turn.holding holds after)) :
    Yields known (cycle start body) after := by
  have failed : (Turn.failed fun _ => Option.none : Turn σ β → Option Failure) = fun _ => .none := by
    funext turn
    cases turn <;> rfl
  refine ⟨fun base => ?_⟩
  rw [← none]
  exact carries_cycle start holds after (failed ▸ each base)

/-- A failure that is answered as a value leaves what is held alone. -/
theorem Yields.attempt (yields : Yields known x nodes) :
    Carries base held known (attempt x) (attempted nodes held) failure? := by
  intro context s good
  have run := yields.run s.tree context s good.alone
  unfold Parse.attempt
  cases result : x s with
  | ok a s' =>
    rw [result] at run
    exact good.framed run
  | error e s' =>
    rw [result] at run
    exact Failure.Leaves.imp run fun _ => good.framed

theorem Carries.relabeled {after : α → List NodeId} {labels : List (String × Bool)}
    (carries : Carries base held known x after) :
    Carries base held known (x.afterwards fun s => { s with labels }) after := by
  have changed {kept : List NodeId} {context : Context} {s : ParseState} (good : s.Good base kept context known) :
      ({ s with labels } : ParseState).Good base kept context known :=
    good.aside (good.fits.same rfl rfl rfl) rfl rfl rfl
  exact fun context => (carries context).afterwards (fun _ _ => changed) (fun _ => changed) (fun _ _ => rfl) fun _ => rfl

theorem Yields.mapM {f : σ → Parse NodeId} (list : List σ) (each : ∀ x, Makes known (f x)) :
    Yields known (list.mapM f) id := by
  induction list with
  | nil => exact ⟨fun _ => carries_pure (by simp)⟩
  | cons x rest ih =>
    rw [List.mapM_cons]
    exact ⟨fun _ => .take fun id => .take fun ids => carries_pure (by simp)⟩

/-- A rule is run in another context, whose scope is in use. -/
theorem Yields.around (f : Context → Context)
    (enters : ∀ context (s : ParseState), s.Within context known → s.scopes.Live (f context).scope)
    (rule : ∀ here, Yields (here :: known) x nodes) : Yields known (withContext f x) nodes := by
  refine ⟨fun base context s good => ?_⟩
  have inner : ({ s with context := f s.context } : ParseState).Good base [] (f context) (context.scope :: known) := by
    refine good.changed (good.fits.same rfl rfl rfl) rfl fun _ within => ?_
    rw [within.context_eq]
    have around := within.more [context.scope] (by simpa using within.live_here)
    exact around.moved (f context) (enters context s within)
  have back {kept : List NodeId} {s' : ParseState} (after : s'.Good base kept (f context) (context.scope :: known)) :
      ({ s' with context := s.context } : ParseState).Good base kept context known := by
    refine after.changed (after.fits.same rfl rfl rfl) rfl fun watched within => ?_
    rw [(good.within watched).context_eq]
    exact (within.moved context (within.live _ (.head _))).fewer fun _ => List.mem_cons_of_mem _
  have run := ((rule context.scope).run base (f context)).afterwards (fun _ _ => back) (fun _ => back)
    (fun _ _ => rfl) fun _ => rfl
  exact run _ inner

instance {scope : ScopeId} [knows : Knows scope known] [rule : ∀ here, Yields (here :: known) x nodes] :
    Yields known (withScope scope x) nodes :=
  .around _ (fun _ _ within => within.live _ knows.member) rule

theorem Yields.inside {f : Context → Context} (rule : ∀ here, Yields (here :: known) x nodes)
    (same : ∀ context, (f context).scope = context.scope) : Yields known (withContext f x) nodes :=
  .around f (fun context _ within => same context ▸ within.live_here) rule

theorem yields_allowingIn (rule : ∀ here, Yields (here :: known) x nodes) : Yields known (allowingIn x) nodes :=
  .inside rule fun _ => rfl

instance [∀ here, Yields (here :: known) x nodes] : Yields known (allowingIn x) nodes :=
  yields_allowingIn inferInstance

/-- Scopes that are found to be in use are known in what follows. -/
theorem Carries.knowing (found : α → ScopeId)
    (first : ∀ context, Ensures (Good base held context known) x (fun a => Good base held context (found a :: known))
      (Good base [] context known))
    (rest : ∀ a, Carries base held (found a :: known) (f a) after) : Carries base held known (x >>= f) after :=
  fun context => (first context).bind fun a => (rest a).forget (fun _ => List.mem_cons_of_mem _) context

theorem Carries.here {f : ScopeId → Parse β} (rest : ∀ here, Carries base held (here :: known) (f here) after) :
    Carries base held known (scopeHere >>= f) after := by
  refine .knowing id (fun context s good => ?_) rest
  exact good.changed good.fits rfl fun _ within => within.more [_] (by simpa using within.sound.here)

theorem Carries.variableScope {f : ParseState → Parse β} (enclosing : ScopeId) [knows : Knows enclosing known]
    (rest : ∀ s : ParseState, Carries base held (s.scopes.variableScope enclosing :: known) (f s) after) :
    Carries base held known (get >>= f) after := by
  refine .knowing (fun s => s.scopes.variableScope enclosing) (fun context s good => ?_) rest
  refine good.changed good.fits rfl fun _ within => ?_
  exact within.more [_] (by simpa using within.sound.held.nested.live_variableScope (within.live _ knows.member))

theorem push_ensures (kind : ScopeKind) (parent : ScopeId) [knows : Knows parent known] :
    Ensures (Good base held context known) (onScopes (·.pushScope kind parent))
      (fun scope => Good base held context (scope :: known)) (Good base [] context known) :=
  fun _ good => good.rescoped fun _ within => within.pushed kind (within.live _ knows.member)

theorem Carries.push {f : ScopeId → Parse β} {kind : ScopeKind} {parent : ScopeId}
    [Knows parent known] (rest : ∀ scope, Carries base held (scope :: known) (f scope) after) :
    Carries base held known (onScopes (·.pushScope kind parent) >>= f) after :=
  .knowing id (fun _ => push_ensures kind parent) rest

omit [Watch] in
/-- A block scope is opened for a rule and closed behind it. -/
theorem inBlockScope_run (x : Parse α) (s : ParseState) :
    inBlockScope x s =
      let scope : ScopeId := ⟨s.scopes.scopes.size⟩
      match withScope scope x { s with scopes := (s.scopes.pushScope .block s.context.scope).2 } with
      | .ok a s' =>
          .ok (a, if (s'.scopes.collapseIfEmpty scope).1 then none else some scope)
            { s' with scopes := (s'.scopes.collapseIfEmpty scope).2 }
      | .error e s' => .error e { s' with scopes := (s'.scopes.collapseIfEmpty scope).2 } := by
  have read (s : ParseState) : (EStateM.get : Parse ParseState) s = .ok s s := rfl
  have step {β : Type} (f : ParseState → β × ParseState) (s : ParseState) :
    (EStateM.modifyGet f : Parse β) s = .ok (f s).1 (f s).2 := rfl
  dsimp only [inBlockScope]
  cases run : withScope ⟨s.scopes.scopes.size⟩ x { s with scopes := (s.scopes.pushScope .block s.context.scope).2 }
  all_goals
    simp only [bind, EStateM.bind, scopeHere, onScopes, attempt, get, getThe, MonadStateOf.get,
      read, pure, EStateM.pure, modifyGet, MonadStateOf.modifyGet, step,
      ScopeTree.pushScope] at run ⊢
    rw [run]
    rfl

/-- A scope of its own is known behind a block if it was kept. -/
theorem Carries.inBlockScope {f : α × Option ScopeId → Parse β}
    [rule : ∀ here scope, Yields (here :: scope :: known) x nodes]
    (rest : ∀ a scope, Carries base (nodes a ++ held) (scope.toList ++ known) (f (a, scope)) after) :
    Carries base held known (inBlockScope x >>= f) after := by
  intro context
  have first : Ensures (Good base held context known) (Parse.inBlockScope x)
      (fun r => Good base (nodes r.1 ++ held) context (r.2.toList ++ known)) (Good base [] context known) := by
    intro s good
    rw [inBlockScope_run]
    have fresh (watched : Watch.ofScopes) : (⟨s.scopes.scopes.size⟩ : ScopeId) ∉ context.scope :: known := by
      intro member
      have within := good.within watched
      rcases List.mem_cons.mp member with here | member
      · exact absurd (here ▸ within.live_here).1 (lt_irrefl _)
      · exact absurd (within.live _ member).1 (lt_irrefl _)
    have closed {kept : List NodeId} {s' : ParseState}
        (inner : s'.Good base kept context (⟨s.scopes.scopes.size⟩ :: known)) :=
      inner.rescoped fun watched within =>
        within.closed (fresh watched) (good.within watched).sound.built.scopes
    have pushed := good.rescoped fun _ within => within.pushed .block within.sound.here
    have inner : Yields (⟨s.scopes.scopes.size⟩ :: known) (withScope ⟨s.scopes.scopes.size⟩ x) nodes :=
      inferInstance
    have run := inner.beside context _ pushed
    dsimp only
    cases result : withScope ⟨s.scopes.scopes.size⟩ x
        { s with scopes := (s.scopes.pushScope .block s.context.scope).2 } with
    | ok a s' =>
      rw [result] at run
      exact closed run
    | error e s' =>
      rw [result] at run
      have leaves : e.Leaves (Good base [] context (⟨s.scopes.scopes.size⟩ :: known)) s' := run
      exact leaves.map (f := fun s' => { s' with scopes := (s'.scopes.collapseIfEmpty ⟨s.scopes.scopes.size⟩).2 })
        (fun _ _ => rfl) (fun _ => rfl) fun _ inner => (closed inner).failed fun _ => List.mem_append_right _
  exact first.bind fun r => (rest r.1 r.2).forget (fun _ => List.mem_append_right _) context

end Condense.Parse
