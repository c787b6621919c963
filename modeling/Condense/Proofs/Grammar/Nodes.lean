import Condense.Proofs.Grammar.Carrying

/-!
Nodes that rules write and names that they declare.
-/

set_option synthInstance.maxSize 2048

namespace Condense.Parse

open ParseState (Good)

attribute [local simp] Form.children List.count_cons

variable [Watch] {α β σ : Type} {base : Tree} {held : List NodeId} {context : Context} {known : List ScopeId}
  {form : Form NodeId}

theorem steady_markScope (scope : ScopeId) {f : Scope → Scope} (nesting : ∀ s, (f s).nesting = s.nesting)
    (listing : ∀ s, (f s).listing = s.listing) : Steady known (modifyScopes (·.modifyScope scope f)) :=
  ⟨fun _ _ _ _ good => good.rescoped fun _ within =>
    within.marked (ScopeTree.marks_modifyScope scope f nesting listing)⟩

theorem steady_markField (field : FieldId) {f : Field → Field} (identity : ∀ g, (f g).identity = g.identity)
    (count : ∀ g, (f g).refCount = g.refCount) (fixed : ∀ g : Field, g.Fixed → (f g).Fixed) :
    Steady known (modifyScopes (·.modifyField field f)) :=
  ⟨fun _ _ _ _ good => good.rescoped fun _ within =>
    within.marked (ScopeTree.marks_modifyField field f identity count fixed)⟩

/-- What a declared name stands for. -/
instance (field : FieldId) (value : Option NodeId) :
    Steady known (modifyScopes (·.modifyField field fun f => { f with value })) :=
  steady_markField field (fun _ => rfl) (fun _ => rfl) fun _ => id

instance (scope : ScopeId) (owner : NodeId) : Steady known (ownScope scope owner) := by
  have mark (span : Span) :
      Steady known (modifyScopes (·.modifyScope scope fun s => { s with owner := some owner, span })) :=
    steady_markScope scope (fun _ => rfl) fun _ => rfl
  unfold ownScope
  infer_instance

instance (function : NodeId) (name : String) (span : Span) : Steady known (flagAmbiguousName function name span) := by
  have mark (inner : FieldId) (preserve : Bool) : Steady known (modifyScopes (·.modifyField inner fun f =>
      { f with isAmbiguous := true, canCrunch := f.canCrunch && !preserve })) :=
    steady_markField inner (fun _ => rfl) (fun _ => rfl) fun _ fixed => fixed.imp_left fun kept => by simp [kept]
  refine .andThen fun form => ?_
  split
  · refine .andThen fun s => ?_
    dsimp only
    split <;> infer_instance
  · infer_instance

instance (scope : ScopeId) : Steady known (modifyScopes (·.modifyScope scope fun s => { s with useStrict := true })) :=
  steady_markScope scope (fun _ => rfl) fun _ => rfl

instance (statement : NodeId) : Steady known (checkDirective statement) := by
  dsimp only [checkDirective]
  refine .andThen fun form => ?_
  split <;> infer_instance

instance (scope : ScopeId) (name : String) (kind : FieldKind) (span : Span) [knows : Knows scope known] :
    Steady known (onScopes (·.declare scope name kind span)) :=
  ⟨fun _ _ _ _ good => good.rescoped fun _ within =>
    within.declared (within.live _ knows.member) name kind span⟩

instance (scope : ScopeId) (name : String) (kind : FieldKind) (span : Span) [Knows scope known] :
    Steady known (declare scope name kind span) := by
  refine .andThen fun s => .andThen fun field => ?_
  split <;> infer_instance

/-- The name of a function expression is placed where it is free. -/
instance (enclosing : ScopeId) (name : String) (span : Span) (function : NodeId) [knows : Knows enclosing known] :
    Steady known (placeGhost enclosing name span function) := by
  have mark (ghost : FieldId) : Steady known (modifyScopes (·.modifyField ghost fun f =>
      { f with value := some function, isPlaceholder := true })) :=
    steady_markField ghost (fun _ => rfl) (fun _ => rfl) fun _ => id
  refine ⟨fun base held context => .read fun s good => ?_⟩
  dsimp only
  split
  · rename_i free
    have created : Ensures (· = s) (onScopes (·.createField (s.scopes.variableScope enclosing) name .ghost))
        (fun _ => Good base held context known) (Good base held context known) := by
      rintro _ rfl
      refine good.rescoped fun _ within => within.created ?_ name .ghost free
      exact within.sound.held.nested.live_variableScope (within.live _ knows.member)
    exact created.bind fun ghost => (mark ghost).run base held context
  · rintro _ rfl
    exact Steady.run base held context _ good

/-- A scope that, if there is one, is known to be in use. -/
class KnowsAny (scope : Option ScopeId) (known : List ScopeId) : Prop where
  member : ∀ s ∈ scope, s ∈ known

section

omit [Watch]

instance : KnowsAny none known :=
  ⟨fun _ member => absurd member (Option.not_mem_none _)⟩

instance (scope : ScopeId) [knows : Knows scope known] : KnowsAny (some scope) known :=
  ⟨fun _ member => Option.mem_some.mp member ▸ knows.member⟩

instance (scope : Option ScopeId) : KnowsAny scope (scope.toList ++ known) :=
  ⟨fun _ member => List.mem_append_left _ (Option.mem_toList.mpr member)⟩

instance (scope : Option ScopeId) (other : ScopeId) [any : KnowsAny scope known] [knows : Knows other known] :
    Knows (scope.getD other) known := by
  cases scope with
  | none => exact knows
  | some scope => exact ⟨any.member scope rfl⟩

end

/-- A form that may be written where the scopes `known` are in use. -/
class Sited (known : List ScopeId) (form : Form NodeId) : Prop where
  written : form.Written Watch.terms.markers
  placed : form.Placed known

instance (form : Form NodeId) [plain : Holds form.isPlain] : Sited known form := by
  obtain ⟨written, placed⟩ := Form.of_isPlain plain.holds Watch.terms.markers known
  exact ⟨written, placed⟩

instance (kind : FunctionKind) (binding : Option NodeId) (params : List NodeId) (body : NodeId)
    (isAsync isGenerator : Bool) (scope : ScopeId) (nameScope : Option ScopeId) [knows : Knows scope known] :
    Sited known (.function kind binding params body isAsync isGenerator scope nameScope) :=
  ⟨trivial, knows.member⟩

instance (binding heritage : Option NodeId) (members : List NodeId) (isExpression : Bool) (scope : ScopeId)
    [knows : Knows scope known] : Sited known (.classDefinition binding heritage members isExpression scope) :=
  ⟨trivial, knows.member⟩

instance (object body : NodeId) (scope : ScopeId) [knows : Knows scope known] :
    Sited known (.withStatement object body scope) :=
  ⟨trivial, knows.member⟩

instance (statements : List NodeId) (scope : Option ScopeId) [knows : KnowsAny scope known] :
    Sited known (.block statements scope false) :=
  ⟨nofun, knows.member⟩

instance (expression : NodeId) : Sited known (.block [expression] none true) :=
  ⟨fun _ => Nat.le_refl 1, nofun⟩

instance (body : NodeId) (binding caught finalizer : Option NodeId) (scope : Option ScopeId)
    [knows : KnowsAny scope known] : Sited known (.tryStatement body binding caught scope finalizer) :=
  ⟨trivial, knows.member⟩

instance (discriminant : NodeId) (cases : List NodeId) (scope : Option ScopeId) [knows : KnowsAny scope known] :
    Sited known (.switchStatement discriminant cases scope) :=
  ⟨trivial, knows.member⟩

/-- A new node takes over nodes that are held. -/
theorem carries_alloc {span : Span} (kept : List NodeId) [sited : Sited known form]
    (fits : ∀ x, (form.children ++ kept).count x ≤ held.count x) :
    Carries base held known (alloc form span) fun id => id :: kept :=
  fun _ _ good => good.alloc span sited.written sited.placed fits

theorem carries_allocFrom {start : Span} (kept : List NodeId) [Sited known form]
    (fits : ∀ x, (form.children ++ kept).count x ≤ held.count x) :
    Carries base held known (allocFrom form start) fun id => id :: kept :=
  .skip fun _ => carries_alloc kept fits

/-- A token that is looked at is one that may come up. -/
theorem Carries.token {f : Token → Parse β} {after : β → List NodeId}
    (rest : ∀ t, t.Fits Watch.terms → Carries base held known (f t) after) :
    Carries base held known (token >>= f) after :=
  fun context s good => rest s.current.token good.fits.current context s good

theorem sited_number {x : Float} (unsigned : Unsigned x) (known : List ScopeId) : Sited known (.constant (.number x)) :=
  ⟨fun _ => unsigned, trivial⟩

instance : Yields known flushComments id := by
  have taken : Steady known (modify fun s => { s with comments := [] } : Parse PUnit) :=
    steady_modify fun _ => ⟨rfl, rfl, rfl, rfl, rfl, rfl⟩
  refine ⟨fun base => .skip fun s => .skip fun _ => ?_⟩
  exact (Yields.mapM _ fun _ => ⟨fun _ => carries_alloc [] (by simp)⟩).run base

abbrev IsNew (base : Tree) (id : NodeId) : Prop := Watch.ofNodes → base.size ≤ id.index

/-- A node that is held is new. -/
theorem Carries.of_held {x : Parse α} {after : α → List NodeId} {id : NodeId} (member : id ∈ held)
    (rest : IsNew base id → Carries base held known x after) : Carries base held known x after :=
  fun context s good => rest (fun watched => ((good.holding watched).free id member).1) context s good

/-- A new node holds new nodes only. -/
theorem Carries.formOf {id : NodeId} {f : Form NodeId → Parse β} {after : β → List NodeId}
    (new : IsNew base id) (rest : ∀ form : Form NodeId, (∀ child ∈ form.children, IsNew base child) →
      Carries base held known (f form) after) : Carries base held known (formOf id >>= f) after :=
  fun context s good => rest (s.tree.form id)
    (fun _ slot watched => (good.holding watched).new_child (new watched) slot) context s good

theorem Carries.forM {f : σ → Parse PUnit} {list : List σ}
    (each : ∀ x ∈ list, Carries base held known (f x) fun _ => held) :
    Carries base held known (list.forM f) fun _ => held := by
  induction list with
  | nil => exact carries_pure (by simp)
  | cons x rest ih => exact (each x (.head _)).bind fun _ => ih fun y member => each y (.tail _ member)

/-- A new node gets another form that may be written and has the same slots. -/
theorem carries_modifyForm {id : NodeId} {f : Form NodeId → Form NodeId} (new : IsNew base id)
    (same : ∀ form, (f form).children = form.children) (sited : ∀ form, f form = form ∨ Sited known (f form)) :
    Carries base held known (modifyTree (·.modifyForm id f)) fun _ => held := by
  intro context s good
  refine good.reshaped (fun _ => .modifyForm _ id (same _)) (fun watched x range => ?_) fun x => ?_
  · refine (s.tree.modifyForm_form id f x).trans (if_neg ?_)
    rintro ⟨rfl, -⟩
    exact absurd (new watched) range.not_ge
  · rw [Tree.modifyForm_form]
    split
    · rename_i here
      rw [here.1]
      exact (sited _).imp_right fun sited => ⟨sited.written, sited.placed⟩
    · exact .inl rfl

theorem setBinding_carries {id : NodeId} (field : FieldId) (new : IsNew base id) :
    Carries base held known (modifyTree (·.modifyForm id (setBinding field))) fun _ => held := by
  refine carries_modifyForm new (fun form => ?_) fun form => ?_
  · cases form <;> rfl
  · cases form with
    | bindingIdentifier => exact .inr ⟨trivial, trivial⟩
    | _ => exact .inl rfl

section

variable (scope : ScopeId) (kind : FieldKind) (isConst : Bool) [Knows scope known]

theorem declarePatternUpTo_carries (depth : Nat) {id : NodeId} (new : IsNew base id) :
    Carries base held known (declarePatternUpTo scope kind isConst depth id) fun _ => held := by
  induction depth generalizing id with
  | zero => exact carries_pure (by simp)
  | succ depth ih =>
    refine Carries.formOf new fun form slots => ?_
    split
    · -- A name that is not bound yet.
      refine .skip fun span => .skip fun field => ?_
      have constant : Steady known (modifyScopes (·.modifyField field fun f => { f with isLiteral := true })) :=
        steady_markField field (fun _ => rfl) (fun _ => rfl) fun _ fixed => fixed
      split
      · exact .skip fun _ => setBinding_carries field new
      · exact setBinding_carries field new
    · refine Carries.forM fun element member => ?_
      cases element with
      | none => exact carries_pure (by simp)
      | some element => exact ih (slots element (by simpa using member))
    · exact Carries.forM fun property member => ih (slots property (by simpa using member))
    all_goals first
      | exact carries_pure (by simp)
      | exact ih (slots _ (by simp))

theorem declarePattern_carries {pattern : NodeId} (member : pattern ∈ held) :
    Carries base held known (declarePattern pattern scope kind isConst) fun _ => held :=
  .skip fun _ => .of_held member (declarePatternUpTo_carries scope kind isConst _)

end

/-- A good state with the slots and links of `origin`. -/
structure Reshaped (origin base : Tree) (held : List NodeId) (context : Context) (known : List ScopeId)
    (s : ParseState) : Prop where
  good : s.Good base held context known
  links : Watch.ofNodes → origin.SameLinks s.tree

section

variable {origin : Tree} {R : ParseState → Prop} {id : NodeId}

theorem Reshaped.formOf {f : Form NodeId → Parse β} {Q : β → ParseState → Prop}
    (new : IsNew base id)
    (rest : ∀ form : Form NodeId, (Watch.ofNodes → form.children = origin.children id) →
      (∀ child ∈ form.children, IsNew base child) →
      Ensures (Reshaped origin base held context known) (f form) Q R) :
    Ensures (Reshaped origin base held context known) (formOf id >>= f) Q R :=
  fun s reshaped => rest (s.tree.form id) (fun watched => (reshaped.links watched).children id)
    (fun _ slot watched => (reshaped.good.holding watched).new_child (new watched) slot) s reshaped

theorem Reshaped.setForm [sited : Sited known form]
    (new : IsNew base id) (same : Watch.ofNodes → form.children = origin.children id) :
    Ensures (Reshaped origin base held context known) (modifyTree (·.setForm id form))
      (fun _ => Reshaped origin base held context known) R := by
  intro s ⟨good, links⟩
  have links' (watched : Watch.ofNodes) : s.tree.SameLinks (s.tree.setForm id form) :=
    .setForm ((good.holding watched).tied.tidy id) ((same watched).trans ((links watched).children id).symm)
  refine ⟨good.reshaped links' (fun watched x range => ?_) fun x => ?_, fun watched => ?_⟩
  · refine (s.tree.setForm_form id form x).trans (if_neg ?_)
    rintro ⟨rfl, -⟩
    exact absurd (new watched) range.not_ge
  · rw [Tree.setForm_form]
    split
    · exact .inr ⟨sited.written, sited.placed⟩
    · exact .inl rfl
  · exact (links watched).trans (links' watched)

theorem Reshaped.invalidPattern (id : NodeId) {Q : PUnit → ParseState → Prop} :
    Ensures (Reshaped origin base held context known) (do Parse.invalidPattern (← spanOf id)) Q
      (Reshaped origin base held context known) :=
  fun _ ⟨good, links⟩ => ⟨good.reported .invalidPattern _, links⟩

/-- A node changes when all below it have changed, and it still holds the same nodes then. -/
theorem toBindingUpTo_ensures (depth : Nat) (new : IsNew base id) :
    Ensures (Reshaped origin base held context known) (toBindingUpTo depth id)
      (fun _ => Reshaped origin base held context known) (Reshaped origin base held context known) := by
  induction depth generalizing id with
  | zero => exact fun _ reshaped => reshaped
  | succ depth ih =>
    refine Reshaped.formOf new fun form same slots => ?_
    split
    · exact Reshaped.setForm new same
    · refine Ensures.bind (.forM fun element member => ?_) fun _ => Reshaped.setForm new same
      cases element with
      | none => exact fun _ reshaped => reshaped
      | some element => exact ih (slots element (by simpa using member))
    · refine Ensures.bind (.forM fun property member => ?_) fun _ => Reshaped.setForm new same
      refine Reshaped.formOf (slots property member) fun form _ values => ?_
      split
      case h_1 | h_2 => exact ih (values _ (by simp))
      · exact ih (slots property member)
      · exact Reshaped.invalidPattern id
    case h_4 | h_5 => exact (ih (slots _ (by simp))).bind fun _ => Reshaped.setForm new same
    case h_11 => exact Reshaped.invalidPattern id
    all_goals exact fun _ reshaped => reshaped

end

theorem toBinding_carries {id : NodeId} (member : id ∈ held) :
    Carries base held known (toBinding id) fun _ => held := by
  refine .skip fun t => .of_held member fun new context s good => ?_
  have start : Reshaped s.tree base held context known s := ⟨good, fun _ => .refl s.tree⟩
  refine (toBindingUpTo_ensures _ new).imp (fun _ before => before) (fun _ _ after => after.good) (fun _ after => ?_) s
    start
  exact after.good.failed fun _ known => known

end Condense.Parse
