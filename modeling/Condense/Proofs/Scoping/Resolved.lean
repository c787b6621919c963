import Condense.Parsed
import Condense.Proofs.Grammar.Chunks
import Condense.Proofs.Scope.Resolution

/-!
The scopes of a parsed text.
-/

namespace Condense

open List

variable {tree : Tree} {scopes : ScopeTree} {r : Resolution}

def Use.scope : Use → ScopeId
  | .name _ scope | .evaluation scope => scope

namespace Tree

/-- The children of a node stand in its own scope or in the one that the node stands in. -/
theorem scopedChildren_scope {scope : ScopeId} {form : Form NodeId} {child : NodeId × ScopeId}
    (member : child ∈ scopedChildren scope form) : child.2 = scope ∨ child.2 ∈ form.ownScopes := by
  have optional (own : Option ScopeId) : own.getD scope = scope ∨ own.getD scope ∈ own.toList := by
    cases own <;> simp
  have inner (form : Form NodeId) : innerScope scope form = scope ∨ innerScope scope form ∈ form.ownScopes := by
    unfold innerScope
    split
    all_goals first
      | exact .inl rfl
      | exact .inr (mem_singleton_self _)
      | exact optional _
  unfold scopedChildren at member
  split at member
  · simp only [mem_cons, not_mem_nil, or_false] at member
    rcases member with rfl | rfl
    · exact .inl rfl
    · exact .inr (mem_singleton_self _)
  · rename_i own _
    cases own <;> simp [Form.ownScopes] at member ⊢ <;> grind
  · obtain ⟨id, -, rfl⟩ := mem_map.mp member
    exact inner form

end Tree

/-- Every use stands in a scope that exists. -/
theorem Declared.usesUpTo_inside [Outset] (declared : Declared tree scopes)
    (depth : Nat) {id : NodeId} {scope : ScopeId} (inside : scope.index < scopes.scopes.size) :
    ∀ use ∈ tree.usesUpTo depth id scope, use.scope.index < scopes.scopes.size := by
  induction depth generalizing id scope with
  | zero => simp [Tree.usesUpTo]
  | succ depth ih =>
    intro use member
    unfold Tree.usesUpTo at member
    split at member
    · obtain rfl := mem_singleton.mp member
      exact inside
    · rcases mem_append.mp member with own | below
      · split at own
        · split at own
          · obtain rfl := mem_singleton.mp own
            exact inside
          · simp at own
        · simp at own
      · obtain ⟨⟨child, inner⟩, at', deeper⟩ := mem_flatMap.mp below
        refine ih ?_ use deeper
        rcases Tree.scopedChildren_scope at' with rfl | own
        · exact inside
        · exact declared.inside id _ own

theorem Declared.uses_inside [Outset] (declared : Declared tree scopes)
    (root : NodeId) : ∀ use ∈ tree.uses root, use.scope.index < scopes.scopes.size := by
  refine declared.usesUpTo_inside _ ?_
  split
  · rename_i scope form
    exact declared.inside root scope (by simp [form, Form.ownScopes])
  · exact declared.held.nested.rooted.1.1

theorem ScopeTree.exposeToEval_fields (t : ScopeTree) (treatment : EvalTreatment) (scope : ScopeId) :
    (t.exposeToEval treatment scope).fields = t.fields :=
  List.foldlRecOn (motive := fun t' : ScopeTree => t'.fields = t.fields) _ _ rfl fun _ same _ _ => same

theorem ScopeTree.Linked.exposeToEval {t : ScopeTree} (linked : t.Linked) (treatment : EvalTreatment)
    (scope : ScopeId) : t.Grows (t.exposeToEval treatment scope) fun _ => False := by
  have run (affected : List ScopeId) {t : ScopeTree} (linked : t.Linked) :
      t.Grows (affected.foldl ScopeTree.makeUnknown t) fun _ => False := by
    induction affected generalizing t with
    | nil => exact .refl linked _
    | cons s rest ih =>
      have first := linked.modifyScope s (fun s => { s with isKnown := false }) (fun _ => rfl) fun _ => rfl
      exact first.trans (ih first.linked)
  exact run _ linked

/-- Every name that was resolved means a field that exists. -/
def Tree.ResolvedIn (t : Tree) (scopes : ScopeTree) : Prop :=
  ∀ id f, (t.form id).reference? = some f → f.index < scopes.fields.size

namespace Resolution

/-- What holds of the scopes and names all the time while names are resolved. -/
structure Ready (r : Resolution) : Prop where
  linked : r.scopes.Linked
  unnamed : r.scopes.Unnamed
  resolved : r.tree.ResolvedIn r.scopes

theorem Ready.grown {r' : Resolution} (ready : r.Ready) {into : ScopeId → Prop}
    (grows : r.scopes.Grows r'.scopes into) (tree : r'.tree = r.tree) : r'.Ready where
  linked := grows.linked
  unnamed := grows.extension.unnamed ready.unnamed
  resolved id f form := Nat.lt_of_lt_of_le (ready.resolved id f (tree ▸ form)) grows.extension.grown

/-- A name gets the field of the name in the scope that it stands in, and the reference is counted from there
outward. -/
theorem Ready.resolveName (ready : r.Ready) {node : NodeId} (scope : ScopeId)
    (inside : scope.index < r.scopes.scopes.size) {name : String} {old : Option FieldId} {how : ReferenceType}
    (form : r.tree.form node = .lookup name old how) :
    r.scopes.Grows (r.resolveName node scope).scopes (fun _ => True) ∧
      ∃ inner how', (r.resolveName node scope).scopes.findLocal? scope name = some inner ∧
        r.scopes.Counts (r.resolveName node scope).scopes inner ∧
        (r.resolveName node scope).tree = r.tree.modifyForm node fun _ => .lookup name (some inner) how' := by
  have outcome := r.resolveName_eq scope form
  obtain ⟨meant, nearest⟩ := r.meant_nearest ready.linked inside node name
  have uncounted := (r.meant_uncounted node scope name).refCount
  generalize r.meant node scope name = result at outcome meant nearest uncounted
  obtain ⟨referred, found, counts⟩ := meant.linked.reference_nearest (meant.extension.size ▸ inside) nearest
  rw [outcome]
  refine ⟨meant.trans referred, _, _, found, ⟨fun f leads => ?_, fun f apart => ?_⟩, rfl⟩
  · rw [counts.counted f leads, uncounted]
  · rw [counts.passed f apart, uncounted]

/-- A step keeps what was there and resolves a name of a scope that exists. -/
theorem Ready.step (ready : r.Ready) (use : Use) (inside : use.scope.index < r.scopes.scopes.size) :
    (r.step use).Ready ∧ r.scopes.Grows (r.step use).scopes fun _ => True := by
  cases use with
  | evaluation scope =>
    have grows := ready.linked.exposeToEval r.settings.evalTreatment scope
    exact ⟨ready.grown grows rfl, grows.mono fun _ _ => trivial⟩
  | name node scope =>
    rw [step_name]
    cases form : r.tree.form node with
    | lookup name old how =>
      obtain ⟨grows, inner, how', found, -, tree⟩ := ready.resolveName scope inside form
      refine ⟨⟨grows.linked, grows.extension.unnamed ready.unnamed, fun id f => ?_⟩, grows⟩
      rw [tree, Tree.modifyForm_form]
      split
      · rintro ⟨⟩
        exact (grows.linked.findLocal?_some found).1
      · exact fun old => (ready.resolved id f old).trans_le grows.extension.grown
    | _ =>
      have same : r.resolveName node scope = r := by
        rw [Resolution.resolveName, form]
      rw [same]
      exact ⟨ready, .refl ready.linked _⟩

theorem Ready.run (ready : r.Ready) (uses : List Use) (inside : ∀ use ∈ uses, use.scope.index < r.scopes.scopes.size) :
    (uses.foldl Resolution.step r).Ready ∧ r.scopes.Grows (uses.foldl Resolution.step r).scopes fun _ => True := by
  induction uses generalizing r with
  | nil => exact ⟨ready, .refl ready.linked _⟩
  | cons use rest ih =>
    obtain ⟨next, grows⟩ := ready.step use (inside use (.head _))
    obtain ⟨last, more⟩ := ih next fun other member => by
      rw [grows.extension.size]
      exact inside other (.tail _ member)
    exact ⟨last, grows.trans more⟩

end Resolution

theorem Declared.ready [Outset] (declared : Declared tree scopes)
    (settings : Settings) : ({ settings, tree, scopes } : Resolution).Ready where
  linked := declared.built.linked Outset.linked declared.held
  unnamed := declared.unnamed
  resolved id f form := (declared.resolved id f form).trans_le declared.built.grown

/-- A parsed text has all its names resolved to fields of linked scopes. -/
theorem parse_ready (source : String) (settings : Settings) :
    let parsed := parse source settings
    parsed.scopes.Linked ∧ parsed.scopes.Unnamed ∧ parsed.tree.ResolvedIn parsed.scopes := by
  let _ := Outset.new
  have declared := parseChunk_declared source "input" settings Declared.new
  obtain ⟨ready, -⟩ :=
    (declared.ready settings).run _ (declared.uses_inside (parseChunk source "input" settings {} {}).1.root)
  exact ⟨ready.linked, ready.unnamed, ready.resolved⟩

end Condense
