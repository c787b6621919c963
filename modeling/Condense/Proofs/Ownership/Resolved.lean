import Condense.Parsed
import Condense.Proofs.Grammar.Chunks
import Condense.Proofs.Scope.Resolution

/-!
A parsed text is a proper tree also after its names are resolved, which changes names only.
-/

namespace Condense

/-- Two trees of the same nodes, where only what names refer to may differ. -/
structure Tree.Agrees (t t' : Tree) : Prop where
  size : t'.size = t.size
  form : ∀ id, t'.form id = t.form id ∨ ∃ name field type field' type',
    t.form id = .lookup name field type ∧ t'.form id = .lookup name field' type'
  parent? : ∀ id, t'.parent? id = t.parent? id

namespace Tree.Agrees

theorem refl (t : Tree) : t.Agrees t :=
  ⟨rfl, fun _ => .inl rfl, fun _ => rfl⟩

theorem trans {t t' t'' : Tree} (first : t.Agrees t') (second : t'.Agrees t'') : t.Agrees t'' := by
  refine ⟨second.size.trans first.size, fun id => ?_, fun id => (second.parent? id).trans (first.parent? id)⟩
  rcases first.form id with same | ⟨name, field, type, field', type', old, new⟩
  · rw [← same]
    exact second.form id
  · rcases second.form id with same | ⟨name', _, _, field'', type'', old', new'⟩
    · exact .inr ⟨name, field, type, field', type', old, same.trans new⟩
    · rw [new] at old'
      cases old'
      exact .inr ⟨name, field, type, field'', type'', old, new'⟩

variable {t t' : Tree} (agrees : t.Agrees t')

include agrees

theorem form_eq {id : NodeId} {form : Form NodeId} (here : t.form id = form)
    (other : ∀ name field type, form ≠ .lookup name field type) : t'.form id = form := by
  rcases agrees.form id with same | ⟨name, field, type, _, _, old, -⟩
  · exact same.trans here
  · exact absurd (here.symm.trans old) (other name field type)

theorem view {β : Type} (view : Form NodeId → β)
    (blind : ∀ name field type, view (.lookup name field type) = view (.lookup name none .variable)) (id : NodeId) :
    view (t'.form id) = view (t.form id) := by
  rcases agrees.form id with same | ⟨name, field, type, field', type', old, new⟩
  · rw [same]
  · rw [old, new, blind, blind name field]

theorem sameLinks : t.SameLinks t' :=
  ⟨agrees.size, agrees.view Form.children fun _ _ _ => rfl, agrees.parent?⟩

end Tree.Agrees

def Use.node? : Use → Option NodeId
  | .name node _ => some node
  | .evaluation _ => none

namespace Resolution

/-- Resolving gives one name its field and changes nothing else about the nodes. -/
theorem step_tree (r : Resolution) (use : Use) :
    (r.step use).tree = r.tree ∨ ∃ node ∈ use.node?, ∃ name old how field how', r.tree.form node = .lookup name old how ∧
      (r.step use).tree = r.tree.modifyForm node fun _ => .lookup name field how' := by
  cases use with
  | evaluation scope => exact .inl rfl
  | name node scope =>
    rw [step_name]
    cases form : r.tree.form node with
    | lookup name old how =>
      rw [r.resolveName_eq scope form]
      exact .inr ⟨node, rfl, name, old, how, _, _, form, rfl⟩
    | _ =>
      left
      rw [resolveName, form]

theorem step_agrees (r : Resolution) (use : Use) : r.tree.Agrees (r.step use).tree := by
  rcases r.step_tree use with same | ⟨node, -, name, old, how, field, how', form, changed⟩
  · rw [same]
    exact .refl _
  · rw [changed]
    refine ⟨r.tree.modifyForm_size node _, fun id => ?_, r.tree.modifyForm_parent? node _⟩
    rw [Tree.modifyForm_form]
    split
    · rename_i here
      exact .inr ⟨name, old, how, field, how', here.1 ▸ form, rfl⟩
    · exact .inl rfl

end Resolution

theorem resolveNames_agrees (settings : Settings) (tree : Tree) (scopes : ScopeTree) (root : NodeId) :
    tree.Agrees (resolveNames settings tree scopes root).tree :=
  List.foldlRecOn (motive := fun r : Resolution => tree.Agrees r.tree) _ _ (.refl tree)
    fun r agrees use _ => agrees.trans (r.step_agrees use)

theorem parse_tied (source : String) (settings : Settings) : (parse source settings).tree.Tied :=
  (parseChunk_tied source "input" settings).1.congr (resolveNames_agrees ..).sameLinks

/-- A proper tree hangs below the program node of a parsed text. -/
theorem parse_rooted (source : String) (settings : Settings) :
    (parse source settings).tree.Rooted (parse source settings).root := by
  obtain ⟨tied, inside, top⟩ := parseChunk_tied source "input" settings
  have same := (resolveNames_agrees settings (parseChunk source "input" settings {} {}).2.1
    (parseChunk source "input" settings {} {}).2.2 (parseChunk source "input" settings {} {}).1.root).sameLinks
  exact same.rooted ⟨top, inside, fun id _ => tied.tidy id⟩

/-- Parsing yields a proper tree, also where it reports problems, skips ahead after them or gives up: the way down
comes to an end and starts with the root, every child is linked to the node that holds it, no node is met twice, all
of them are in the store, no child is missed, and nothing holds the root. -/
theorem parse_yields_tree (source : String) (settings : Settings) :
    let p := parse source settings
    p.root ∈ p.tree.descendants p.root ∧ p.tree.linksAgree p.root = true ∧ (p.tree.descendants p.root).Nodup ∧
      (∀ id ∈ p.tree.descendants p.root, id.index < p.tree.size ∧
        ∀ child ∈ p.tree.children id, child ∈ p.tree.descendants p.root) ∧
      p.tree.parent? p.root = none := by
  intro p
  have rooted := parse_rooted source settings
  have tied := parse_tied source settings
  refine ⟨rooted.root_mem_descendants, rooted.linksAgree, rooted.descendants_nodup, fun id member => ?_, rooted.top⟩
  have below := rooted.below_of_mem_descendants member
  refine ⟨rooted.index_lt below, fun child slot => ?_⟩
  exact rooted.mem_descendants (fun child id _ link => tied.held child id link) (rooted.below_child below slot)

end Condense
