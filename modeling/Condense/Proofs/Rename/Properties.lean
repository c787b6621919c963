import Condense.Proofs.Rename.Labels
import Condense.Rename.Basic

/-!
Renaming properties a second time changes nothing: a property has a name that the settings ask for, and they ask for
no other name of it.
-/

namespace Condense

open Changed Option

variable {step : Tree → NodeId → Changed} {id root : NodeId} {roots : List NodeId} {a b : Form NodeId}

namespace Tree

variable {t t' : Tree}

/-- Two forms that differ at most in the name of a property. -/
inductive Retitled : Form NodeId → Form NodeId → Prop
  | same (form : Form NodeId) : Retitled form form
  | member (object : NodeId) (old new : String) (isOptional : Bool) :
    Retitled (.member object old isOptional) (.member object new isOptional)
  | propertyName (old new : String) : Retitled (.propertyName old) (.propertyName new)

/-- Whether the settings ask for no other name, if a node is a member or a key. -/
def PropertySettled (settings : Settings) (t : Tree) (id : NodeId) : Prop :=
  match t.form id with
  | .member _ name _ => settings.renameTarget? name = none
  | .propertyName name => t.isKey id = true → settings.renameTarget? name = none
  | _ => True

/-- What renaming properties leaves as it is. -/
structure Retitling (settings : Settings) (t t' : Tree) : Prop where
  links : t.SameLinks t'
  form : ∀ x, Retitled (t.form x) (t'.form x)
  settled : ∀ x, t.PropertySettled settings x → t'.PropertySettled settings x

variable {settings : Settings}

theorem Retitled.trans {c : Form NodeId} (first : Retitled a b) (second : Retitled b c) : Retitled a c := by
  cases first with
  | same => exact second
  | member =>
    cases second with
    | same | member => exact .member ..
  | propertyName =>
    cases second with
    | same | propertyName => exact .propertyName ..

theorem Retitled.children (retitled : Retitled a b) : b.children = a.children := by
  cases retitled <;> rfl

theorem Retitled.labels (retitled : Retitled a b) :
    b.isFunction = a.isFunction ∧ b.label? = a.label? ∧ b.jumpLabel? = a.jumpLabel? := by
  cases retitled <;> exact ⟨rfl, rfl, rfl⟩

theorem Retitled.isProgram (retitled : Retitled a b) (program : a.IsProgram) : b.IsProgram := by
  obtain ⟨statements, scope, rfl⟩ := program
  cases retitled
  exact ⟨statements, scope, rfl⟩

theorem Retitling.refl (t : Tree) : Retitling settings t t :=
  ⟨.refl t, fun _ => .same _, fun _ settled => settled⟩

theorem Retitling.trans {t'' : Tree} (first : Retitling settings t t') (second : Retitling settings t' t'') :
    Retitling settings t t'' :=
  ⟨first.links.trans second.links, fun x => (first.form x).trans (second.form x),
    fun x settled => second.settled x (first.settled x settled)⟩

/-- Properties can have other names without any label being renamed. -/
theorem Retitling.numbered {original : Tree} (retitling : Retitling settings t t')
    (numbered : original.Numbered root t) : original.Numbered root t' := by
  refine ⟨numbered.links.trans retitling.links, fun x member => ?_, fun x member => ?_⟩
  · rw [(retitling.form x).labels.1, numbered.isFunction x member]
  · rw [(retitling.form x).labels.2.1, numbered.label? x member]

theorem isKey_congr (links : t.SameLinks t') (form : ∀ x, Retitled (t.form x) (t'.form x)) (id : NodeId) :
    t'.isKey id = t.isKey id := by
  unfold isKey
  rw [links.parent?]
  cases t.parent? id with
  | none => rfl
  | some parent =>
    have retitled := form parent
    simp only [map_some]
    generalize t.form parent = old, t'.form parent = new at retitled
    cases retitled <;> rfl

theorem PropertySettled.renameProperty (settled : t.PropertySettled settings id) :
    renameProperty settings t id = { tree := t } := by
  unfold Tree.renameProperty
  dsimp only
  split
  · rename_i form
    simp only [PropertySettled, form] at settled
    simp [settled, Changed.ofOption]
  · rename_i form
    simp only [PropertySettled, form] at settled
    split
    · rename_i key
      simp [settled key, Changed.ofOption]
    · rfl
  · rfl

/-- A property that is not settled may get another name. -/
theorem retitling_modifyForm {form : Form NodeId} (retitled : Retitled (t.form id) form)
    (unsettled : ¬ t.PropertySettled settings id) : Retitling settings t (t.modifyForm id fun _ => form) := by
  have links : t.SameLinks (t.modifyForm id fun _ => form) := .modifyForm t id retitled.children
  have forms (x : NodeId) : Retitled (t.form x) ((t.modifyForm id fun _ => form).form x) := by
    rw [modifyForm_form]
    split
    · rename_i here
      exact here.1 ▸ retitled
    · exact .same _
  refine ⟨links, forms, fun x settled => ?_⟩
  have other : x ≠ id := by
    rintro rfl
    exact unsettled settled
  unfold PropertySettled at settled ⊢
  rwa [modifyForm_form, if_neg fun same => other same.1, isKey_congr links forms]

theorem renameProperty_retitling (settings : Settings) (t : Tree) (id : NodeId) :
    Retitling settings t (renameProperty settings t id).tree := by
  by_cases settled : t.PropertySettled settings id
  · rw [settled.renameProperty]
    exact .refl t
  · refine ofOption_keeps (P := Retitling settings t) (.refl t) fun t' done => ?_
    obtain ⟨form, found, rfl⟩ := map_eq_some_iff.1 done
    refine retitling_modifyForm ?_ settled
    split at found
    · rename_i here
      obtain ⟨target, -, rfl⟩ := map_eq_some_iff.1 found
      exact here ▸ .member ..
    · rename_i here
      split at found
      · obtain ⟨target, -, rfl⟩ := map_eq_some_iff.1 found
        exact here ▸ .propertyName ..
      · cases found
    · cases found

/-- Renaming a property settles it, where the settings ask for no other name of a name that they ask for. -/
theorem renameProperty_settled (range : id.index < t.size)
    (final : ∀ name target, settings.renameTarget? name = some target → settings.renameTarget? target = none) :
    (renameProperty settings t id).tree.PropertySettled settings id := by
  by_cases settled : t.PropertySettled settings id
  · rwa [settled.renameProperty]
  · have here (form : Form NodeId) : (t.modifyForm id fun _ => form).form id = form := by
      rw [modifyForm_form, if_pos ⟨rfl, range⟩]
    unfold PropertySettled at settled
    split at settled
    · rename_i form
      obtain ⟨target, asked⟩ := ne_none_iff_exists'.1 settled
      simp [renameProperty, form, asked, Changed.ofOption, PropertySettled, here, final _ target asked]
    · rename_i form
      obtain ⟨key, settled⟩ := Classical.not_imp.1 settled
      obtain ⟨target, asked⟩ := ne_none_iff_exists'.1 settled
      simp [renameProperty, form, key, asked, Changed.ofOption, PropertySettled, here, final _ target asked]
    · exact absurd trivial settled

theorem renameProperties_retitling (settings : Settings) (roots : List NodeId) (t : Tree) :
    Retitling settings t (Changed.each roots (renameProperties settings) t).tree :=
  each_keeps (.refl t) fun t' _ kept => kept.trans
    (each_keeps (.refl t') fun t'' id kept => kept.trans (renameProperty_retitling settings t'' id))

/-- Steps that each do their part and undo nothing do all of it. -/
theorem each_retitling {ids : List NodeId} (done : Tree → NodeId → Prop)
    (keeps : ∀ t' t'' id, Retitling settings t' t'' → done t' id → done t'' id)
    (each : ∀ t', Retitling settings t t' → ∀ id ∈ ids,
      Retitling settings t' (step t' id).tree ∧ done (step t' id).tree id) :
    Retitling settings t (Changed.each ids step t).tree ∧ ∀ id ∈ ids, done (Changed.each ids step t).tree id := by
  induction ids generalizing t with
  | nil => exact ⟨.refl t, by simp⟩
  | cons id rest ih =>
    obtain ⟨first, here⟩ := each t (.refl t) id (.head _)
    obtain ⟨others, there⟩ := ih fun t' later x member => each t' (first.trans later) x (.tail _ member)
    rw [each_cons]
    refine ⟨first.trans others, fun x member => ?_⟩
    rcases List.mem_cons.1 member with rfl | member
    · exact keeps _ _ x others here
    · exact there x member

theorem renameProperties_settled (rooted : ∀ root ∈ roots, t.Rooted root)
    (final : ∀ name target, settings.renameTarget? name = some target → settings.renameTarget? target = none) :
    let t' := (Changed.each roots (renameProperties settings) t).tree
    Retitling settings t t' ∧ ∀ root ∈ roots, ∀ id ∈ t'.descendants root, t'.PropertySettled settings id := by
  have within (t' : Tree) (retitling : Retitling settings t t') (root : NodeId) (member : root ∈ roots) :
      Retitling settings t' (renameProperties settings t' root).tree ∧
        ∀ id ∈ (renameProperties settings t' root).tree.descendants root,
          (renameProperties settings t' root).tree.PropertySettled settings id := by
    have below := retitling.links.rooted (rooted root member)
    have single (t'' : Tree) (retitling : Retitling settings t' t'') (id : NodeId) (member : id ∈ t'.descendants root) :
        Retitling settings t'' (renameProperty settings t'' id).tree ∧
          (renameProperty settings t'' id).tree.PropertySettled settings id := by
      refine ⟨renameProperty_retitling settings t'' id, renameProperty_settled ?_ final⟩
      rw [retitling.links.size]
      exact below.index_lt (below.below_of_mem_descendants member)
    obtain ⟨all, settled⟩ := each_retitling (PropertySettled settings)
      (fun _ _ id retitling settled => retitling.settled id settled) single
    refine ⟨all, fun id member => ?_⟩
    rw [renameProperties, all.links.descendants] at member
    exact settled id member
  apply each_retitling (fun t root => ∀ id ∈ t.descendants root, t.PropertySettled settings id) _ within
  intro t' t'' root retitling settled id member
  rw [retitling.links.descendants] at member
  exact retitling.settled id (settled id member)

theorem renameProperties_again (settled : ∀ root ∈ roots, ∀ id ∈ t.descendants root, t.PropertySettled settings id) :
    Changed.each roots (renameProperties settings) t = { tree := t } := by
  apply each_unchanged
  intro root member
  apply each_unchanged
  intro id inside
  exact (settled root member id inside).renameProperty

def renameNodes (t : Tree) (settings : Settings) (roots : List NodeId) : Changed :=
  let labels : Changed := if settings.renamesLocals then Changed.each roots renameLabels t else { tree := t }
  labels.andThen fun t =>
    if settings.manualRenamesProperties && settings.allows .propertyRenaming then
      Changed.each roots (renameProperties settings) t
    else { tree := t }

/-- If local names are renamed, so are the labels, and what follows only concerns properties. -/
theorem renameNodes_forms (settings : Settings) (rooted : ∀ root ∈ roots, t.Rooted root) (distinct : roots.Nodup) :
    ∃ t₁ : Tree, t.Relabels t (if settings.renamesLocals then roots.flatMap t.descendants else []) t₁ ∧
      (t.renameNodes settings roots).tree =
        (if settings.manualRenamesProperties && settings.allows .propertyRenaming then
          Changed.each roots (renameProperties settings) t₁ else { tree := t₁ } : Changed).tree ∧
      Retitling settings t₁ (t.renameNodes settings roots).tree := by
  refine ⟨(if settings.renamesLocals then Changed.each roots renameLabels t else { tree := t } : Changed).tree, ?_, rfl, ?_⟩
  · split
    · exact renameLabels_forms rooted distinct
    · exact ⟨.refl t, fun _ none => absurd none List.not_mem_nil, fun _ _ => rfl⟩
  · unfold renameNodes
    dsimp only [Changed.andThen]
    generalize (if settings.renamesLocals then Changed.each roots renameLabels t else { tree := t }).tree = t₁
    split
    · exact renameProperties_retitling settings roots t₁
    · exact .refl t₁

end Tree

theorem rename_tree (settings : Settings) (t : Tree) (scopes : ScopeTree) (roots : List NodeId) :
    (rename settings t scopes roots).tree = (t.renameNodes settings roots).tree :=
  rfl

end Condense
