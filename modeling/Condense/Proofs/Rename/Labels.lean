import Condense.Proofs.Minify.Proper
import Condense.Proofs.Rename.Name
import Condense.Rename.Labels

/-!
What renaming makes of labels.
-/

namespace Condense

open List

variable {step : Tree → NodeId → Changed} {id child root : NodeId} {depth : Nat} {roots : List NodeId}

theorem Changed.each_cons (id : NodeId) (rest : List NodeId) (step : Tree → NodeId → Changed) (t : Tree) :
    (Changed.each (id :: rest) step t).tree = (Changed.each rest step (step t id).tree).tree := by
  rw [each_tree, each_tree, foldl_cons]

theorem Changed.each_unchanged {ids : List NodeId} {t : Tree}
    (same : ∀ id ∈ ids, step t id = { tree := t }) : Changed.each ids step t = { tree := t } := by
  unfold Changed.each
  induction ids with
  | nil => rfl
  | cons id rest ih =>
    have first : (({ tree := t } : Changed).andThen fun t => step t id) = { tree := t } := by
      simp only [Changed.andThen, same id (.head _)]
    rw [foldl_cons, first]
    exact ih fun x member => same x (.tail _ member)

namespace Form

def label? : Form NodeId → Option String
  | .labeled label _ => some label
  | _ => none

def jumpLabel? : Form NodeId → Option String
  | .breakStatement label | .continueStatement label => label
  | _ => none

def isFunction : Form NodeId → Bool
  | .function .. => true
  | _ => false

/-- The form with the new name of its label, or of the label that it jumps to. -/
def relabeled (labels : Tree.Labels) : Form NodeId → Form NodeId
  | .labeled _ body => .labeled (generatedName labels.length) body
  | .breakStatement (some label) => .breakStatement (some ((labels.lookup label).getD label))
  | .continueStatement (some label) => .continueStatement (some ((labels.lookup label).getD label))
  | form => form

/-- The labels around what a node holds, if `labels` stand around the node. -/
def labelsInside (labels : Tree.Labels) : Form NodeId → Tree.Labels
  | .labeled label _ => (label, generatedName labels.length) :: labels
  | .function .. => []
  | _ => labels

variable (labels : Tree.Labels) (form : Form NodeId)

theorem relabeled_isFunction : (form.relabeled labels).isFunction = form.isFunction := by
  unfold relabeled
  split <;> rfl

theorem relabeled_jumpLabel? :
    (form.relabeled labels).jumpLabel? = form.jumpLabel?.map fun label => (labels.lookup label).getD label := by
  cases form
  case breakStatement label => cases label <;> rfl
  case continueStatement label => cases label <;> rfl
  all_goals rfl

theorem relabeled_label? : (form.relabeled labels).label? = form.label?.map fun _ => generatedName labels.length := by
  unfold relabeled
  split
  case h_4 => cases form <;> simp_all [label?]
  all_goals rfl

end Form

namespace Tree

variable {t t' : Tree}

theorem SameLinks.walk (same : t.SameLinks t') (steps : Nat) (stack out : List NodeId) :
    t'.walk steps stack out = t.walk steps stack out := by
  induction steps generalizing stack out with
  | zero => cases stack <;> rfl
  | succ steps ih =>
    cases stack with
    | nil => rfl
    | cons id stack => rw [Tree.walk, Tree.walk, same.children, ih]

theorem SameLinks.descendants (same : t.SameLinks t') (root : NodeId) : t'.descendants root = t.descendants root := by
  simp only [Tree.descendants, slots, same.size, same.children, same.walk]

theorem SameLinks.below (same : t.SameLinks t') {top : NodeId} : t'.Below top id ↔ t.Below top id :=
  below_congr same.parent?

/-- The labeled statements around a node in its function with their labels, nearest first. -/
def labelsAround (t : Tree) (id : NodeId) : List (NodeId × String) :=
  ((t.ancestors id).takeWhile fun a => !(t.form a).isFunction).filterMap fun a => (t.form a).label?.map (a, ·)

/-- The nearest statement around a node in its function that has the label. -/
def labelTarget? (t : Tree) (id : NodeId) (label : String) : Option NodeId :=
  ((t.labelsAround id).find? (·.2 == label)).map (·.1)

/-- The names that labels get which stand around each other. -/
def newNames : List (NodeId × String) → Labels
  | [] => []
  | (_, label) :: outer => (label, generatedName outer.length) :: newNames outer

def renumbered : List (NodeId × String) → List (NodeId × String)
  | [] => []
  | (id, _) :: outer => (id, generatedName outer.length) :: renumbered outer

@[simp] theorem newNames_length (labels : List (NodeId × String)) : (newNames labels).length = labels.length := by
  induction labels with
  | nil => rfl
  | cons head outer ih => simp [newNames, ih]

@[simp] theorem renumbered_length (labels : List (NodeId × String)) : (renumbered labels).length = labels.length := by
  induction labels with
  | nil => rfl
  | cons head outer ih => simp [renumbered, ih]

section

variable (rooted : t.Rooted root)

include rooted

theorem Rooted.ancestorsUpTo_eq {n steps : Nat} (arrives : t.climb n id = some root)
    (enough : n ≤ steps) : t.ancestorsUpTo steps id = t.ancestorsUpTo n id := by
  induction n generalizing id steps with
  | zero =>
    cases steps with
    | zero => rfl
    | succ steps => simp [ancestorsUpTo, Option.some.inj arrives, rooted.top]
  | succ n ih =>
    obtain ⟨steps, rfl⟩ : ∃ k, steps = k + 1 := ⟨steps - 1, by omega⟩
    obtain ⟨parent, link, further⟩ := Option.bind_eq_some_iff.mp arrives
    simp only [ancestorsUpTo, link, ih further (Nat.le_of_succ_le_succ enough)]

theorem Rooted.ancestors_child (below : t.Below root id) (slot : child ∈ t.children id) :
    t.ancestors child = id :: t.ancestors id := by
  obtain ⟨n, arrives⟩ := below
  have above := rooted.climb_child arrives slot
  have range := rooted.steps_lt_size above
  rw [ancestors, rooted.ancestorsUpTo_eq above (Nat.le_of_lt range), ancestors,
    rooted.ancestorsUpTo_eq arrives (by omega), ancestorsUpTo, rooted.linked ⟨n, arrives⟩ slot]

theorem Rooted.labelsAround_root : t.labelsAround root = [] := by
  rw [labelsAround, ancestors, rooted.ancestorsUpTo_eq (n := 0) rfl (Nat.zero_le _)]
  rfl

theorem Rooted.labelsAround_child (below : t.Below root id) (slot : child ∈ t.children id) : t.labelsAround child =
      if (t.form id).isFunction then [] else ((t.form id).label?.map (id, ·)).toList ++ t.labelsAround id := by
  rw [labelsAround, rooted.ancestors_child below slot, takeWhile_cons]
  cases (t.form id).isFunction with
  | true => rfl
  | false => cases label : (t.form id).label? <;> simp [labelsAround, label]

theorem Rooted.newNames_child (below : t.Below root id) (slot : child ∈ t.children id) :
    newNames (t.labelsAround child) = (t.form id).labelsInside (newNames (t.labelsAround id)) := by
  rw [rooted.labelsAround_child below slot]
  cases t.form id <;> simp [Form.isFunction, Form.label?, Form.labelsInside, newNames]

end

/-- A change that gives one node another form, or none if it has that form. -/
structure Rewrites (t : Tree) (id : NodeId) (new : Form NodeId) (c : Changed) : Prop where
  links : t.SameLinks c.tree
  forms : ∀ x, c.tree.form x = if x = id then new else t.form x
  kept : new = t.form id → c = { tree := t }

theorem Rewrites.none {form : Form NodeId} (same : t.form id = form) : t.Rewrites id form { tree := t } := by
  refine ⟨.refl t, fun x => ?_, fun _ => rfl⟩
  split
  · rename_i here
    rw [here, same]
  · rfl

theorem Rewrites.some {form : Form NodeId} (range : id.index < t.size) (links : t.SameLinks t')
    (forms : ∀ x, t'.form x = if x = id ∧ id.index < t.size then form else t.form x) (other : form ≠ t.form id) :
    t.Rewrites id form { tree := t', changes := 1 } := by
  refine ⟨links, fun x => ?_, (absurd · other)⟩
  simp only [forms, range, and_true]

theorem renameJump_rewrites {build : Option String → Form NodeId} {label : String} (labels : Labels)
    (range : id.index < t.size) (form : t.form id = build (some label)) (leaf : ∀ label, (build label).children = [])
    (injective : Function.Injective build) :
    t.Rewrites id (build (some ((labels.lookup label).getD label))) (renameJump labels t id label build) := by
  unfold renameJump
  cases labels.lookup label with
  | none => exact .none form
  | some short =>
    dsimp only [Option.getD_some]
    split
    · rename_i other
      refine .some range (.modifyForm t id (by rw [leaf, children, form, leaf])) (modifyForm_form t id _) ?_
      rw [form]
      intro same
      simp [Option.some.inj (injective same)] at other
    · rename_i same
      exact .none (by rw [form, of_not_not (mt bne_iff_ne.mpr same)])

/-- A node is relabeled before what it holds. -/
theorem renameLabelsUpTo_succ (depth : Nat) (labels : Labels) (tidy : t.Tidy id) (range : id.index < t.size) :
    ∃ here, t.Rewrites id ((t.form id).relabeled labels) here ∧ renameLabelsUpTo (depth + 1) labels t id =
      here.andThen (Changed.each (t.children id) (renameLabelsUpTo depth ((t.form id).labelsInside labels))) := by
  have jump (label : String) {build : Option String → Form NodeId} (form : t.form id = build (some label))
      (leaf : ∀ label, (build label).children = []) (injective : Function.Injective build)
      (relabeled : (build (some label)).relabeled labels = build (some ((labels.lookup label).getD label))) :
      ∃ here, t.Rewrites id ((t.form id).relabeled labels) here ∧ renameJump labels t id label build =
        here.andThen (Changed.each (t.children id) (renameLabelsUpTo depth ((t.form id).labelsInside labels))) := by
    refine ⟨renameJump labels t id label build, ?_, ?_⟩
    · rw [form, relabeled]
      exact renameJump_rewrites labels range form leaf injective
    · rw [children, form, leaf]
      rfl
  unfold renameLabelsUpTo
  split
  · rename_i label body form
    have held : t.children id = [body] := by simp [children, form, Form.children]
    let short := generatedName labels.length
    have named : t.Rewrites id (.labeled short body)
        (if short != label then { tree := t.setForm id (.labeled short body), changes := 1 } else { tree := t }) := by
      split
      · rename_i other
        refine .some range (.setForm tidy (by simp [held, Form.children])) (setForm_form t id _) ?_
        rw [form]
        intro same
        simp [(Form.labeled.inj same).1] at other
      · rename_i same
        exact .none (by rw [form, of_not_not (mt bne_iff_ne.mpr same)])
    rw [form, held]
    refine ⟨_, named, ?_⟩
    simp only [Form.labelsInside, Changed.each, foldl_cons, foldl_nil, Changed.andThen, Nat.zero_add]
    rfl
  · rename_i label form
    exact jump label form (fun _ => rfl) (fun _ _ => Form.breakStatement.inj) rfl
  · rename_i label form
    exact jump label form (fun _ => rfl) (fun _ _ => Form.continueStatement.inj) rfl
  · rename_i form
    refine ⟨{ tree := t }, .none (by rw [form]; rfl), ?_⟩
    rw [form]
    simp [Changed.andThen, Form.labelsInside]
  · rename_i notLabeled notBreak notContinue notFunction
    have relabeled : (t.form id).relabeled labels = t.form id := by
      unfold Form.relabeled
      split
      · exact (notLabeled _ _ ‹_›).elim
      · exact (notBreak _ ‹_›).elim
      · exact (notContinue _ ‹_›).elim
      · rfl
    have inside : (t.form id).labelsInside labels = labels := by
      unfold Form.labelsInside
      split
      · exact (notLabeled _ _ ‹_›).elim
      · exact (notFunction _ _ _ _ _ _ _ _ ‹_›).elim
      · rfl
    refine ⟨{ tree := t }, .none relabeled.symm, ?_⟩
    rw [inside]
    simp [Changed.andThen, children]

/-- The nodes in a list are relabeled and all others are what they were, where `original` is the tree that the labels
are looked up in. -/
structure Relabels (original t : Tree) (ids : List NodeId) (t' : Tree) : Prop where
  links : original.SameLinks t'
  inside : ∀ x ∈ ids, t'.form x = (original.form x).relabeled (newNames (original.labelsAround x))
  outside : ∀ x ∉ ids, t'.form x = t.form x

variable {original : Tree}

/-- Steps at nodes that have nothing in common below them do not disturb each other. -/
theorem each_relabels (ids : List NodeId) {listed : NodeId → List NodeId} (apart : (ids.flatMap listed).Nodup)
    (each : ∀ t id, original.SameLinks t → id ∈ ids → (∀ x ∈ listed id, t.form x = original.form x) →
      original.Relabels t (listed id) (step t id).tree)
    (links : original.SameLinks t) (fresh : ∀ id ∈ ids, ∀ x ∈ listed id, t.form x = original.form x) :
    original.Relabels t (ids.flatMap listed) (Changed.each ids step t).tree := by
  induction ids generalizing t with
  | nil => exact ⟨links, fun _ none => absurd none not_mem_nil, fun _ _ => rfl⟩
  | cons id rest ih =>
    rw [flatMap_cons, nodup_append'] at apart
    obtain ⟨-, apart, disjoint⟩ := apart
    have first := each t id links (.head _) (fresh id (.head _))
    rw [Changed.each_cons]
    generalize (step t id).tree = next at first
    have others := ih apart (fun t id links member => each t id links (.tail _ member)) first.links
      fun other member x under => by
        rw [first.outside x fun before => disjoint before (mem_flatMap.2 ⟨other, member, under⟩)]
        exact fresh other (.tail _ member) x under
    refine ⟨others.links, fun x member => ?_, fun x member => ?_⟩
    · by_cases later : x ∈ rest.flatMap listed
      · exact others.inside x later
      · rw [others.outside x later]
        exact first.inside x ((mem_append.1 member).resolve_right later)
    · rw [flatMap_cons, mem_append, not_or] at member
      rw [others.outside x member.2, first.outside x member.1]

/-- What stands below a node is relabeled, and nothing else. -/
theorem Rooted.renameLabelsUpTo (rooted : original.Rooted root) (depth : Nat) (below : original.Below root id)
    (links : original.SameLinks t) (fresh : ∀ x ∈ original.preorder depth id, t.form x = original.form x) :
    original.Relabels t (original.preorder depth id)
      (renameLabelsUpTo depth (newNames (original.labelsAround id)) t id).tree := by
  induction depth generalizing t id with
  | zero => exact ⟨links, fun _ none => absurd none not_mem_nil, fun _ _ => rfl⟩
  | succ depth ih =>
    obtain ⟨here, rewrites, result⟩ := renameLabelsUpTo_succ depth (newNames (original.labelsAround id))
      (links.tidy (rooted.tidy id below)) (links.size ▸ rooted.index_lt below)
    have same := fresh id (.head _)
    rw [links.children, same] at result
    obtain ⟨alone, apart⟩ := nodup_cons.1 (rooted.preorder_nodup (depth + 1) below)
    have other {x : NodeId} (under : x ∈ (original.children id).flatMap (original.preorder depth)) : x ≠ id := by
      rintro rfl
      exact alone under
    have inner : original.Relabels here.tree ((original.children id).flatMap (original.preorder depth))
        (Changed.each (original.children id) (Tree.renameLabelsUpTo depth
          ((original.form id).labelsInside (newNames (original.labelsAround id)))) here.tree).tree := by
      refine each_relabels (original.children id) apart (fun t child links slot fresh => ?_)
        (links.trans rewrites.links) fun child slot x member => ?_
      · rw [← rooted.newNames_child below slot]
        exact ih (rooted.below_child below slot) links fresh
      · have under := mem_flatMap.2 ⟨child, slot, member⟩
        rw [rewrites.forms, if_neg (other under)]
        exact fresh x (.tail _ under)
    rw [result]
    refine ⟨inner.links, fun x member => ?_, fun x member => ?_⟩
    · rcases mem_cons.1 member with rfl | under
      · exact (inner.outside x fun under => other under rfl).trans (by rw [rewrites.forms, if_pos rfl, same])
      · exact inner.inside x under
    · rw [preorder, mem_cons, not_or] at member
      exact (inner.outside x member.2).trans (by rw [rewrites.forms, if_neg member.1])

theorem tops_apart (rooted : ∀ root ∈ roots, t.Rooted root) (distinct : roots.Nodup) :
    (roots.flatMap t.descendants).Nodup := by
  refine nodup_flatMap.2 ⟨fun root member => (rooted root member).descendants_nodup, distinct.imp_of_mem ?_⟩
  intro a b first second different x underA underB
  have top {a b : NodeId} (member : b ∈ roots) (above : t.Below a b) : a = b := by
    rcases above.cases with same | ⟨p, link, -⟩
    · exact same.symm
    · simp [(rooted b member).top] at link
  rcases ((rooted a first).below_of_mem_descendants underA).linear ((rooted b second).below_of_mem_descendants underB)
    with above | above
  · exact different (top second above)
  · exact different (top first above).symm

theorem renameLabels_forms (rooted : ∀ root ∈ roots, t.Rooted root) (distinct : roots.Nodup) :
    t.Relabels t (roots.flatMap t.descendants) (Changed.each roots renameLabels t).tree := by
  refine each_relabels roots (tops_apart rooted distinct) (fun t' root links member fresh => ?_) (.refl t)
    fun _ _ _ _ => rfl
  rw [(rooted root member).descendants_eq] at fresh ⊢
  have result := (rooted root member).renameLabelsUpTo (t.size + 1) (.refl root) links fresh
  rw [(rooted root member).labelsAround_root] at result
  rwa [renameLabels, links.size]

/-- The labels below the root, looked up in `original`, have the names of their depths. -/
structure Numbered (original : Tree) (root : NodeId) (t : Tree) : Prop where
  links : original.SameLinks t
  isFunction : ∀ x ∈ original.descendants root, (t.form x).isFunction = (original.form x).isFunction
  label? : ∀ x ∈ original.descendants root, (t.form x).label? =
    (original.form x).label?.map fun _ => generatedName (original.labelsAround x).length

theorem Relabels.numbered {ids : List NodeId} (relabels : original.Relabels t ids t')
    (sub : ∀ x ∈ original.descendants root, x ∈ ids) : original.Numbered root t' := by
  refine ⟨relabels.links, fun x member => ?_, fun x member => ?_⟩
  · rw [relabels.inside x (sub x member), Form.relabeled_isFunction]
  · rw [relabels.inside x (sub x member), Form.relabeled_label?, newNames_length]

/-- The labels around a node are the same as before, with new names. -/
theorem Numbered.labelsAround (numbered : original.Numbered root t) (rooted : original.Rooted root) {x : NodeId}
    (member : x ∈ original.descendants root) : t.labelsAround x = renumbered (original.labelsAround x) := by
  have down (depth : Nat) {id : NodeId} (below : original.Below root id)
      (all : ∀ x ∈ original.preorder depth id, x ∈ original.descendants root)
      (here : t.labelsAround id = renumbered (original.labelsAround id)) (member : x ∈ original.preorder depth id) :
      t.labelsAround x = renumbered (original.labelsAround x) := by
    induction depth generalizing id with
    | zero => exact absurd member not_mem_nil
    | succ depth ih =>
      rcases mem_cons.1 member with rfl | under
      · exact here
      obtain ⟨child, slot, member⟩ := mem_flatMap.1 under
      refine ih (rooted.below_child below slot)
        (fun x inner => all x (.tail _ (mem_flatMap.2 ⟨child, slot, inner⟩))) ?_ member
      rw [rooted.labelsAround_child below slot, (numbered.links.rooted rooted).labelsAround_child
        (numbered.links.below.2 below) (numbered.links.children id ▸ slot),
        numbered.isFunction id (all id (.head _)), numbered.label? id (all id (.head _)), here]
      cases (original.form id).isFunction with
      | true => rfl
      | false => cases (original.form id).label? <;> rfl
  have listed := rooted.descendants_eq
  refine down _ (.refl root) (fun x found => listed ▸ found) ?_ (listed ▸ member)
  rw [rooted.labelsAround_root, (numbered.links.rooted rooted).labelsAround_root]
  rfl

theorem mem_renumbered {labels : List (NodeId × String)} {label : NodeId × String} (member : label ∈ renumbered labels) :
    ∃ depth < labels.length, label.2 = generatedName depth := by
  induction labels with
  | nil => exact absurd member not_mem_nil
  | cons head outer ih =>
    rcases mem_cons.1 member with rfl | deeper
    · exact ⟨outer.length, Nat.lt_succ_self _, rfl⟩
    · obtain ⟨depth, less, same⟩ := ih deeper
      exact ⟨depth, Nat.lt_succ_of_lt less, same⟩

theorem renumbered_nodup (labels : List (NodeId × String)) : ((renumbered labels).map (·.2)).Nodup := by
  induction labels with
  | nil => exact .nil
  | cons head outer ih =>
    refine nodup_cons.2 ⟨fun member => ?_, ih⟩
    obtain ⟨label, inside, same⟩ := mem_map.1 member
    obtain ⟨depth, less, named⟩ := mem_renumbered inside
    exact less.ne (generatedName_injective (named.symm.trans same))

/-- The nearest label with some name is the nearest one with the new name of that label. -/
theorem find?_renumbered {labels : List (NodeId × String)} {label : String} {target : NodeId}
    (found : (labels.find? (·.2 == label)).map (·.1) = some target) :
    ∃ depth < labels.length, (newNames labels).lookup label = some (generatedName depth) ∧
      ((renumbered labels).find? (·.2 == generatedName depth)).map (·.1) = some target := by
  induction labels with
  | nil => cases found
  | cons head outer ih =>
    obtain ⟨id, name⟩ := head
    by_cases here : name = label
    · subst here
      refine ⟨outer.length, Nat.lt_succ_self _, ?_, ?_⟩
      · simp [newNames]
      · simpa [renumbered] using found
    · obtain ⟨depth, less, named, finds⟩ := ih (by simpa [here] using found)
      have other : generatedName outer.length ≠ generatedName depth := fun same =>
        Nat.ne_of_gt less (generatedName_injective same)
      refine ⟨depth, Nat.lt_succ_of_lt less, ?_, ?_⟩
      · simpa [newNames, lookup_cons, beq_eq_false_iff_ne.2 (Ne.symm here)] using named
      · rwa [renumbered, find?_cons_of_neg (by simpa using other)]

/-- Renaming labels keeps every jump on its target. If all jumps of a tree with a label have a target in their function,
each has the same target afterwards, and all labels around one place in a function differ. -/
theorem renameLabels_keeps_targets (rooted : t.Rooted root)
    (resolved : ∀ jump ∈ t.descendants root, ∀ label ∈ (t.form jump).jumpLabel?, (t.labelTarget? jump label).isSome) :
    let t' := (renameLabels t root).tree
    (∀ jump ∈ t.descendants root, ∀ label ∈ (t.form jump).jumpLabel?, ∃ target ∈ t.labelTarget? jump label,
      ∃ short ∈ (t'.form jump).jumpLabel?, t'.labelTarget? jump short = some target) ∧
    ∀ id ∈ t.descendants root, ((t'.labelsAround id).map (·.2)).Nodup := by
  intro t'
  have relabels : t.Relabels t (t.descendants root) t' := by
    have forms := renameLabels_forms (show ∀ x ∈ [root], t.Rooted x by simpa using rooted) (List.nodup_singleton root)
    rwa [Changed.each_cons, List.flatMap_singleton] at forms
  have around {x : NodeId} (member : x ∈ t.descendants root) : t'.labelsAround x = renumbered (t.labelsAround x) :=
    (relabels.numbered fun _ => id).labelsAround rooted member
  refine ⟨fun jump member label leads => ?_, fun id member => around member ▸ renumbered_nodup _⟩
  obtain ⟨target, found⟩ := Option.isSome_iff_exists.1 (resolved jump member label leads)
  obtain ⟨depth, -, named, finds⟩ := find?_renumbered found
  refine ⟨target, found, generatedName depth, ?_, ?_⟩
  · rw [relabels.inside jump member, Form.relabeled_jumpLabel?, leads]
    simp [named]
  · rw [labelTarget?, around member]
    exact finds

/-- The labels swap their names, and both jumps still leave the loop they left. -/
theorem renameLabels_keeps_targets_swapped :
    let t := (parse "t:n:for(;;)\x7bbreak t;break n\x7d" {}).tree
    let root := (parse "t:n:for(;;)\x7bbreak t;break n\x7d" {}).root
    let t' := (renameLabels t root).tree
    (∀ jump ∈ t.descendants root, ∀ label ∈ (t.form jump).jumpLabel?, (t.labelTarget? jump label).isSome) ∧
    (∀ jump ∈ t.descendants root, ∀ label ∈ (t.form jump).jumpLabel?, ∃ target ∈ t.labelTarget? jump label,
      ∃ short ∈ (t'.form jump).jumpLabel?, t'.labelTarget? jump short = some target) ∧
    ∀ id ∈ t.descendants root, ((t'.labelsAround id).map (·.2)).Nodup := by
  intro t root t'
  have resolved : ∀ jump ∈ t.descendants root, ∀ label ∈ (t.form jump).jumpLabel?,
      (t.labelTarget? jump label).isSome := by
    decide +kernel
  exact ⟨resolved, renameLabels_keeps_targets (parse_proper _ _).rooted resolved⟩

/-- Where all labels have the names that they get, nothing is renamed. -/
theorem Rooted.renameLabelsUpTo_again (rooted : t.Rooted root) (depth : Nat) (below : t.Below root id)
    (settled : ∀ x ∈ t.preorder depth id, (t.form x).relabeled (newNames (t.labelsAround x)) = t.form x) :
    Tree.renameLabelsUpTo depth (newNames (t.labelsAround id)) t id = { tree := t } := by
  induction depth generalizing id with
  | zero => rfl
  | succ depth ih =>
    obtain ⟨here, rewrites, result⟩ := renameLabelsUpTo_succ depth (newNames (t.labelsAround id)) (rooted.tidy id below)
      (rooted.index_lt below)
    have inner (child : NodeId) (slot : child ∈ t.children id) :
        Tree.renameLabelsUpTo depth ((t.form id).labelsInside (newNames (t.labelsAround id))) t child = { tree := t } := by
      rw [← rooted.newNames_child below slot]
      exact ih (rooted.below_child below slot) fun x member =>
        settled x (.tail _ (mem_flatMap.2 ⟨child, slot, member⟩))
    simp only [result, rewrites.kept (settled id (.head _)), Changed.andThen, Changed.each_unchanged inner]

/-- New names are those of their own labels. -/
theorem lookup_renumbered (labels : List (NodeId × String)) (label : String) :
    ((newNames (renumbered labels)).lookup label).getD label = label := by
  induction labels with
  | nil => rfl
  | cons head outer ih =>
    simp only [renumbered, newNames, lookup_cons, renumbered_length]
    split
    · rename_i here
      exact (beq_iff_eq.1 here).symm
    · exact ih

theorem Numbered.settled (numbered : original.Numbered root t) (rooted : original.Rooted root) {x : NodeId}
    (member : x ∈ original.descendants root) : (t.form x).relabeled (newNames (t.labelsAround x)) = t.form x := by
  rw [numbered.labelsAround rooted member]
  unfold Form.relabeled
  split
  · rename_i label body form
    have named := numbered.label? x member
    rw [form] at named
    obtain ⟨_, -, rfl⟩ := Option.map_eq_some_iff.1 named.symm
    rw [newNames_length, renumbered_length, form]
  · rename_i form
    rw [lookup_renumbered, form]
  · rename_i form
    rw [lookup_renumbered, form]
  · rfl

/-- Labels that have the names of their depths keep them. -/
theorem renameLabels_again (rooted : ∀ root ∈ roots, original.Rooted root)
    (numbered : ∀ root ∈ roots, original.Numbered root t) : Changed.each roots renameLabels t = { tree := t } := by
  refine Changed.each_unchanged fun root member => ?_
  have links := (numbered root member).links
  have top := links.rooted (rooted root member)
  have again := top.renameLabelsUpTo_again (t.size + 1) (.refl root) fun x below => by
    rw [← top.descendants_eq, links.descendants] at below
    exact (numbered root member).settled (rooted root member) below
  rwa [top.labelsAround_root] at again

end Tree

end Condense
