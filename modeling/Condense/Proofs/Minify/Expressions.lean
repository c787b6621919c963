import Condense.Minify.Literals
import Condense.Minify.Shorten
import Condense.Proofs.Minify.Proper

/-!
The passes over expressions keep a tree proper.
-/

attribute [local simp] Condense.Form.children

namespace Condense

open Changed List

variable {form : Form NodeId} {scopes : ScopeTree} {callee : NodeId}

namespace Tree

variable {t : Tree} {root id : NodeId}

theorem unwrapUpTo_below (rooted : t.Rooted root) (steps : Nat) (below : t.Below root id) :
    t.Below id (t.unwrapUpTo steps id) := by
  induction steps generalizing id with
  | zero => exact .refl id
  | succ steps ih =>
    unfold unwrapUpTo
    split
    · rename_i inner form
      have link := (rooted.tidy id below).linked inner (by simp [form])
      exact (Below.link link (.refl id)).trans (ih (.link link below))
    · exact .refl id

theorem unwrapGrouping_below (rooted : t.Rooted root) (below : t.Below root id) : t.Below id (t.unwrapGrouping id) :=
  unwrapUpTo_below rooted _ below

/-- Whether a node is a literal or parentheses. -/
def IsWrapping (form : Form NodeId) : Prop :=
  (∃ literal, form = .constant literal) ∨ ∃ inner, form = .grouping inner

/-- A literal in parentheses has nothing else below it. -/
theorem isWrapping_of_constant? (held : t.Held) {literal : Literal} (found : t.constant? id = some literal)
    {x : NodeId} (below : t.Below id x) : IsWrapping (t.form x) := by
  have inner (steps : Nat) (id : NodeId) (constant : ∃ literal, t.form (t.unwrapUpTo steps id) = .constant literal)
      (below : t.Below id x) : IsWrapping (t.form x) := by
    induction steps generalizing id with
    | zero =>
      obtain ⟨literal, form⟩ := constant
      have form : t.form id = .constant literal := form
      rw [held.eq_of_leaf (by simp [children, form]) below]
      exact .inl ⟨literal, form⟩
    | succ steps ih =>
      unfold unwrapUpTo at constant
      split at constant
      · rename_i expression form
        rcases held.below_cases below with rfl | ⟨child, slot, under⟩
        · exact .inr ⟨expression, form⟩
        · have same : child = expression := by simpa [children, form] using slot
          exact ih expression constant (same ▸ under)
      · obtain ⟨literal, form⟩ := constant
        rw [held.eq_of_leaf (by simp [children, form]) below]
        exact .inl ⟨literal, form⟩
  refine inner t.size id ?_ below
  unfold constant? at found
  split at found
  · rename_i literal form
    exact ⟨literal, form⟩
  · cases found

end Tree

namespace Literals

open Condense.Tree

variable {t t' : Tree} {root id : NodeId}

/-- What a folded node holds, it held before; what is not below it stays as it is. -/
structure Folds (t t' : Tree) (root id : NodeId) : Prop where
  proper : t'.Proper root
  size : t'.size = t.size
  outside : ∀ x, ¬ t.Below id x → t'.form x = t.form x
  shrinks : ∀ a b, t'.Below a b → t.Below a b
  others : ∀ x, t.Below root x → (t.Below id x → x = id) → t'.Below root x

section

variable (proper : t.Proper root) (below : t.Below root id)

include proper below

theorem folds_setForm (different : id ≠ root) {holder : NodeId} (lower : t.Below id holder)
    (sublist : form.children.Sublist (t.children holder)) : Folds t (t.setForm id form) root id := by
  have offered := proper.rooted.offered_sublist below lower sublist
  refine ⟨proper.setForm below offered different, setForm_size .., fun x apart => ?_, fun a b => ?_,
    fun x live other => .setForm proper.rooted below offered live fun beneath => .inl (other beneath)⟩
  · rw [setForm_form, if_neg]
    rintro ⟨rfl, -⟩
    exact apart (.refl x)
  refine Below.of_setForm fun part member => ?_
  exact (offered.under proper.rooted member (proper.rooted.below_child (below.trans lower) (sublist.subset member))).1

theorem folds_fold? {settings : Settings} (found : fold? settings t id = some form) :
    Folds t (t.setForm id form) root id := by
  have leaf : form.children = [] ∧ ¬ (t.form id).IsProgram := by
    unfold fold? at found
    split at found
    · rename_i op operand here
      refine ⟨?_, by simp [here, Form.IsProgram]⟩
      split at found
      · obtain ⟨x, -, found⟩ := Option.bind_eq_some_iff.mp found
        obtain ⟨literal, -, rfl⟩ := Option.map_eq_some_iff.mp found
        rfl
      · cases found
    · rename_i op left right here
      refine ⟨?_, by simp [here, Form.IsProgram]⟩
      split at found
      · obtain ⟨literal, -, rfl⟩ := Option.map_eq_some_iff.mp found
        rfl
      · cases found
    · rename_i digits here
      refine ⟨?_, by simp [here, Form.IsProgram]⟩
      dsimp only at found
      split at found
      · cases found
        rfl
      · cases found
    · cases found
  refine folds_setForm proper below (proper.ne_root leaf.2) (.refl id) ?_
  rw [leaf.1]
  exact nil_sublist _

/-- The last child of a node below becomes a literal, and its children move up. -/
theorem folds_joined (different : id ≠ root) {inner first middle : NodeId} (lower : t.Below id inner)
    (children : t.children inner = [first, middle]) {text : String} {op : BinaryOp} :
    Folds t ((t.setForm middle (.constant (.string text))).setForm id (.binary op first middle)) root id := by
  have link := (proper.rooted.tidy inner (below.trans lower)).linked middle (by simp [children])
  have deeper : t.Below id middle := .link link lower
  have live : t.Below root middle := below.trans deeper
  have notAbove : ¬ t.Below middle inner := not_below_of_link proper.rooted.top live link
  have notAbove' : ¬ t.Below middle id := fun beneath => notAbove (beneath.trans lower)
  have middle' : middle ≠ root := ne_of_link link proper.rooted.top
  let next := t.setForm middle (.constant (.string text))
  have once : Folds t next root middle := folds_setForm proper live middle' (.refl middle) (nil_sublist _)
  have lower' : next.Below id inner := by
    refine lower.kept fun y _ beneath _ => ?_
    rw [setForm_parent?, if_neg (by simp), if_neg]
    rintro ⟨slot, -⟩
    exact notAbove (Below.trans (.link (proper.rooted.linked live slot) (.refl middle)) beneath)
  have children' : next.children inner = [first, middle] := by
    rw [setForm_children, if_neg, children]
    rintro ⟨rfl, -⟩
    exact notAbove (.refl inner)
  have live' := once.others id below fun beneath => absurd beneath notAbove'
  have twice : Folds next (next.setForm id (.binary op first middle)) root id :=
    folds_setForm once.proper live' different lower' (by simp [children'])
  refine ⟨twice.proper, twice.size.trans once.size, fun x apart => ?_,
    fun a b under => once.shrinks a b (twice.shrinks a b under), fun x live other => ?_⟩
  · rw [twice.outside x fun under => apart (once.shrinks id x under),
      once.outside x fun under => apart (deeper.trans under)]
  refine twice.others x (once.others x live fun beneath => ?_) fun beneath => other (once.shrinks id x beneath)
  rw [other (deeper.trans beneath)] at beneath
  exact absurd beneath notAbove'

end

/-- Two strings that are added one after the other: `first + text` is the left operand of a sum with `tail`. -/
structure Joins (t : Tree) (id left right first middle : NodeId) (text tail : String) : Prop where
  sum : t.form id = .binary .add left right
  tail : t.constant? right = some (.string tail)
  inner : t.form (t.unwrapGrouping left) = .binary .add first middle
  text : t.constant? middle = some (.string text)

/-- The tree with both strings in one. -/
def joined (t : Tree) (id first middle : NodeId) (text : String) : Tree :=
  (t.setForm middle (.constant (.string text))).setForm id (.binary .add first middle)

theorem joinTail?_eq_some : joinTail? t id = some t' ↔ ∃ left right first middle text tail,
    Joins t id left right first middle text tail ∧ t' = joined t id first middle (text ++ tail) := by
  unfold joinTail?
  constructor
  · intro done
    split at done
    · rename_i left right form
      split at done
      · rename_i tail first middle string sum
        split at done
        · rename_i text literal
          exact ⟨left, right, first, middle, text, tail, ⟨form, string, sum, literal⟩, (Option.some.inj done).symm⟩
        · cases done
      · cases done
    · cases done
  · rintro ⟨left, right, first, middle, text, tail, ⟨form, string, sum, literal⟩, rfl⟩
    simp only [form, string, sum, literal, joined]

theorem joinTail?_eq_none (apart : ∀ left right first middle text tail,
    ¬ Joins t id left right first middle text tail) : joinTail? t id = none := by
  cases done : joinTail? t id with
  | none => rfl
  | some t' =>
    obtain ⟨left, right, first, middle, text, tail, joins, -⟩ := joinTail?_eq_some.1 done
    exact absurd joins (apart left right first middle text tail)

section

variable (proper : t.Proper root) (below : t.Below root id)

include proper below

/-- The inner sum is below the outer one. -/
theorem Joins.lower {left right first middle : NodeId} {text tail : String}
    (joins : Joins t id left right first middle text tail) : t.Below id (t.unwrapGrouping left) := by
  have link := (proper.rooted.tidy id below).linked left (by simp [joins.sum])
  exact (Below.link link (.refl id)).trans (unwrapGrouping_below proper.rooted (.link link below))

theorem folds_joinTail? (done : joinTail? t id = some t') : Folds t t' root id := by
  obtain ⟨left, right, first, middle, text, tail, joins, rfl⟩ := joinTail?_eq_some.1 done
  have different : id ≠ root := proper.ne_root (by simp [joins.sum, Form.IsProgram])
  exact folds_joined proper below different (joins.lower proper below) (by simp [children, joins.inner])

theorem foldNode_folds (settings : Settings) : Folds t (foldNode settings t id).tree root id := by
  have unchanged : Folds t t root id := ⟨proper, rfl, fun _ _ => rfl, fun _ _ below => below, fun _ live _ => live⟩
  unfold foldNode
  split
  · rename_i form found
    exact folds_fold? proper below found
  · split
    · exact ofOption_keeps unchanged fun t' done => folds_joinTail? proper below done
    · exact unchanged

/-- A node without children takes over a new one; nothing else moves. -/
theorem negateDigit_proper :
    (negateDigit t id).tree.Proper root ∧ ∀ x, t.Below root x → (negateDigit t id).tree.Below root x := by
  unfold negateDigit
  split
  · rename_i value form
    generalize (if value = true then (0.0 : Float) else 1.0) = digit
    let next := (t.alloc (.constant (.number digit)) (t.span id)).2
    have leaf : t.children id = [] := by simp [children, form]
    have grown : next.Proper root := proper.alloc _ (by simp)
    have loose : next.Rooted ⟨t.size⟩ := proper.held.rooted_alloc _ (by simp) (by simp)
    have same (x : NodeId) (live : t.Below root x) : next.Below root x :=
      live.kept fun y _ _ _ => by rw [alloc_parent?, if_neg (by simp)]
    have new : root ≠ ⟨t.size⟩ := ne_of_fresh proper.rooted.inside .refl
    have offered : next.Offered root id (Form.unary UnaryOp.not (⟨t.size⟩ : NodeId)).children := by
      refine ⟨by simp, fun part member => ?_, fun part member other member' _ => ?_⟩
      · obtain rfl : part = ⟨t.size⟩ := by simpa using member
        exact .inr ⟨_, new.symm, loose, .refl _⟩
      · rw [mem_singleton.mp member, mem_singleton.mp member']
    have stays : next.children id = [] := by
      rw [alloc_children, if_neg (ne_of_fresh (proper.rooted.index_lt below) .refl), leaf]
    have different : id ≠ root := proper.ne_root (by simp [form, Form.IsProgram])
    refine ⟨grown.setForm (same id below) offered different, fun x live => ?_⟩
    exact .setForm grown.rooted (same id below) offered (same x live) fun beneath =>
      .inl (grown.held.eq_of_leaf stays beneath)
  · exact ⟨proper, fun _ live => live⟩

end

/-- The tree with all operators folded, operands before operators. -/
def foldAll (settings : Settings) (root : NodeId) (t : Tree) : Tree :=
  (Changed.each (t.descendants root).reverse (foldNode settings) t).tree

def negateAll (root : NodeId) (t : Tree) : Tree :=
  (Changed.each (t.descendants root) negateDigit t).tree

theorem run_tree (settings : Settings) (root : NodeId) (t : Tree) : (run settings root t).tree =
    if settings.allows .booleanLiteralsToNot then negateAll root (foldAll settings root t)
    else foldAll settings root t := by
  dsimp only [run, Changed.andThen]
  split <;> rfl

/-- What each step makes of a fact about a tree and the nodes that are left, folding all operators makes of it. No node
that is still ahead is below the one that is folded. -/
theorem foldAll_induction (settings : Settings) (proper : t.Proper root) {P : List NodeId → Tree → Prop}
    (start : P (t.descendants root).reverse t)
    (next : ∀ id rest t, t.Proper root → t.Below root id → (∀ x ∈ rest, ¬ t.Below id x) → P (id :: rest) t →
      P rest (foldNode settings t id).tree) :
    (foldAll settings root t).Proper root ∧ P [] (foldAll settings root t) := by
  refine And.imp_right And.left (each_induction (P := fun rest t' => t'.Proper root ∧ P rest t' ∧
    (∀ a b, t'.Below a b → t.Below a b) ∧ (∀ x ∈ rest, t'.Below root x) ∧ rest.Pairwise fun a b => ¬ t.Below a b) ?_ ?_)
  · refine ⟨proper, start, fun _ _ below => below, fun x member => ?_, ?_⟩
    · exact proper.rooted.below_of_mem_descendants (mem_reverse.mp member)
    · exact pairwise_reverse.mpr proper.rooted.descendants_pairwise
  · rintro id rest t' ⟨proper, holds, shrinks, live, ahead⟩
    obtain ⟨above, ahead⟩ := pairwise_cons.mp ahead
    have below := live id (.head _)
    have folds := foldNode_folds proper below settings
    have apart (x : NodeId) (member : x ∈ rest) : ¬ t'.Below id x := fun beneath =>
      above x member (shrinks id x beneath)
    refine ⟨folds.proper, next id rest t' proper below apart holds,
      fun a b below => shrinks a b (folds.shrinks a b below), fun x member => ?_, ahead⟩
    exact folds.others x (live x (.tail _ member)) fun beneath => absurd beneath (apart x member)

theorem foldAll_proper (settings : Settings) (proper : t.Proper root) : (foldAll settings root t).Proper root :=
  (foldAll_induction settings proper (P := fun _ _ => True) trivial fun _ _ _ _ _ _ _ => trivial).1

/-- What each step makes of a fact about a tree, spelling all truth values as negations makes of it. -/
theorem negateAll_induction (proper : t.Proper root) {P : List NodeId → Tree → Prop} (start : P (t.descendants root) t)
    (next : ∀ id rest t, t.Proper root → t.Below root id → P (id :: rest) t → P rest (negateDigit t id).tree) :
    (negateAll root t).Proper root ∧ P [] (negateAll root t) := by
  refine And.imp_right And.left (each_induction (P := fun rest t => t.Proper root ∧ P rest t ∧
    ∀ x ∈ rest, t.Below root x) ⟨proper, start, fun x => proper.rooted.below_of_mem_descendants⟩ ?_)
  rintro id rest t ⟨proper, holds, live⟩
  have below := live id (.head _)
  obtain ⟨proper', stays⟩ := negateDigit_proper proper below
  exact ⟨proper', next id rest t proper below holds, fun x member => stays x (live x (.tail _ member))⟩

theorem run_proper (settings : Settings) (proper : t.Proper root) : (run settings root t).tree.Proper root := by
  have folded := foldAll_proper settings proper
  rw [run_tree]
  split
  · exact (negateAll_induction folded (P := fun _ _ => True) trivial fun _ _ _ _ _ _ => trivial).1
  · exact folded

end Literals

namespace Shorten

open Condense.Tree

variable {t : Tree} {root id : NodeId}

/-- Whether no form is shorter. -/
def IsInert : Form NodeId → Prop
  | .index .. | .call .. => False
  | _ => True

theorem shorter?_of_isInert (settings : Settings) (scopes : ScopeTree) (inert : IsInert (t.form id)) :
    shorter? settings scopes t id = none := by
  unfold shorter?
  split <;> simp_all [IsInert]

theorem isInert_of_isWrapping (wrapping : IsWrapping form) : IsInert form := by
  rcases wrapping with ⟨literal, rfl⟩ | ⟨inner, rfl⟩ <;> trivial

theorem isBuiltIn_inert {name : String} (held : t.Held) (builtIn : isBuiltIn t scopes callee name) {x : NodeId}
    (below : t.Below callee x) : IsInert (t.form x) := by
  unfold isBuiltIn at builtIn
  split at builtIn
  · rename_i found field how form
    rw [held.eq_of_leaf (by simp [children, form]) below, form]
    trivial
  · cases builtIn

/-- A shorter form takes its children from one place below the node; what it leaves out has no shorter form. -/
structure Shortens (t : Tree) (id : NodeId) (form : Form NodeId) : Prop where
  source : ∃ holder, t.Below id holder ∧ form.children.Sublist (t.children holder)
  rest : ∀ x, t.Below id x → x = id ∨ (∃ part ∈ form.children, t.Below part x) ∨ IsInert (t.form x)

theorem literalFor?_shortens {settings : Settings} {arguments : List NodeId}
    (held : t.Held) (children : t.children id = callee :: arguments)
    (found : literalFor? settings scopes t callee arguments = some form) : Shortens t id form := by
  unfold literalFor? at found
  split at found
  · rename_i applies
    simp only [Bool.and_eq_true, List.isEmpty_iff] at applies
    cases found
    refine ⟨⟨id, .refl id, List.nil_sublist _⟩, fun x below => ?_⟩
    rcases held.below_cases below with same | ⟨child, slot, under⟩
    · exact .inl same
    · obtain rfl : child = callee := by simpa [children, applies.1.2] using slot
      exact .inr (.inr (isBuiltIn_inert held applies.2 under))
  · split at found
    · rename_i applies
      simp only [Bool.and_eq_true] at applies
      cases found
      have elements : (Form.arrayLiteral (arguments.map some)).children = arguments := by
        simp [List.filterMap_map]
      refine ⟨⟨id, .refl id, ?_⟩, fun x below => ?_⟩
      · rw [elements, children]
        exact List.sublist_cons_self _ _
      rcases held.below_cases below with same | ⟨child, slot, under⟩
      · exact .inl same
      · rcases List.mem_cons.mp (children ▸ slot) with rfl | slot
        · exact .inr (.inr (isBuiltIn_inert held applies.1.2 under))
        · exact .inr (.inl ⟨child, by rwa [elements], under⟩)
    · cases found

theorem currentTime?_shortens (held : t.Held) (link : t.parent? callee = some id) (children : t.children id = [callee])
    (found : currentTime? scopes t callee = some form) : Shortens t id form := by
  unfold currentTime? at found
  split at found
  · rename_i object member
    split at found
    · split at found
      · cases found
        have held' : t.children callee = [object] := by simp [Tree.children, member]
        refine ⟨⟨callee, .link link (.refl id), by simp [held']⟩, fun x below => ?_⟩
        rcases held.below_cases below with same | ⟨child, slot, under⟩
        · exact .inl same
        obtain rfl : child = callee := by simpa [children] using slot
        rcases held.below_cases under with rfl | ⟨child, slot, under⟩
        · exact .inr (.inr (by rw [member]; trivial))
        · obtain rfl : child = object := by simpa [held'] using slot
          exact .inr (.inl ⟨child, mem_singleton_self child, under⟩)
      · cases found
    · cases found
  · cases found

theorem shorter?_shortens {settings : Settings} (proper : t.Proper root)
    (below : t.Below root id) (found : shorter? settings scopes t id = some form) : Shortens t id form := by
  have linked := (proper.rooted.tidy id below).linked
  unfold shorter? at found
  split at found
  · rename_i object key optional here
    have children : t.children id = [object, key] := by simp [children, here]
    split at found
    · split at found
      · rename_i name constant
        split at found
        · cases found
          refine ⟨⟨id, .refl id, ?_⟩, fun x under => ?_⟩
          · rw [children]
            exact (nil_sublist [key]).cons_cons object
          rcases proper.held.below_cases under with same | ⟨child, slot, under⟩
          · exact .inl same
          · rw [children] at slot
            rcases mem_cons.mp slot with rfl | slot
            · exact .inr (.inl ⟨child, mem_singleton_self child, under⟩)
            · obtain rfl := mem_singleton.mp slot
              exact .inr (.inr (isInert_of_isWrapping (isWrapping_of_constant? proper.held constant under)))
        · cases found
      · cases found
    · cases found
  · rename_i callee arguments optional here
    split at found
    · exact literalFor?_shortens proper.held (by simp [children, here]) found
    · cases found
  · rename_i callee here
    have children : t.children id = [callee] := by simp [children, here]
    split at found
    · exact currentTime?_shortens proper.held (linked callee (by simp [children])) children found
    · cases found
  · cases found

/-- Nodes that are still ahead are in the tree, or no rule applies to them. -/
theorem shortenAll_proper (settings : Settings) (scopes : ScopeTree) (proper : t.Proper root) :
    (Changed.each (t.descendants root) (shorten settings scopes) t).tree.Proper root := by
  refine (each_induction (P := fun rest t => t.Proper root ∧ ∀ x ∈ rest, t.Below root x ∨ IsInert (t.form x)) ?_ ?_).1
  · exact ⟨proper, fun x member => .inl (proper.rooted.below_of_mem_descendants member)⟩
  rintro id rest t ⟨proper, ahead⟩
  have ahead' (x : NodeId) (member : x ∈ rest) := ahead x (.tail _ member)
  unfold shorten
  cases found : shorter? settings scopes t id with
  | none => exact ⟨proper, ahead'⟩
  | some form =>
    have active : ¬ IsInert (t.form id) := fun inert => by
      rw [shorter?_of_isInert settings scopes inert] at found
      cases found
    have below : t.Below root id := (ahead id (.head _)).resolve_right active
    have different : id ≠ root := proper.ne_root fun ⟨statements, scope, program⟩ => active (by rw [program]; trivial)
    obtain ⟨⟨holder, lower, sublist⟩, left⟩ := shorter?_shortens proper below found
    have offered := proper.rooted.offered_sublist below lower sublist
    refine ⟨proper.setForm below offered different, fun x member => ?_⟩
    show (t.setForm id form).Below root x ∨ IsInert ((t.setForm id form).form x)
    by_cases here : x = id
    · rw [here]
      exact .inl (.setForm proper.rooted below offered below fun _ => .inl rfl)
    rw [setForm_form, if_neg fun same => here same.1]
    by_cases inert : IsInert (t.form x)
    · exact .inr inert
    · refine .inl (.setForm proper.rooted below offered ((ahead' x member).resolve_right inert) fun beneath => ?_)
      rcases left x beneath with same | kept | dropped
      · exact .inl same
      · exact .inr kept
      · exact absurd dropped inert

theorem unquote_proper (proper : t.Proper root) : (unquote t id).tree.Proper root := by
  unfold unquote
  split
  · rename_i key name found
    obtain ⟨key', -, same⟩ := Option.map_eq_some_iff.mp found
    obtain ⟨rfl, form⟩ := Prod.mk.inj same
    split
    · have leaf : t.children key' = [] := by simp [children, form]
      exact proper.reshape (.of_leaf leaf) (by rw [leaf]; rfl) (proper.ne_root (by simp [form, Form.IsProgram]))
    · exact proper
  · exact proper

theorem run_proper (settings : Settings) (scopes : ScopeTree) (proper : t.Proper root) :
    (run settings scopes root t).tree.Proper root := by
  have shortened := shortenAll_proper settings scopes proper
  dsimp only [run, Changed.andThen]
  generalize (Changed.each (t.descendants root) (shorten settings scopes) t).tree = t at shortened
  split
  · exact each_keeps (P := fun t => t.Proper root) shortened fun t id proper => unquote_proper proper
  · exact shortened

end Shorten

end Condense
