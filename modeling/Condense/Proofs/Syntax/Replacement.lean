import Condense.Minify.Basic
import Condense.Proofs.Syntax.Edits

/-!
A node that takes the place of another: one that stood nowhere, a part of the replaced node, or a node that was built
from such parts.
-/

namespace Condense

open List Option

namespace Tree

variable {t t' : Tree} {root parent new old : NodeId}

/-- A node took the place of another. -/
structure Exchanged (t t' : Tree) (parent old new : NodeId) : Prop where
  size : t'.size = t.size
  link : t.parent? old = some parent
  parent? : ∀ x, t'.parent? x = if x = new then some parent else if x = old then none else t.parent? x
  forms : ∀ x, x ≠ parent → t'.form x = t.form x
  program : (t.form parent).IsProgram → (t'.form parent).IsProgram
  swapped : Form.Swapped old new (t.children parent) (t'.children parent)

namespace Exchanged

variable (exchanged : t.Exchanged t' parent old new)

include exchanged

theorem others {x : NodeId} (other : x ≠ parent) : t'.children x = t.children x := by
  rw [children, exchanged.forms x other]
  rfl

theorem held (held : t.Held) : t'.Held := by
  intro child id link
  obtain ⟨before, after, before', after'⟩ := exchanged.swapped
  rw [exchanged.parent?] at link
  split at link
  · rename_i here
    rw [← Option.some.inj link, after', here]
    simp
  split at link
  · cases link
  rename_i other other'
  have slot := held child id link
  by_cases here : id = parent
  · rw [here, before'] at slot
    rw [here, after']
    simp only [mem_append, mem_cons] at slot ⊢
    exact slot.imp_right fun slot => .inr (slot.resolve_left other')
  · rwa [exchanged.others here]

/-- Nodes that hold each other but for the old node, which only its own holder holds, make up the new tree. -/
theorem rooted_of_closed (held : t.Held) (top : t.parent? root = none) (inside : root.index < t.size)
    (different : root ≠ new) (good : NodeId → Prop) (start : good root) (also : good new)
    (linked : ∀ x, good x → ∀ child ∈ t.children x, child ≠ old → t.parent? child = some x ∧ good child ∧ child ≠ new)
    (distinct : ∀ x, good x → (t.children x).Nodup) (only : ∀ x, good x → old ∈ t.children x → x = parent)
    (apart : new ≠ old) : t'.Rooted root := by
  obtain ⟨before, after, before', after'⟩ := exchanged.swapped
  refine .of_closed (exchanged.held held) ?_ (exchanged.size ▸ inside) good start ?_ ?_
  · rw [exchanged.parent?, if_neg different, top]
    exact ite_self _
  · intro x reached child slot
    by_cases here : x = parent
    · subst here
      have nodup := distinct x reached
      rw [before'] at nodup
      have absent := (nodup_cons.mp (nodup_middle.mp nodup)).1
      rw [after'] at slot
      rw [exchanged.parent?]
      by_cases fresh : child = new
      · rw [if_pos fresh]
        exact ⟨rfl, fresh ▸ also⟩
      have rest : child ∈ before ++ after := by
        simp only [mem_append, mem_cons] at slot ⊢
        exact slot.imp_right fun slot => slot.resolve_left fresh
      have other : child ≠ old := fun same => absent (same ▸ rest)
      have slot : child ∈ t.children x := by
        rw [before']
        simp only [mem_append, mem_cons] at rest ⊢
        exact rest.imp_right .inr
      obtain ⟨link, reached, -⟩ := linked x reached child slot other
      rw [if_neg fresh, if_neg other]
      exact ⟨link, reached⟩
    · rw [exchanged.others here] at slot
      have other : child ≠ old := fun same => here (only x reached (same ▸ slot))
      obtain ⟨link, good, fresh⟩ := linked x reached child slot other
      rw [exchanged.parent?, if_neg fresh, if_neg other]
      exact ⟨link, good⟩
  · intro x reached
    by_cases here : x = parent
    · have nodup := distinct x reached
      rw [here] at nodup reached ⊢
      rw [before'] at nodup
      rw [after']
      refine nodup_middle.mpr (nodup_cons.mpr ⟨fun member => ?_, ?_⟩)
      · have slot : new ∈ t.children parent := by
          rw [before']
          simp only [mem_append, mem_cons] at member ⊢
          exact member.imp_right .inr
        exact (linked parent reached new slot apart).2.2 rfl
      · exact (nodup_cons.mp (nodup_middle.mp nodup)).2
    · rw [exchanged.others here]
      exact distinct x reached

theorem rooted (held : t.Held) (rooted : t.Rooted root) (loose : t.Rooted new) (different : root ≠ new) :
    t'.Rooted root := by
  have apart : new ≠ old := (ne_of_link exchanged.link loose.top).symm
  refine exchanged.rooted_of_closed held rooted.top rooted.inside different
    (fun x => (t.Below root x ∧ ¬ t.Below old x) ∨ t.Below new x)
    (.inl ⟨.refl root, fun beneath => ne_of_link exchanged.link rooted.top (beneath.eq_of_top rooted.top).symm⟩)
    (.inr (.refl new)) ?_ ?_ ?_ apart
  · rintro x (⟨below, above⟩ | under) child slot other
    · have link := rooted.linked below slot
      exact ⟨link, .inl ⟨.link link below, fun beneath => above (beneath.holder link other)⟩, ne_of_link link loose.top⟩
    · have link := loose.linked under slot
      exact ⟨link, .inr (.link link under), ne_of_link link loose.top⟩
  · rintro x (⟨below, -⟩ | under)
    · exact (rooted.tidy x below).distinct
    · exact (loose.tidy x under).distinct
  · rintro x (⟨below, -⟩ | under) slot
    · exact Option.some.inj ((rooted.linked below slot).symm.trans exchanged.link)
    · exact Option.some.inj ((loose.linked under slot).symm.trans exchanged.link)

theorem rooted_old (held : t.Held) (rooted : t.Rooted root) (below : t.Below root old)
    (loose : t.parent? new = none) (apart : new ≠ old) : t'.Rooted old := by
  refine rooted.cut below exchanged.link (exchanged.held held) exchanged.size ?_ (fun _ => exchanged.others)
    fun x p link other => ?_
  · rw [exchanged.parent?, if_neg apart.symm, if_pos rfl]
  · rw [exchanged.parent?, if_neg (ne_of_link link loose), if_neg other, link]

/-- A part of a node takes the place of that node. -/
theorem rooted_inner (held : t.Held) (rooted : t.Rooted root) (below : t.Below root old)
    (inner : t.parent? new = some old) : t'.Rooted root := by
  have lower : t.Below root new := .link inner below
  have notAbove : ¬ t.Below new old := not_below_of_link rooted.top lower inner
  have different {x p : NodeId} (link : t.parent? x = some p) : root ≠ x :=
    (ne_of_link link rooted.top).symm
  refine exchanged.rooted_of_closed held rooted.top rooted.inside (different inner)
    (fun x => t.Below root x ∧ (t.Below old x → t.Below new x)) ⟨.refl root, fun beneath => ?_⟩
    ⟨lower, fun _ => .refl new⟩ ?_ (fun x good => (rooted.tidy x good.1).distinct) ?_ ?_
  · exact absurd (beneath.eq_of_top rooted.top) (different exchanged.link)
  · rintro x ⟨above, inside⟩ child slot other
    have link := rooted.linked above slot
    refine ⟨link, ⟨.link link above, fun beneath => .link link (inside (beneath.holder link other))⟩, ?_⟩
    rintro rfl
    obtain rfl := Option.some.inj (link.symm.trans inner)
    exact notAbove (inside (.refl x))
  · rintro x ⟨above, -⟩ slot
    exact Option.some.inj ((rooted.linked above slot).symm.trans exchanged.link)
  · rintro rfl
    exact notAbove (.refl new)

theorem rooted_other (held : t.Held) (rooted : t.Rooted root) (outside : ¬ t.Below root parent)
    (apart : ¬ t.Below root new) : t'.Rooted root := by
  refine rooted.frame (exchanged.held held) exchanged.size.ge fun x below => ⟨?_, ?_⟩
  · exact exchanged.others fun here => outside (here ▸ below)
  · have fresh : x ≠ new := fun same => apart (same ▸ below)
    rw [exchanged.parent?, if_neg fresh, if_neg]
    rintro rfl
    exact outside (below.holder exchanged.link (ne_of_link exchanged.link rooted.top))

theorem isProgram (program : (t.form root).IsProgram) : (t'.form root).IsProgram := by
  by_cases here : root = parent
  · exact here ▸ exchanged.program (here ▸ program)
  · rwa [exchanged.forms root here]

theorem below {x : NodeId} (below : t.Below root x) (outside : ¬ t.Below old x) (apart : ¬ t.Below new x) :
    t'.Below root x := by
  refine below.kept fun y _ beneath _ => ?_
  rw [exchanged.parent?, if_neg, if_neg]
  · rintro rfl
    exact outside beneath
  · rintro rfl
    exact apart beneath

end Exchanged

/-- The node has the form with the new child, and a concise body stays one only if that is an expression. The list that
the new child stood in may be shorter. -/
structure Refitted (t t' : Tree) (form : Form NodeId) (parent old new : NodeId) : Prop where
  size : t'.size = t.size
  parent? : ∀ x, t'.parent? x = ((t.setParent old none).setParent new (some parent)).parent? x
  here : t'.form parent = if (t.form new).isExpression then form else form.notConcise
  others : ∀ x ≠ parent, t'.form x = t.form x ∨
    t.parent? new = some x ∧ ∃ kept, t'.form x = (t.form x).withStatements kept

theorem replaceChild?_refitted (done : t.replaceChild? parent old new = some t') :
    ∃ form, (t.form parent).exchange old new = some form ∧ t.Refitted t' form parent old new := by
  unfold replaceChild? at done
  simp only [bind_eq_bind, bind_eq_some_iff, setParent_form] at done
  obtain ⟨form, exchange, done⟩ := done
  have holder : parent.index < t.size := index_lt_of_form fun empty => by cases empty ▸ exchange
  refine ⟨form, exchange, ?_⟩
  have linked (t1 : Tree) (size : t1.size = t.size) (links : ∀ x, t1.parent? x = t.parent? x)
      (here : t1.form parent = form) (others : ∀ x ≠ parent, t1.form x = t.form x ∨
        t.parent? new = some x ∧ ∃ kept, t1.form x = (t.form x).withStatements kept)
      (done : (if (t1.form new).isExpression then some ((t1.setParent old none).setParent new (some parent))
        else some (((t1.setParent old none).setParent new (some parent)).modifyForm parent Form.notConcise)) = some t') :
      t.Refitted t' form parent old new := by
    -- Neither the exchange nor the way out of a list makes a statement of an expression.
    have same : (t1.form new).isExpression = (t.form new).isExpression := by
      by_cases loop : new = parent
      · rw [loop, here, ← Form.isExpression_shape form, (Form.exchange_puts _ _ exchange).2, Form.isExpression_shape]
      · rcases others new loop with same | ⟨-, kept, same⟩
        · rw [same]
        · rw [same, Form.isExpression_withStatements]
    rw [same] at done
    split at done
    · cases done
      exact ⟨by simp [size], by simp [setParent_parent?, links, size], by simp [*], by simpa using others⟩
    · cases done
      refine ⟨by simp [size], by simp [setParent_parent?, links, size], by simp [modifyForm_form, *], fun x other => ?_⟩
      simpa [modifyForm_form, other] using others x other
  have here : (t.modifyForm parent fun _ => form).form parent = form := by simp [modifyForm_form, holder]
  have others (x : NodeId) (other : x ≠ parent) : (t.modifyForm parent fun _ => form).form x = t.form x := by
    simp [modifyForm_form, other]
  have stays := linked _ (by simp) (by simp) here fun x other => .inl (others x other)
  split at done
  · rename_i previous stood
    split at done
    · rename_i other
      have other : parent ≠ previous := fun same => by simp [same] at other
      refine linked _ (by simp [detachFrom_size]) (by simp [detachFrom_parent?])
        (by rw [detachFrom_form, if_neg other, here]) (fun x away => ?_) done
      rw [detachFrom_form]
      split
      · rename_i left
        exact .inr ⟨by simpa [left] using stood, _, by rw [others x away]⟩
      · exact .inl (others x away)
    · exact stays done
  · exact stays done

theorem replaceChild?_cases (done : t.replaceChild? parent old new = some t') :
    ∃ form, (t.form parent).exchange old new = some form ∧
      (t'.form parent = form ∨ t'.form parent = form.notConcise) := by
  obtain ⟨form, exchange, refitted⟩ := replaceChild?_refitted done
  exact ⟨form, exchange, refitted.here ▸ ite_eq_or_eq _ _ _⟩

theorem replaceChild?_eq_none : t.replaceChild? parent old new = none ↔ old ∉ t.children parent := by
  have slots : (t.form parent).exchange old new = none ↔ old ∉ t.children parent := Form.exchange_eq_none _
  rw [← slots, replaceChild?]
  cases (t.form parent).exchange old new with
  | none => simp
  | some form =>
    simp only [bind_eq_bind, bind_some]
    rw [← apply_ite some]
    simp

/-- A child can be replaced exactly where it is held. The first slot that holds it gets the new child, and the rest of
the node is as it was, but for a concise body that comes to hold a statement. -/
theorem replaceChild?_slots (t : Tree) (parent old new : NodeId) :
    ((t.replaceChild? parent old new).isSome = true ↔ old ∈ t.children parent) ∧
      ∀ t', t.replaceChild? parent old new = some t' →
        t'.children parent = (t.children parent).replace old new ∧
          (t'.form parent).shape =
            (if (t.form new).isExpression then t.form parent else (t.form parent).notConcise).shape := by
  refine ⟨by rw [isSome_iff_ne_none, Ne, replaceChild?_eq_none, not_not], fun t' done => ?_⟩
  obtain ⟨form, exchange, refitted⟩ := replaceChild?_refitted done
  obtain ⟨slots, shape⟩ := Form.exchange_puts _ _ exchange
  rw [children, refitted.here]
  split
  · exact ⟨slots, shape⟩
  · exact ⟨(Form.notConcise_children form).trans slots, by rw [Form.notConcise_shape, shape, ← Form.notConcise_shape]⟩

/-- The first of two elements that are the same node is replaced, and the body is concise no more. -/
theorem replaceChild?_slots_body :
    let t : Tree := { nodes := #[{ form := .block [⟨1⟩, ⟨1⟩] none true }, { form := .this }, { form := .debugger }] }
    ∃ t', t.replaceChild? ⟨0⟩ ⟨1⟩ ⟨2⟩ = some t' ∧ t'.children ⟨0⟩ = [⟨2⟩, ⟨1⟩] ∧
      (t'.form ⟨0⟩).shape = .block [(), ()] none false := by
  intro t
  obtain ⟨possible, slots⟩ := t.replaceChild?_slots ⟨0⟩ ⟨1⟩ ⟨2⟩
  obtain ⟨t', done⟩ := isSome_iff_exists.1 (possible.2 (by decide))
  exact ⟨t', done, slots t' done⟩

/-- A node that stands in no statement list takes the place of another. -/
theorem replaceChild?_exchanged (done : t.replaceChild? parent old new = some t')
    (link : t.parent? old = some parent) (inside : new.index < t.size)
    (plain : ∀ holder, t.parent? new = some holder → (t.form holder).statementList? = none) :
    t.Exchanged t' parent old new := by
  obtain ⟨form, exchange, refitted⟩ := replaceChild?_refitted done
  refine ⟨refitted.size, link, fun x => ?_, fun x other => ?_, fun program => ?_, ?_⟩
  · simp only [refitted.parent?, setParent_parent?, setParent_size, inside, and_true, t.index_lt_of_parent? link]
  · rcases refitted.others x other with same | ⟨stood, kept, same⟩
    · exact same
    · rw [same, Form.withStatements_of_none (plain x stood)]
  · rw [refitted.here]
    split
    · exact program.exchange exchange
    · exact (program.exchange exchange).notConcise
  · have slots : t'.children parent = form.children := by
      rw [children, refitted.here]
      split
      · rfl
      · exact Form.notConcise_children form
    exact slots ▸ Form.exchange_swapped exchange

theorem replace?_exchanged (held : t.Held) (link : t.parent? old = some parent) (inside : new.index < t.size)
    (plain : ∀ holder, t.parent? new = some holder → (t.form holder).statementList? = none) :
    ∃ t', t.replace? old new = some t' ∧ t.Exchanged t' parent old new := by
  have possible : t.replaceChild? parent old new ≠ none := mt replaceChild?_eq_none.1 (not_not_intro (held old parent link))
  obtain ⟨t', done⟩ := ne_none_iff_exists'.mp possible
  exact ⟨t', by simp [replace?, link, done], replaceChild?_exchanged done link inside plain⟩

/-- New nodes took over nodes of a store and each other; one of them, `new`, is held by none. -/
structure Built (t t' : Tree) (parts : List NodeId) (new : NodeId) : Prop where
  size : t.size ≤ t'.size
  held : t'.Held
  forms : ∀ x, x.index < t.size → t'.form x = t.form x
  kept : ∀ x, x.index < t.size → x ∉ parts → t'.parent? x = t.parent? x
  tidy : ∀ x, t.size ≤ x.index → t'.Tidy x
  made : ∀ x, t.size ≤ x.index → ∀ child ∈ t'.children x, t.size ≤ child.index ∨ child ∈ parts
  fresh : t.size ≤ new.index
  inside : new.index < t'.size
  top : t'.parent? new = none

theorem Built.alloc (held : t.Held) (form : Form NodeId) (span : Span) (distinct : form.children.Nodup)
    (inside : ∀ child ∈ form.children, child.index < t.size) :
    t.Built (t.alloc form span).2 form.children ⟨t.size⟩ := by
  have beyond {x : NodeId} (outside : t.size ≤ x.index) :
      (t.alloc form span).2.children x = if x = ⟨t.size⟩ then form.children else [] := by
    rw [alloc_children, t.children_eq_nil_of_size_le outside]
  refine ⟨by simp, held.alloc form span, fun x range => ?_, fun x _ other => ?_, fun x outside => ?_,
    fun x outside child slot => ?_, .refl, by simp, ?_⟩
  · rw [alloc_form, if_neg (ne_of_fresh range .refl)]
  · rw [alloc_parent?, if_neg fun taken => other taken.1]
  · refine ⟨fun child slot => ?_, ?_⟩
    · rw [beyond outside] at slot
      split at slot
      · rename_i here
        rw [alloc_parent?, if_pos ⟨slot, inside child slot⟩, here]
      · cases slot
    · rw [beyond outside]
      split
      · exact distinct
      · exact nodup_nil
  · rw [beyond outside] at slot
    split at slot
    · exact .inr slot
    · cases slot
  · rw [alloc_parent?, if_neg fun taken => lt_irrefl _ taken.2]
    exact t.parent?_eq_none_of_size_le .refl

/-- The new node is taken over by one more. -/
theorem Built.around {parts : List NodeId} (built : t.Built t' parts new) {form : Form NodeId}
    (span : Span) (only : form.children = [new]) : t.Built (t'.alloc form span).2 parts ⟨t'.size⟩ := by
  have taken (x : NodeId) : (t'.alloc form span).2.parent? x = if x = new then some ⟨t'.size⟩ else t'.parent? x := by
    rw [alloc_parent?, only]
    by_cases here : x = new
    · simp [here, built.inside]
    · simp [here]
  have last : (⟨t'.size⟩ : NodeId) ≠ new := by
    rintro rfl
    exact built.inside.false
  refine ⟨built.size.trans (by simp), built.held.alloc form span, fun x range => ?_,
    fun x range other => ?_, fun x outside => ?_, fun x outside child slot => ?_, built.size, by simp, ?_⟩
  · rw [alloc_form, if_neg (ne_of_fresh range built.size), built.forms x range]
  · rw [taken, if_neg (ne_of_fresh range built.fresh), built.kept x range other]
  · refine ⟨fun child slot => ?_, ?_⟩
    · rw [alloc_children] at slot
      rw [taken]
      split at slot
      · rename_i here
        rw [only, mem_singleton] at slot
        rw [if_pos slot, here]
      · have link := (built.tidy x outside).linked child slot
        rw [if_neg (ne_of_link link built.top), link]
    · rw [alloc_children]
      split
      · rw [only]
        exact nodup_singleton _
      · exact (built.tidy x outside).distinct
  · rw [alloc_children] at slot
    split at slot
    · rw [only, mem_singleton] at slot
      exact .inl (slot ▸ built.fresh)
    · exact built.made x outside child slot
  · rw [taken, if_neg last]
    exact t'.parent?_eq_none_of_size_le .refl

/-- A node that was built from parts of another takes its place. -/
theorem Built.rooted {t'' : Tree} {parts : List NodeId} (built : t.Built t' parts new)
    (exchanged : t'.Exchanged t'' parent old new) (rooted : t.Rooted root) (below : t.Below root old)
    (inner : ∀ part ∈ parts, t.Below old part ∧ part ≠ old)
    (apart : ∀ part ∈ parts, ∀ other ∈ parts, t.Below part other → part = other) : t''.Rooted root := by
  have live {part : NodeId} (member : part ∈ parts) : t.Below root part := below.trans (inner part member).1
  have old' : old.index < t.size := rooted.index_lt below
  have notRoot : root ∉ parts := fun member =>
    (inner root member).2 ((inner root member).1.eq_of_top rooted.top)
  have notOld : old ∉ parts := fun member => (inner old member).2 rfl
  have children {x : NodeId} (range : x.index < t.size) : t'.children x = t.children x := by
    rw [Tree.children, built.forms x range]
    rfl
  have newer {x : NodeId} (range : x.index < t.size) : x ≠ new := ne_of_fresh range built.fresh
  have start : ¬ t.Below old root := fun beneath =>
    ne_of_link (built.kept old old' notOld ▸ exchanged.link) rooted.top (beneath.eq_of_top rooted.top).symm
  refine exchanged.rooted_of_closed built.held ?_ (rooted.inside.trans_le built.size) (newer rooted.inside)
    (fun x => t.size ≤ x.index ∨ t.Below root x ∧ (t.Below old x → ∃ part ∈ parts, t.Below part x))
    (.inr ⟨.refl root, fun beneath => absurd beneath start⟩) (.inl built.fresh) ?_ ?_ ?_ (newer old').symm
  · rw [built.kept root rooted.inside notRoot, rooted.top]
  · rintro x (fresh | ⟨above, inside⟩) child slot other
    · have link := (built.tidy x fresh).linked child slot
      refine ⟨link, ?_, ?_⟩
      · rcases built.made x fresh child slot with fresh | member
        · exact .inl fresh
        · exact .inr ⟨live member, fun _ => ⟨child, member, .refl child⟩⟩
      · exact ne_of_link link built.top
    · rw [children (rooted.index_lt above)] at slot
      have link := rooted.linked above slot
      have lower : t.Below root child := .link link above
      -- A part that is still held where it was would be below another part.
      have taken : child ∉ parts := by
        intro member
        obtain ⟨part, member', over'⟩ := inside ((inner child member).1.holder link other)
        obtain rfl := apart part member' child member (.link link over')
        exact not_below_of_link rooted.top lower link over'
      rw [built.kept child (rooted.index_lt lower) taken]
      refine ⟨link, .inr ⟨lower, fun beneath => ?_⟩, newer (rooted.index_lt lower)⟩
      obtain ⟨part, member, beneath⟩ := inside (beneath.holder link other)
      exact ⟨part, member, .link link beneath⟩
  · rintro x (fresh | ⟨above, -⟩)
    · exact (built.tidy x fresh).distinct
    · rw [children (rooted.index_lt above)]
      exact (rooted.tidy x above).distinct
  · rintro x (fresh | ⟨above, -⟩) slot
    · rcases built.made x fresh old slot with fresh | member
      · exact absurd fresh old'.not_ge
      · exact absurd member notOld
    · rw [children (rooted.index_lt above)] at slot
      have link := exchanged.link
      rw [built.kept old old' notOld, rooted.linked above slot] at link
      exact Option.some.inj link

end Tree

end Condense
