import Condense.Proofs.Meaning.Exchange

/-!
Combination keeps the meaning of a program: every event happens when it happened before, and the program ends as it
did.
-/

attribute [local simp] Condense.Form.children

namespace Condense

open List

variable {form : Form NodeId} {view : View} {first second list x new : NodeId}

namespace Effect

variable {V : Type} (w : World V)

theorem branch_skip (condition : Evaluation V) : branch w condition skip skip = perform condition := by
  funext trace
  exact ite_self _

theorem branch_perform (condition consequent : Evaluation V) :
    branch w condition (perform consequent) skip = perform (.conjunction w condition consequent) := by
  funext trace
  unfold branch perform Evaluation.conjunction
  split <;> rfl

theorem branch_perform_perform (condition consequent alternate : Evaluation V) :
    branch w condition (perform consequent) (perform alternate) =
      perform (.choice w condition consequent alternate) := by
  funext trace
  unfold branch perform Evaluation.choice
  split <;> rfl

theorem branch_endWith (build : Value V → Completion V) (condition consequent alternate : Evaluation V) :
    branch w condition (endWith build consequent) (endWith build alternate) =
      endWith build (.choice w condition consequent alternate) := by
  funext trace
  unfold branch endWith Evaluation.choice
  split <;> rfl

end Effect

namespace Combine

open Condense.Tree

variable {V : Type} {w : World V} {t t' : Tree} {root id : NodeId} {e e' : Effect V}

theorem isExpression_of_isPlain (plain : isPlain form) : form.isExpression := by
  unfold isPlain at plain
  split at plain
  · cases plain
  · exact plain

theorem means_of_isEmptyStatement (empty : isEmptyStatement (t.form id))
    (means : t.Means view w id e) : e = .skip := by
  unfold isEmptyStatement at empty
  split at empty
  · rename_i form
    exact means.unique (.empty form)
  · rename_i statements form
    obtain ⟨effects, length, -, rfl⟩ := means.of_list (show _ = some statements by rw [form]; rfl)
    obtain rfl : statements = [] := by simpa using empty
    obtain rfl : effects = [] := length_eq_zero_iff.mp length.symm
    rfl
  · cases empty

/-- The only statement of a block does what the block does. -/
theorem means_of_singleStatement? {only : NodeId}
    (single : t.singleStatement? id = some only) (means : t.Means view w id e) : t.Means view w only e := by
  unfold singleStatement? at single
  split at single
  · rename_i statement form
    obtain rfl := Option.some.inj single
    obtain ⟨effects, length, inside, rfl⟩ := means.of_list (show _ = some [statement] by rw [form]; rfl)
    obtain ⟨effect, rfl⟩ := length_eq_one_iff.mp length.symm
    rw [Effect.sequence_singleton]
    exact inside statement effect (by simp)
  · cases single
  · exact Option.some.inj single ▸ means

/-- What takes the place of an `if` does what the `if` did. -/
theorem Replaces.means {grown : Tree} (proper : t.Proper root) (live : t.Below root id) (replaces : Replaces t id new grown)
    (made : ∀ x, t.size ≤ x.index → t'.form x = grown.form x) (inside : ∀ y, t.Below id y → KeepsMeaning .operators w t t' y)
    (means : t.Means .operators w id e) : t'.Means .operators w new e := by
  have lower {child : NodeId} (slot : child ∈ t.children id) : t.Below id child :=
    (proper.rooted.child_below live slot).1
  have inner {child only : NodeId} (slot : child ∈ t.children id) (single : t.singleStatement? child = some only) :
      t.Below id only :=
    (lower slot).trans (singleStatement?_exposed proper.rooted (live.trans (lower slot)) single).beneath
  have returned {child only value : NodeId} (slot : child ∈ t.children id) (single : t.singleStatement? child = some only)
      (form : t.form only = .returnStatement (some value)) : t.Below id value :=
    (inner slot single).trans (proper.rooted.child_below (live.trans (inner slot single)) (by simp [form])).1
  have kept {y : NodeId} {v : Evaluation V} (under : t.Below id y) (value : t.Evaluates .operators w y v) :=
    (inside y under).evaluates v value
  cases replaces with
  | condition form empty =>
    obtain ⟨c, yes, test, first, rfl⟩ := means.of_branch form
    rw [means_of_isEmptyStatement empty first, Effect.branch_skip]
    exact .expression (kept (lower (by simp [form])) test)
  | @conjunction condition consequent yes form single plain =>
    have new : t'.form ⟨t.size⟩ = .binary .and condition yes := by
      rw [made ⟨t.size⟩ .refl, alloc_form, if_pos rfl]
    obtain ⟨c, e, test, first, rfl⟩ := means.of_branch form
    obtain ⟨v, value, rfl⟩ := (means_of_singleStatement? single first).of_expression (isExpression_of_isPlain plain)
    rw [Effect.branch_perform]
    exact .expression (.conjunction new (by rw [new]; rfl) (kept (lower (by simp [form])) test)
      (kept (inner (by simp [form]) single) value))
  | @choice condition consequent alternate yes no form single single' plain plain' =>
    have new : t'.form ⟨t.size⟩ = .conditional condition yes no := by
      rw [made ⟨t.size⟩ .refl, alloc_form, if_pos rfl]
    obtain ⟨c, e, e', test, first, second, rfl⟩ := means.of_branches form
    obtain ⟨v, value, rfl⟩ := (means_of_singleStatement? single first).of_expression (isExpression_of_isPlain plain)
    obtain ⟨v', value', rfl⟩ := (means_of_singleStatement? single' second).of_expression (isExpression_of_isPlain plain')
    rw [Effect.branch_perform_perform]
    exact .expression (.choice new (by rw [new]; rfl) (kept (lower (by simp [form])) test)
      (kept (inner (by simp [form]) single) value) (kept (inner (by simp [form]) single') value'))
  | @returns condition consequent alternate yes no y n form single single' returns returns' =>
    generalize grows : (t.alloc (.conditional condition y n) (t.span id)).2 = middle at made
    have size : middle.size = t.size + 1 := by simp [← grows]
    have outer : t'.form ⟨middle.size⟩ = .returnStatement (some ⟨t.size⟩) := by
      rw [made ⟨middle.size⟩ (by simp [size]), alloc_form, if_pos rfl]
    have new : t'.form ⟨t.size⟩ = .conditional condition y n := by
      rw [made ⟨t.size⟩ .refl, alloc_form, if_neg (by simp [size]), ← grows, alloc_form, if_pos rfl]
    obtain ⟨c, e, e', test, first, second, rfl⟩ := means.of_branches form
    obtain ⟨v, value, rfl⟩ := (means_of_singleStatement? single first).of_returnValue returns
    obtain ⟨v', value', rfl⟩ := (means_of_singleStatement? single' second).of_returnValue returns'
    rw [Effect.branch_endWith]
    exact .returnValue outer (.choice new (by rw [new]; rfl) (kept (lower (by simp [form])) test)
      (kept (returned (by simp [form]) single returns) value) (kept (returned (by simp [form]) single' returns') value'))

theorem convertIf_refines (settings : Settings) (proper : t.Proper root) (live : t.Below root id) :
    Refines .operators t (convertIf settings t id).tree root := by
  unfold convertIf
  split
  · rename_i new grown found
    have replaces := replacement?_replaces found
    obtain ⟨branch, parts, -⟩ := replaces.cases proper live
    have result : (Changed.ofOption grown (grown.replace? id new)).tree = grown.replaceIfHeld id new := by
      unfold replaceIfHeld
      cases grown.replace? id new <;> rfl
    rw [result]
    exact proper.replace_refines live branch parts fun w t' made inside e means =>
      replaces.means proper live made inside means
  · exact .refl proper

theorem exists_neighbours {α : Type} {xs : List α} {index : Nat} {first second : α} (found : xs[index]? = some first)
    (found' : xs[index + 1]? = some second) : ∃ before after, xs = before ++ first :: second :: after ∧
      xs.eraseIdx (index + 1) = before ++ first :: after ∧ before.length = index := by
  induction index generalizing xs with
  | zero =>
    match xs, found, found' with
    | _ :: _ :: after, rfl, rfl => exact ⟨[], after, rfl, rfl, rfl⟩
  | succ index ih =>
    cases xs with
    | nil => cases found
    | cons x xs =>
      obtain ⟨before, after, rfl, rest, place⟩ := ih found found'
      exact ⟨x :: before, after, rfl, congrArg (x :: ·) rest, congrArg Nat.succ place⟩

/-- A list keeps its meaning if one statement does what two neighbours did. -/
theorem keeps_of_joined {joined : NodeId} {before after : List NodeId}
    (isList : (t.form x).statementList? = some (before ++ first :: second :: after))
    (relisted : t.Relisted t' x (before ++ joined :: after)) (distinct : (t.children x).Nodup)
    (inside : ∀ child ∈ t.children x, child ≠ first → child ≠ second → KeepsMeaning view w t t' child)
    (same : ∀ e e', t.Means view w first e → t.Means view w second e' → t'.Means view w joined (e.andThen e')) :
    KeepsMeaning view w t t' x := by
  have slots := sublist_of_list isList
  have apart : ∀ s ∈ before ++ after, s ≠ first ∧ s ≠ second := by
    intro s member
    have nodup' := nodup_cons.mp (nodup_middle.mp (distinct.sublist slots))
    have nodup'' := nodup_cons.mp (nodup_middle.mp nodup'.2)
    constructor
    · rintro rfl
      exact nodup'.1 (by simp only [mem_append, mem_cons] at member ⊢; tauto)
    · rintro rfl
      exact nodup''.1 member
  have kept {s : NodeId} (member : s ∈ before ++ after) : KeepsMeaning view w t t' s :=
    inside s (slots.subset (by simp only [mem_append, mem_cons] at member ⊢; tauto)) (apart s member).1 (apart s member).2
  refine .of_relisted isList relisted distinct (fun child slot other => ?_) fun effects length means => ?_
  · refine inside child slot ?_ ?_ <;> rintro rfl <;> simp at other
  · obtain ⟨start, rest, rfl, start_length⟩ : ∃ start rest, effects = start ++ rest ∧ before.length = start.length :=
      ⟨effects.take before.length, effects.drop before.length, (take_append_drop _ _).symm, by
        simp [← length]⟩
    match rest with
    | [] | [_] => simp at length; omega
    | e :: e' :: rest =>
      simp only [zip_append start_length, zip_cons_cons, mem_append, mem_cons] at means
      refine ⟨start ++ e.andThen e' :: rest, ?_, fun s effect member => ?_, ?_⟩
      · simp at length ⊢
        omega
      · simp only [zip_append start_length, zip_cons_cons, mem_append, mem_cons] at member
        rcases member with member | member | member
        · exact (kept (mem_append_left _ (of_mem_zip member).1)).means _ (means _ _ (.inl member))
        · cases member
          exact same e e' (means first e (by simp)) (means second e' (by simp))
        · exact (kept (mem_append_right _ (of_mem_zip member).1)).means _ (means _ _ (.inr (.inr (.inr member))))
      · simp [Effect.sequence_append, Effect.andThen_assoc]

/-- A new node stands where `old` stood. -/
structure Placed (t t' : Tree) (root holder old new : NodeId) (form : Form NodeId) : Prop where
  proper : t'.Proper root
  size : t.size ≤ t'.size
  fresh : t.size ≤ new.index
  link : t'.parent? new = some holder
  links : ∀ x, x.index < t.size → x ≠ old → x ∉ form.children → t'.parent? x = t.parent? x
  forms : ∀ x, x ≠ holder → t'.form x = if x = new then form else t.form x
  live : ∀ x, t.Below root x → ¬ t.Below old x → t'.Below root x
  relisted : ∀ statements, (t.form holder).statementList? = some statements → old ∈ statements →
    ∃ statements', Form.Swapped old new statements statements' ∧ t.Relisted t' holder statements'

/-- A new node around trees that hang nowhere takes the place of a node. That node hangs nowhere then, and neither
does what the new node does not hold. -/
theorem placed {holder old : NodeId} (form : Form NodeId) (span : Span) (proper : t.Proper root)
    (above : t.Below root holder) (link : t.parent? old = some holder) (distinct : form.children.Nodup)
    (loose : ∀ child ∈ form.children, t.Rooted child ∧ child ≠ root) :
    Placed t ((t.alloc form span).2.replaceIfHeld old ⟨t.size⟩) root holder old ⟨t.size⟩ form ∧
      ((t.alloc form span).2.replaceIfHeld old ⟨t.size⟩).Rooted old ∧
      ∀ x, t.Rooted x → x ≠ root → x ∉ form.children →
        ((t.alloc form span).2.replaceIfHeld old ⟨t.size⟩).Rooted x := by
  have outside {child : NodeId} (member : child ∈ form.children) : ¬ t.Below root child := fun live =>
    (loose child member).2 (proper.rooted.apart (loose child member).1 live (.refl child)).symm
  have grown : (t.alloc form span).2.Proper root := proper.alloc span fun child member => outside member
  have made : (t.alloc form span).2.Rooted ⟨t.size⟩ :=
    proper.held.rooted_alloc span distinct fun child member => (loose child member).1
  have known {x : NodeId} (range : x.index < t.size) : x ≠ ⟨t.size⟩ := ne_of_fresh range .refl
  have stays {x : NodeId} (live : t.Below root x) : (t.alloc form span).2.Below root x :=
    live.kept fun y live _ _ => by rw [alloc_parent?, if_neg fun taken => outside taken.1 live]
  have apart {x : NodeId} (live : t.Below root x) : ¬ (t.alloc form span).2.Below ⟨t.size⟩ x := fun beneath =>
    known proper.rooted.inside (grown.rooted.apart made (stays live) beneath)
  have below : t.Below root old := .link link above
  have link' : (t.alloc form span).2.parent? old = some holder := by
    rw [alloc_parent?, if_neg fun taken => outside taken.1 below, link]
  have same : (t.alloc form span).2.form holder = t.form holder := by
    rw [alloc_form, if_neg (known (proper.rooted.index_lt above))]
  obtain ⟨t', done, exchanged⟩ := replace?_exchanged grown.held link' made.inside fun holder held => by
    rw [made.top] at held
    cases held
  rw [replaceIfHeld, done, Option.getD_some]
  refine ⟨⟨⟨?_, exchanged.held grown.held, exchanged.isProgram grown.program⟩, ?_, .refl, ?_,
    fun x range other free => ?_, fun x other => ?_, fun x live under => ?_, fun statements isList member => ?_⟩,
    ?_, fun x rooted different free => ?_⟩
  · exact exchanged.rooted grown.held grown.rooted made (known proper.rooted.inside)
  · simp [exchanged.size]
  · rw [exchanged.parent?, if_pos rfl]
  · rw [exchanged.parent?, if_neg (known range), if_neg other, alloc_parent?, if_neg fun taken => free taken.1]
  · rw [exchanged.forms x other, alloc_form]
  · refine exchanged.below (stays live) (fun beneath => under (beneath.kept fun y _ lower _ => ?_)) (apart live)
    rw [alloc_parent?, if_neg]
    intro taken
    exact apart live (.trans (.link (by rw [alloc_parent?, if_pos taken]) (.refl _)) lower)
  · obtain ⟨statements', swapped, relisted⟩ := replaceChild?_relisted (same ▸ isList) member
      (grown.rooted.tidy holder (stays above)).distinct (by simpa [replace?, link'] using done)
    unfold Relisted at relisted ⊢
    exact ⟨statements', swapped, same ▸ relisted⟩
  · exact exchanged.rooted_old grown.held grown.rooted (stays below) made.top (known (proper.rooted.index_lt below)).symm
  · have rooted' := rooted.alloc proper.held span fun child member under => by
      rw [rooted.apart (loose child member).1 under (.refl child)] at free
      exact free member
    refine exchanged.rooted_other grown.held rooted' (fun beneath => ?_) fun beneath => ?_
    · exact different (grown.rooted.apart rooted' (stays above) beneath).symm
    · exact known rooted.inside (beneath.eq_of_top made.top).symm

/-- An expression of two statements takes the place of the first. An empty statement stands there in between. -/
theorem wrap_placed (op : BinaryOp) (proper : t.Proper root) (above : t.Below root list)
    (link : t.parent? first = some list) (loose : t.Rooted second) (apart : second ≠ root) :
    ∃ new, Placed t (t.wrap first fun left => .binary op left second) root list first new
      (.binary op first second) := by
  have below : t.Below root first := .link link above
  obtain ⟨hole, removed, others⟩ := placed .empty (t.span first) proper above link (by simp) (by simp)
  have separate : first ≠ second := by
    rintro rfl
    exact apart (proper.rooted.apart loose below (.refl first)).symm
  have live := hole.live list above (not_below_of_link proper.rooted.top below link)
  have old {x : NodeId} (range : x.index < t.size) : x ≠ ⟨t.size⟩ := ne_of_fresh range .refl
  obtain ⟨filled, -, -⟩ := placed (.binary op first second) (t.span first) hole.proper live hole.link
    (by simpa using separate) (by
      simp only [Form.children, mem_cons, not_mem_nil, or_false, forall_eq_or_imp, forall_eq]
      exact ⟨⟨removed, ne_of_link link proper.rooted.top⟩, others second loose apart (by simp), apart⟩)
  refine ⟨_, filled.proper, hole.size.trans filled.size, hole.size.trans filled.fresh, filled.link,
    fun x range other free => ?_, fun x other => ?_, fun x reached under => ?_, fun statements isList member => ?_⟩
  · exact (filled.links x (range.trans_le hole.size) (old range) free).trans (hole.links x range other (by simp))
  · refine (filled.forms x other).trans ?_
    rw [hole.forms x other]
    -- The placeholder is as empty as a node that does not exist.
    have empty : t.form ⟨t.size⟩ = .empty := t.form_eq_empty_of_size_le .refl
    by_cases here : x = ⟨t.size⟩ <;> simp [here, empty]
  · refine filled.live x (hole.live x reached under) fun beneath => old (proper.rooted.index_lt reached) ?_
    refine hole.proper.held.eq_of_leaf ?_ beneath
    rw [children, hole.forms _ (old (proper.rooted.index_lt above)).symm, if_pos rfl]
    rfl
  · obtain ⟨statements1, swapped, relisted⟩ := hole.relisted statements isList member
    obtain ⟨statements2, swapped', relisted'⟩ := filled.relisted statements1 (relisted.statementList? isList) (by
      obtain ⟨before, after, -, rfl⟩ := swapped
      simp)
    refine ⟨statements2, swapped.trans swapped' fun taken => ?_, relisted.trans relisted'⟩
    exact old (t.index_lt_of_parent? (proper.rooted.linked above ((sublist_of_list isList).subset taken))) rfl

theorem means_of_vars {kind : DeclarationKind} {head tail : List NodeId} (form : t.form first = .var kind head)
    (form' : t.form second = .var kind tail) (joined : t'.form first = .var kind (head ++ tail))
    (inside : ∀ d ∈ head ++ tail, KeepsMeaning .operators w t t' d) (means : t.Means .operators w first e)
    (means' : t.Means .operators w second e') : t'.Means .operators w first (e.andThen e') := by
  obtain ⟨effects, length, each, rfl⟩ := means.of_list (show _ = some head by rw [form]; rfl)
  obtain ⟨effects', length', each', rfl⟩ := means'.of_list (show _ = some tail by rw [form']; rfl)
  rw [← Effect.sequence_append]
  refine .list (show _ = some (head ++ tail) by rw [joined]; rfl) (by simp [length, length']) fun d effect member => ?_
  rw [zip_append length] at member
  refine (inside d ?_).means effect ?_
  · exact mem_append.mpr ((mem_append.mp member).imp (fun m => (of_mem_zip m).1) fun m =>
      (of_mem_zip m).1)
  · exact (mem_append.mp member).elim (each d effect) (each' d effect)

theorem means_of_comma (plain : (t.form first).isExpression) (plain' : (t.form second).isExpression)
    (joined : t'.form new = .binary .comma first second) (kept : KeepsMeaning .operators w t t' first)
    (kept' : KeepsMeaning .operators w t t' second) (means : t.Means .operators w first e)
    (means' : t.Means .operators w second e') : t'.Means .operators w new (e.andThen e') := by
  obtain ⟨v, inner, rfl⟩ := means.of_expression plain
  obtain ⟨v', inner', rfl⟩ := means'.of_expression plain'
  exact .expression (.comma joined (by rw [joined]; rfl) (kept.evaluates v inner) (kept'.evaluates v' inner'))

/-- A tree keeps its meaning where one statement comes to do what two neighbours did. The first of them may change
on its own. -/
theorem keeps_joined {joined : NodeId} {before after : List NodeId}
    (lost : NodeId → Prop) (rooted : t.Rooted root) (below : t.Below root list)
    (isList : (t.form list).statementList? = some (before ++ first :: second :: after))
    (relisted : t.Relisted t' list (before ++ joined :: after)) (only : ∀ x, lost x → x = first)
    (forms : ∀ x, t.Below root x → x ≠ list → ¬ lost x → t'.form x = t.form x)
    (same : (∀ y, t.Below list y → y ≠ list → ¬ lost y → KeepsMeaning view w t t' y) →
      ∀ e e', t.Means view w first e → t.Means view w second e' → t'.Means view w joined (e.andThen e')) :
    KeepsMeaning view w t t' root := by
  have link := rooted.linked below ((sublist_of_list isList).subset (show first ∈ _ by simp))
  refine rooted.keeps lost (fun x reached counts inside => ?_) (.refl root) fun gone => ?_
  · by_cases here : x = list
    · subst here
      refine keeps_of_joined isList relisted (rooted.tidy x reached).distinct (fun child slot other _ => ?_) (same inside)
      obtain ⟨lower, different⟩ := rooted.child_below reached slot
      exact inside child lower different fun gone => other (only child gone)
    · refine .of_form (forms x reached here counts) fun child slot => ?_
      obtain ⟨lower, different⟩ := rooted.child_below reached slot
      refine inside child lower different fun gone => here ?_
      have held := rooted.linked reached slot
      rw [only child gone, link] at held
      exact (Option.some.inj held).symm
  · exact absurd (only root gone).symm (ne_of_link link rooted.top)

/-- Two neighbours in a list became one statement: a declaration of what both declare, or an expression of both. -/
structure Joins (t t' : Tree) (root list first second : NodeId) (before after : List NodeId) (joined : NodeId) : Prop where
  isList : (t.form list).statementList? = some (before ++ first :: second :: after)
  relisted : t.Relisted t' list (before ++ joined :: after)
  proper : t'.Proper root
  live : t'.Below root list
  size : t.size ≤ t'.size
  links : (t.form list).listing? ≠ some true → ∀ x, x.index < t.size →
    t'.parent? x = t.parent? x ∨ t.Exposed list x ∧ x ≠ list
  unites : (isPlain (t.form first) = true ∧ isPlain (t.form second) = true ∧ t.size ≤ joined.index ∧
      ∀ x, x ≠ list → t'.form x = if x = joined then .binary .comma first second else t.form x) ∨
    joined = first ∧ ∃ kind head tail, t.form first = .var kind head ∧ t.form second = .var kind tail ∧
      ∀ x, x ≠ list → t'.form x = if x = first then .var kind (head ++ tail) else t.form x

/-- The second of two neighbours in a list hangs nowhere any more. -/
structure Parted (t t' : Tree) (root list first second : NodeId) (before after : List NodeId) : Prop where
  proper : t.Proper root
  below : t.Below root list
  isList : (t.form list).statementList? = some (before ++ first :: second :: after)
  relisted : t.Relisted t' list (before ++ first :: after)
  out : t.TakenOut t' list second

namespace Parted

variable {before after : List NodeId} (parted : Parted t t' root list first second before after)

include parted

theorem nodup : (before ++ first :: second :: after).Nodup :=
  (parted.proper.rooted.tidy list parted.below).distinct.sublist (sublist_of_list parted.isList)

theorem slot (one : x = first ∨ x = second) : x ∈ t.children list := by
  apply (sublist_of_list parted.isList).subset
  rcases one with rfl | rfl <;> simp

theorem under (one : x = first ∨ x = second) : t.Below list x ∧ x ≠ list :=
  parted.proper.rooted.child_below parted.below (parted.slot one)

theorem linked (one : x = first ∨ x = second) : t.parent? x = some list :=
  parted.proper.rooted.linked parted.below (parted.slot one)

theorem exposed (regular : (t.form list).listing? ≠ some true) (one : x = first ∨ x = second) :
    t.Exposed list x ∧ x ≠ list :=
  ⟨.link (parted.linked one) regular .refl, (parted.under one).2⟩

theorem loose : t'.Rooted second ∧ second ≠ root :=
  ⟨parted.out.rooted_removed parted.proper.held parted.proper.rooted (parted.below.trans (parted.under (.inr rfl)).1),
    ne_of_link parted.out.link parted.proper.rooted.top⟩

theorem live : t'.Below root list :=
  parted.out.below parted.below (not_below_of_link parted.proper.rooted.top
    (parted.below.trans (parted.under (.inr rfl)).1) parted.out.link)

theorem link : t'.parent? first = some list := by
  rw [parted.out.parent?, if_neg, parted.linked (.inl rfl)]
  rintro rfl
  exact (nodup_cons.mp (nodup_middle.mp parted.nodup)).1 (by simp)

theorem notAbove : ¬ t'.Below first list :=
  not_below_of_link (parted.proper.takenOut parted.out).rooted.top (.link parted.link parted.live) parted.link

theorem joins_wrap (plain : isPlain (t.form first)) (plain' : isPlain (t.form second)) :
    ∃ joined, Joins t (t'.wrap first fun left => .binary .comma left second) root list first second before after
      joined := by
  obtain ⟨new, placed⟩ := wrap_placed .comma (parted.proper.takenOut parted.out) parted.live parted.link parted.loose.1
    parted.loose.2
  obtain ⟨statements, swapped, relisted⟩ := placed.relisted _ (parted.relisted.statementList? parted.isList) (by simp)
  obtain rfl := swapped.eq_of_nodup (parted.nodup.sublist (by simp))
  have size := parted.out.size.symm.le
  refine ⟨new, parted.isList, parted.relisted.trans relisted, placed.proper, placed.live list parted.live parted.notAbove,
    size.trans placed.size, fun regular x range => ?_, .inl ⟨plain, plain', size.trans placed.fresh, fun x other => ?_⟩⟩
  · by_cases taken : x = first ∨ x = second
    · exact .inr (parted.exposed regular taken)
    · obtain ⟨other, other'⟩ := not_or.mp taken
      refine .inl ((placed.links x (range.trans_le size) other (by simp [other, other'])).trans ?_)
      rw [parted.out.parent?, if_neg other']
  · rw [placed.forms x other, parted.out.forms x other]

theorem joins_vars {kind : DeclarationKind} {head tail : List NodeId} (form : t.form first = .var kind head)
    (form' : t.form second = .var kind tail) :
    Joins t (t'.setForm first (.var kind (head ++ tail))) root list first second before after first := by
  have inside : first.index < t'.size :=
    parted.out.size ▸ parted.proper.rooted.index_lt (parted.below.trans (parted.under (.inl rfl)).1)
  have first_form := (parted.out.forms first (parted.under (.inl rfl)).2).trans form
  obtain ⟨proper, stays⟩ := joinVars_proper (parted.proper.takenOut parted.out) (.link parted.link parted.live)
    parted.loose.1 parted.loose.2 first_form ((parted.out.forms second (parted.under (.inr rfl)).2).trans form')
  have changed (x : NodeId) : (t'.setForm first (.var kind (head ++ tail))).form x =
      if x = first then .var kind (head ++ tail) else t'.form x := by
    simp only [setForm_form, inside, and_true]
  have deeper (regular : (t.form list).listing? ≠ some true) {x holder : NodeId} {ds : List NodeId}
      (one : holder = first ∨ holder = second) (form : t.form holder = .var kind ds) (member : x ∈ ds) :
      t.Exposed list x ∧ x ≠ list := by
    have reached := parted.below.trans (parted.under one).1
    have slot : x ∈ t.children holder := by simpa [children, form] using member
    refine ⟨.link (parted.proper.rooted.linked reached slot) (by simp [form, Form.listing?])
      (parted.exposed regular one).1, ?_⟩
    exact (parted.proper.rooted.deeper parted.below (parted.under one)
      (parted.proper.rooted.child_below reached slot).1).2
  refine ⟨parted.isList, ?_, proper, stays list parted.live fun beneath => absurd beneath parted.notAbove,
    by simp [parted.out.size], fun regular x range => ?_, .inr ⟨rfl, kind, head, tail, form, form', fun x other => ?_⟩⟩
  · rw [Relisted, changed list, if_neg (parted.under (.inl rfl)).2.symm]
    exact parted.relisted
  · rw [setForm_parent?]
    split
    · rename_i taken
      rcases mem_append.mp taken.1 with member | member
      · exact .inr (deeper regular (.inl rfl) form member)
      · exact .inr (deeper regular (.inr rfl) form' member)
    rw [if_neg, parted.out.parent?]
    · split
      · rename_i here
        exact .inr (parted.exposed regular (.inr here))
      · exact .inl rfl
    · rintro ⟨member, absent⟩
      exact absent (mem_append_left _ (by simpa [children, first_form] using member))
  · rw [changed, parted.out.forms x other]

end Parted

theorem join?_joins {settings : Settings} {index : Nat} (proper : t.Proper root) (below : t.Below root list)
    (found : (t.statements list)[index]? = some first) (found' : (t.statements list)[index + 1]? = some second)
    (done : join? settings t list index first second = some t') :
    ∃ before after joined, before.length = index ∧ Joins t t' root list first second before after joined := by
  obtain ⟨removed, removal⟩ := removeAt?_of_getElem? found'
  obtain ⟨statements, isList, relisted⟩ := removeAt?_relisted removal
  have slot := (t.statements_sublist list).subset (mem_of_getElem? found')
  rw [statements_eq isList] at found found'
  obtain ⟨before, after, rfl, rest, place⟩ := exists_neighbours found found'
  have parted : Parted t removed root list first second before after :=
    ⟨proper, below, isList, rest ▸ relisted, removeAt?_takenOut removal (proper.rooted.linked below slot)⟩
  have expressions (done : (if (isPlain (t.form first) && isPlain (t.form second) &&
      settings.allows .combineExpressionStatements) = true then
      some (removed.wrap first fun left => .binary .comma left second) else none) = some t') :
      ∃ joined, Joins t t' root list first second before after joined := by
    split at done
    · rename_i plain
      simp only [Bool.and_eq_true] at plain
      cases done
      exact parted.joins_wrap plain.1.1 plain.1.2
    · cases done
  suffices ∃ joined, Joins t t' root list first second before after joined by
    obtain ⟨joined, joins⟩ := this
    exact ⟨before, after, joined, place, joins⟩
  unfold join? at done
  rw [removal] at done
  dsimp only at done
  split at done
  · rename_i kind head nextKind tail form form'
    split at done
    · rename_i same
      simp only [Bool.and_eq_true, beq_iff_eq] at same
      obtain rfl := same.1
      cases done
      exact ⟨first, parted.joins_vars form form'⟩
    · exact expressions done
  · exact expressions done

theorem Joins.refines {before after : List NodeId} {joined : NodeId} (proper : t.Proper root) (below : t.Below root list)
    (joins : Joins t t' root list first second before after joined) : Refines .operators t t' root := by
  have slots := (sublist_of_list joins.isList).subset
  have slot : first ∈ t.children list := slots (by simp)
  have slot' : second ∈ t.children list := slots (by simp)
  have under {x : NodeId} (slot : x ∈ t.children list) := proper.rooted.child_below below slot
  refine ⟨joins.proper, fun w => ?_⟩
  rcases joins.unites with ⟨plain, plain', fresh, forms⟩ | ⟨rfl, kind, head, tail, form, form', forms⟩
  · have old {x : NodeId} (reached : t.Below root x) : x ≠ joined := by
      rintro rfl
      exact absurd fresh (Nat.not_le_of_lt (proper.rooted.index_lt reached))
    refine keeps_joined (fun _ => False) proper.rooted below joins.isList joins.relisted
      (fun _ => False.elim) (fun x reached other _ => ?_) fun inside e e' => ?_
    · rw [forms x other, if_neg (old reached)]
    · refine means_of_comma (isExpression_of_isPlain plain) (isExpression_of_isPlain plain') ?_
        (inside first (under slot).1 (under slot).2 not_false) (inside second (under slot').1 (under slot').2 not_false)
      rw [forms joined (old below).symm, if_pos rfl]
  · refine keeps_joined (· = joined) proper.rooted below joins.isList joins.relisted (fun _ => id)
      (fun x _ other gone => ?_) fun inside e e' => ?_
    · rw [forms x other, if_neg gone]
    · refine means_of_vars form form' ?_ fun d member => ?_
      · rw [forms joined (under slot).2, if_pos rfl]
      · have holder : ∃ x ∈ t.children list, d ∈ t.children x := by
          rcases mem_append.mp member with member | member
          · exact ⟨joined, slot, by simpa [children, form] using member⟩
          · exact ⟨second, slot', by simpa [children, form'] using member⟩
        obtain ⟨x, held, held'⟩ := holder
        have upper := below.trans (under held).1
        have lower := proper.rooted.deeper below (under held) (proper.rooted.child_below upper held').1
        refine inside d lower.1 lower.2 ?_
        rintro rfl
        have inner := proper.rooted.linked upper held'
        exact (under held).2 (Option.some.inj (inner.symm.trans (proper.rooted.linked below slot)))

theorem joinFrom_refines (settings : Settings) (rounds index : Nat) (proper : t.Proper root)
    (below : t.Below root list) : Refines .operators t (joinFrom settings list rounds index t).tree root := by
  induction rounds generalizing index t with
  | zero => exact .refl proper
  | succ rounds ih =>
    unfold joinFrom
    split
    · rename_i first second found found'
      split
      · rename_i t' done
        obtain ⟨before, after, joined, -, joins⟩ := join?_joins proper below found found' done
        exact (joins.refines proper below).trans (ih index joins.proper joins.live)
      · exact ih (index + 1) proper below
    · exact .refl proper

theorem run_refines (settings : Settings) (proper : t.Proper root) :
    Refines .operators t (run settings root t).tree root := by
  unfold run
  split
  · refine Changed.each_keeps (P := fun t' => Refines .operators t t' root) (.refl proper) fun t' id kept => ?_
    split
    · exact kept
    · rename_i live
      have below : t'.Below root id := below_of_isLive (by simpa using live)
      split
      · exact kept.trans (joinFrom_refines settings _ 0 kept.proper below)
      · split
        · exact kept
        · exact kept.trans (convertIf_refines settings kept.proper below)
  · exact .refl proper

end Combine

/-- Combination of statements keeps what a program does: it has the one run that it had before. -/
theorem combine_keeps_runs {V : Type} (w : World V) (settings : Settings) {t : Tree} {root : NodeId}
    (proper : t.Proper root) (plain : t.Plain .operators root) :
    (∃! run : Completion V × Trace, t.Runs .operators w root run.1 run.2) ∧
      ∀ completion trace, (Combine.run settings root t).tree.Runs .operators w root completion trace ↔
        t.Runs .operators w root completion trace :=
  ((Combine.run_refines settings proper).keeps w).runs plain

set_option maxRecDepth 100000 in
/-- A branch of two expressions is merged and moves into an operator, and the rest follows it. -/
theorem combine_keeps_runs_nested :
    let parsed := parse "if(a)\x7bb;c\x7dd;while(a)if(b)return c;else return d" {}
    let combined := Combine.run {} parsed.root parsed.tree
    let w : World Bool := ⟨fun trace _ => trace.length % 3 == 0, fun v => v, fun _ _ => false, 5⟩
    combined.changes = 4 ∧ ∃! run : Completion Bool × Trace, combined.tree.Runs .operators w parsed.root run.1 run.2 := by
  have facts :
      let parsed := parse "if(a)\x7bb;c\x7dd;while(a)if(b)return c;else return d" {}
      (Combine.run {} parsed.root parsed.tree).changes = 4 ∧ parsed.tree.plainUpTo .operators 9 parsed.root = true := by
    decide +kernel
  have proper := parse_proper "if(a)\x7bb;c\x7dd;while(a)if(b)return c;else return d" {}
  generalize parse "if(a)\x7bb;c\x7dd;while(a)if(b)return c;else return d" {} = parsed at facts proper ⊢
  have kept := combine_keeps_runs (V := Bool) ⟨fun trace _ => trace.length % 3 == 0, fun v => v, fun _ _ => false, 5⟩ {} proper
    (Tree.plain_of_upTo facts.2)
  exact ⟨facts.1, by simpa only [kept.2] using kept.1⟩

end Condense
