import Condense.Proofs.Meaning.Exchange

/-!
Removal of dead code keeps the meaning of a program without declarations: every event happens when it happened before,
and the program ends as it did.
-/

attribute [local simp] Condense.Form.children

namespace Condense

open Changed Effect List Option Condense.Tree View

variable {V : Type} {w : World V} {t t' : Tree} {root id : NodeId}
variable {statement list discriminant last : NodeId} {scope : Option ScopeId} {view : View} (settings : Settings)

/-- An expression that makes no event and whose truth value is known. -/
def Evaluation.Settled (w : World V) (e : Evaluation V) (b : Bool) : Prop :=
  ∀ trace, w.isTrue (e trace).1 = b ∧ (e trace).2 = trace

theorem Effect.branch_settled {condition : Evaluation V} {b : Bool} (settled : condition.Settled w b)
    (yes no : Effect V) : branch w condition yes no = if b then yes else no := by
  funext trace
  obtain ⟨known, silent⟩ := settled trace
  rw [branch, known, silent]
  cases b <;> rfl

namespace Tree

theorem Evaluates.unwrapUpTo {e : Evaluation V} (steps : Nat) (evaluates : t.Evaluates view w id e) :
    t.Evaluates view w (t.unwrapUpTo steps id) e := by
  induction steps generalizing id with
  | zero => exact evaluates
  | succ steps ih =>
    unfold Tree.unwrapUpTo
    split
    · rename_i inner form
      refine ih ?_
      cases evaluates with
      | grouping form' inside => exact Form.grouping.inj (form'.symm.trans form) ▸ inside
      | event _ hidden => simp [form, hides] at hidden
      | _ => simp_all
    · exact evaluates

/-- The truth value that is known beforehand is the one that comes out. -/
theorem Evaluates.settled {e : Evaluation V} {b : Bool} {steps : Nat} (evaluates : t.Evaluates .constants w id e)
    (known : t.truthUpTo steps id = some b) : e.Settled w b := by
  induction steps generalizing id e b with
  | zero => cases known
  | succ steps ih =>
    have inner : t.Evaluates .constants w (t.unwrapGrouping id) e := evaluates.unwrapUpTo _
    have literal {l : Literal} (form : t.form (t.unwrapGrouping id) = .constant l)
        (shown : constants.hides (.constant l) = false) (truth : some l.truth = some b) : e.Settled w b := by
      rw [inner.unique (.constant form (form ▸ shown))]
      exact fun trace => ⟨Option.some.inj truth, rfl⟩
    unfold truthUpTo at known
    split at known
    case h_1 form | h_2 form | h_3 form | h_4 form => exact literal form rfl known
    · rename_i operand form
      obtain ⟨b', known', rfl⟩ := map_eq_some_iff.mp known
      cases inner with
      | negation form' shown inside =>
        obtain ⟨-, rfl⟩ := Form.unary.inj (form'.symm.trans form)
        intro trace
        obtain ⟨truth, silent⟩ := ih inside known' trace
        exact ⟨congrArg (!·) truth, silent⟩
      | event _ hidden => simp [form, hides] at hidden
      | _ => simp_all
    · cases known

end Tree

namespace DeadCode

theorem takeBranch_refines (proper : t.Proper root) : Refines .constants t (takeBranch root t id).tree root := by
  unfold takeBranch
  split
  · rename_i live
    have below := below_of_isLive live
    split
    · rename_i condition consequent alternate form
      split
      · exact .refl proper
      · rename_i taken known
        have settled {V : Type} {w : World V} {c : Evaluation V} (test : t.Evaluates .constants w condition c) :
            c.Settled w taken := test.settled known
        have branch {statement : NodeId} (slot : statement ∈ t.children id)
            (same : ∀ {V : Type} (w : World V) (e : Effect V), t.Means .constants w id e →
              t.Means .constants w statement e) : Refines .constants t (t.replaceIfHeld id statement) root :=
          proper.replace_refines below ⟨_, _, _, form⟩ (.inl ⟨rfl, slot⟩) fun w t' _ inside e means =>
            (inside statement (proper.rooted.child_below below slot).1).means e (same w e means)
        cases taken with
        | true =>
          simp only [if_true]
          split
          · exact .refl proper
          · refine branch (by simp [form]) fun w e means => ?_
            cases alternate with
            | none =>
              obtain ⟨c, yes, test, first, rfl⟩ := means.of_branch form
              rwa [branch_settled (settled test), if_pos rfl]
            | some alternate =>
              obtain ⟨c, yes, no, test, first, -, rfl⟩ := means.of_branches form
              rwa [branch_settled (settled test), if_pos rfl]
        | false =>
          simp only [Bool.false_eq_true, if_false]
          split
          · exact .refl proper
          · cases alternate with
            | some alternate =>
              refine branch (by simp [form]) fun w e means => ?_
              obtain ⟨c, yes, no, test, -, second, rfl⟩ := means.of_branches form
              rwa [branch_settled (settled test), if_neg Bool.false_ne_true]
            | none =>
              -- Nothing runs, so an empty statement takes the place.
              have built := Built.alloc proper.held .empty (t.span id) nodup_nil (by simp)
              refine proper.replace_refines below ⟨_, _, _, form⟩ (.inr ⟨[], built, by simp, by simp, by simp⟩)
                fun w t' made _ e means => ?_
              obtain ⟨c, yes, test, -, rfl⟩ := means.of_branch form
              rw [branch_settled (settled test), if_neg Bool.false_ne_true]
              exact .empty ((made ⟨t.size⟩ .refl).trans ((t.alloc_form ..).trans (if_pos rfl)))
    · exact .refl proper
  · exact .refl proper

theorem jump_andThen {e : Effect V} (jump : (t.form id).isJump) (means : t.Means view w id e)
    (second : Effect V) : e.andThen second = e := by
  unfold Form.isJump at jump
  split at jump
  · rename_i value form
    cases value with
    | none =>
      rw [means.unique (.returnNothing form)]
      rfl
    | some value =>
      obtain ⟨v, -, rfl⟩ := means.of_returnValue form
      rfl
  · rename_i form
    obtain ⟨v, -, rfl⟩ := means.of_throwValue form
    rfl
  case h_3 label form | h_4 label form =>
    cases label with
    | none =>
      rw [means.unique (by first | exact .breakLoop form | exact .continueLoop form)]
      rfl
    | some label => simpa [View.knows, form, View.list?, Form.isExpression] using means.knows
  · cases jump

/-- What stays behind a jump has no meaning. -/
theorem outlivesJump_unknown {form : Form NodeId} (outlives : outlivesJump form) :
    constants.knows form = false := by
  unfold outlivesJump at outlives
  split at outlives
  · rfl
  · unfold Form.isDeclaration at outlives
    split at outlives
    · rfl
    · rfl
    · rfl
    · obtain rfl := beq_iff_eq.mp outlives
      rfl
    · rename_i isExpression scope _
      obtain rfl : isExpression = false := by simpa using outlives
      rfl
    · cases outlives

theorem keep_unreachable {ids : List NodeId} (each : ∀ id ∈ ids, constants.knows (t.form id)) :
    keep true ids t = ([], t) := by
  induction ids with
  | nil => rfl
  | cons id rest ih =>
    unfold keep
    have dropped : outlivesJump (t.form id) = false := by
      by_contra outlives
      simp [outlivesJump_unknown (Bool.eq_true_of_not_eq_false outlives)] at each
    simp only [dropped, Bool.not_false, Bool.and_true, Bool.or_true, if_true]
    exact ih fun id member => each id (.tail _ member)

/-- The statements that are kept have the effect of all. -/
theorem keep_means {ids : List NodeId} {effects : List (Effect V)} (length : ids.length = effects.length)
    (means : ∀ s e, (s, e) ∈ ids.zip effects → t.Means .constants w s e) :
    ∃ kept effects', keep false ids t = (kept, t) ∧ kept.length = effects'.length ∧
      (∀ s e, (s, e) ∈ kept.zip effects' → t.Means .constants w s e) ∧
      sequence effects' = sequence effects := by
  induction ids generalizing effects with
  | nil =>
    obtain rfl : effects = [] := length_eq_zero_iff.mp length.symm
    exact ⟨[], [], rfl, rfl, nofun, rfl⟩
  | cons id rest ih =>
    obtain ⟨e, effects, rfl⟩ := exists_cons_of_length_eq_add_one length.symm
    have here := means id e (.head _)
    have length' : rest.length = effects.length := by simpa using length
    have means' : ∀ s e, (s, e) ∈ rest.zip effects → t.Means .constants w s e :=
      fun s e member => means s e (.tail _ member)
    obtain ⟨kept, effects', done, same_length, same, equal⟩ := ih length' means'
    unfold keep
    by_cases empty : isEmptyForm (t.form id)
    · have form : t.form id = .empty := by
        unfold isEmptyForm at empty
        split at empty
        · assumption
        · cases empty
      refine ⟨kept, effects', ?_, same_length, same, ?_⟩
      · simp [empty, done]
      · rw [here.unique (.empty form), sequence_cons, skip_andThen, equal]
    · have known (s : NodeId) (member : s ∈ rest) : constants.knows (t.form s) := by
        obtain ⟨e, member⟩ := exists_mem_zip length' member
        exact (means' s e member).knows
      by_cases jump : (t.form id).isJump
      · refine ⟨[id], [e], ?_, rfl, fun s e' member => ?_, ?_⟩
        · simp [empty, jump, keep_unreachable known]
        · simp only [zip_cons_cons, zip_nil_right, mem_singleton] at member
          cases member
          exact here
        · rw [sequence_singleton, sequence_cons, jump_andThen jump here]
      · refine ⟨id :: kept, e :: effects', ?_, by simp [same_length], fun s e' member => ?_, ?_⟩
        · simp [empty, jump, done]
        · rcases mem_cons.mp member with member | member
          · cases member
            exact here
          · exact same s e' member
        · rw [sequence_cons, sequence_cons, equal]

/-- Declarators have no meaning where declarations have none. -/
theorem keeps_of_strips {x : NodeId} {stripped : Tree} (strips : Strips t stripped root list)
    (same : t'.form x = stripped.form x) (inside : ∀ child ∈ t.children x, KeepsMeaning .constants w t t' child) :
    KeepsMeaning .constants w t t' x := by
  rcases strips.forms x with same' | ⟨target, init, form⟩
  · exact .of_form (same.trans same') inside
  · refine .of_unknown (by rw [form]; rfl) ?_
    rintro ⟨name, field, other⟩
    simp [form] at other

theorem prune_refines (proper : t.Proper root) (live : t.Below root list) :
    Refines .constants t (prune t list).tree root := by
  cases isList : (t.form list).statementList? with
  | none =>
    have same : (prune t list).tree = t := by simp [prune, statements, isList, keep]
    rw [same]
    exact .refl proper
  | some statements =>
    have slots := (t.statements_sublist list).subset
    obtain ⟨strips, sublist⟩ := keep_strips proper live false (t.statements list) (by simp [isList]) slots
    dsimp only [prune]
    rw [statements_eq isList] at strips sublist slots ⊢
    generalize outcome : keep false statements t = result at strips sublist
    obtain ⟨kept, stripped⟩ := result
    have list' : stripped.form list = t.form list := strips.form_list (by simp [isList])
    split
    · refine ⟨strips.proper.setStatements strips.live ?_, fun w => ?_⟩
      · rwa [statements_eq (list' ▸ isList)]
      · refine proper.rooted.keeps_of_children fun x _ children => ?_
        by_cases here : x = list
        · subst here
          have relisted : t.Relisted (stripped.setStatements x kept) x kept := by
            have base : stripped.Relisted (stripped.setStatements x kept) x kept :=
              setStatements_relisted kept (by simp [list', isList])
            unfold Relisted at base ⊢
            rwa [list'] at base
          refine .of_relisted isList relisted (proper.rooted.tidy x live).distinct
            (fun child slot _ => children child slot) fun effects length means => ?_
          obtain ⟨kept', effects', done, length', means', equal⟩ := keep_means length means
          obtain ⟨rfl, -⟩ := Prod.mk.inj (outcome.symm.trans done)
          refine ⟨effects', length', fun s e member => ?_, equal⟩
          exact (children s (slots (sublist.subset (of_mem_zip member).1))).means e (means' s e member)
        · exact keeps_of_strips strips (setStatements_form_of_ne list kept here) children
    · refine ⟨strips.proper, fun w => ?_⟩
      exact proper.rooted.keeps_of_children fun x _ children => keeps_of_strips strips rfl children

end DeadCode

theorem Effect.catchBreak_andThen_broken (e : Effect V) : catchBreak (e.andThen (ending .broken)) = catchBreak e := by
  funext trace
  unfold catchBreak andThen ending
  cases e trace with
  | mk completion after => cases completion <;> rfl

namespace Clause

variable {cs : List (Clause V)} {k k' : Clause V}

theorem fallThrough_append : fallThrough (cs ++ [k]) = (fallThrough cs).andThen k.body := by
  simp [fallThrough, sequence_append]

/-- The last clause is selected if none before it is. -/
theorem select_append (trace : Trace) : select w (cs ++ [k]) trace = match select w cs trace with
    | (some found, trace) => (some (found ++ [k]), trace)
    | (none, trace) => select w [k] trace := by
  induction cs generalizing trace with
  | nil => rfl
  | cons c cs ih =>
    rw [cons_append]
    unfold select
    cases c.test with
    | none => exact ih trace
    | some test =>
      dsimp only
      split
      · rfl
      · exact ih _

theorem fromDefault_append : fromDefault (cs ++ [k]) =
    if (fromDefault cs).isEmpty then fromDefault [k] else fromDefault cs ++ [k] :=
  dropWhile_append

/-- What a switch does depends on its last clause only in what comes before the end. -/
theorem switch_congr_last (discriminant : Evaluation V) (test : k.test = k'.test)
    (same : ∀ e : Effect V, Effect.catchBreak (e.andThen k.body) = Effect.catchBreak (e.andThen k'.body)) :
    Effect.switch w discriminant (cs ++ [k]) = Effect.switch w discriminant (cs ++ [k']) := by
  have fall (cs : List (Clause V)) :
      Effect.catchBreak (fallThrough (cs ++ [k])) = Effect.catchBreak (fallThrough (cs ++ [k'])) := by
    rw [fallThrough_append, fallThrough_append, same]
  have default : Effect.catchBreak (fallThrough (fromDefault (cs ++ [k]))) =
      Effect.catchBreak (fallThrough (fromDefault (cs ++ [k']))) := by
    rw [fromDefault_append, fromDefault_append]
    split
    · unfold fromDefault
      rw [dropWhile_cons, dropWhile_cons, ← test]
      split
      · rfl
      · exact fall []
    · exact fall _
  funext trace
  unfold Effect.switch
  rw [select_append, select_append]
  rcases select w cs (discriminant trace).2 with ⟨found | found, trace⟩
  · unfold select
    rw [← test]
    cases k.test with
    | none => exact congrFun default trace
    | some test =>
      dsimp only
      split
      · exact congrFun (fall []) _
      · exact congrFun default _
  · exact congrFun (fall found) trace

/-- A switch does not need a default clause at its end that does nothing. -/
theorem switch_append_default (discriminant : Evaluation V) (test : k.test = none) (empty : k.body = .skip) :
    Effect.switch w discriminant (cs ++ [k]) = Effect.switch w discriminant cs := by
  have fall (cs : List (Clause V)) : fallThrough (cs ++ [k]) = fallThrough cs := by
    rw [fallThrough_append, empty, andThen_skip]
  have default : fallThrough (fromDefault (cs ++ [k])) = fallThrough (fromDefault cs) := by
    rw [fromDefault_append]
    split
    · rename_i none
      rw [isEmpty_iff.mp none]
      unfold fromDefault
      rw [dropWhile_cons, test]
      exact fall []
    · exact fall _
  funext trace
  unfold Effect.switch
  rw [select_append]
  rcases select w cs (discriminant trace).2 with ⟨found | found, trace⟩
  · unfold select
    rw [test]
    simp [select, default]
  · simp [fall]

end Clause

namespace DeadCode

theorem exists_last {α β : Type} {xs : List α} {x : α} {ys : List β} (length : (xs ++ [x]).length = ys.length) :
    ∃ start last, ys = start ++ [last] ∧ xs.length = start.length := by
  rcases eq_nil_or_concat ys with rfl | ⟨start, last, rfl⟩
  · simp at length
  · exact ⟨start, last, concat_eq_append, by simpa using length⟩

/-- A switch keeps its meaning if what takes the place of its last clause does the same in it. -/
theorem keeps_of_last {init tail : List NodeId}
    (form : t.form id = .switchStatement discriminant (init ++ [last]) scope)
    (form' : t'.form id = .switchStatement discriminant (init ++ tail) scope)
    (distinct : (t.children id).Nodup) (inside : ∀ child ∈ t.children id, child ≠ last → KeepsMeaning view w t t' child)
    (clause : ∀ k : Clause V, t.Tests view w last k.test → t.Means view w last k.body →
      ∃ ks, tail.length = ks.length ∧
        (∀ c k', (c, k') ∈ tail.zip ks → t'.Tests view w c k'.test ∧ t'.Means view w c k'.body) ∧
        ∀ d cs, Effect.switch w d (cs ++ [k]) = Effect.switch w d (cs ++ ks)) :
    KeepsMeaning view w t t' id := by
  have slots : t.children id = discriminant :: (init ++ [last]) := by simp [children, form]
  have other {child : NodeId} (member : child ∈ discriminant :: init) : KeepsMeaning view w t t' child := by
    refine inside child (by simp only [slots, mem_cons, mem_append] at member ⊢; tauto) ?_
    rintro rfl
    rw [slots, ← cons_append] at distinct
    exact disjoint_of_nodup_append distinct member (mem_singleton_self child)
  refine ⟨fun e old => ?_, fun e old => ?_, fun test old => ?_, ?_⟩
  · simpa [form, Form.isExpression] using old.isExpression
  · obtain ⟨d, clauses, value, length, tests, bodies, rfl⟩ := old.of_switch form
    obtain ⟨cs, k, rfl, length'⟩ := exists_last length
    rw [zip_append length'] at tests bodies
    simp only [zip_cons_cons, zip_nil_right, mem_append, mem_singleton] at tests bodies
    obtain ⟨ks, few, kept, same⟩ := clause k (tests last k (.inr rfl)) (bodies last k (.inr rfl))
    rw [same d cs]
    refine .switch form' ((other (.head _)).evaluates d value) (by simp [length', few])
      (fun c k' member => ?_) fun c k' member => ?_
    all_goals
      rw [zip_append length', mem_append] at member
      rcases member with member | member
    · exact (other (.tail _ (of_mem_zip member).1)).tests _ (tests c k' (.inl member))
    · exact (kept c k' member).1
    · exact (other (.tail _ (of_mem_zip member).1)).means _ (bodies c k' (.inl member))
    · exact (kept c k' member).2
  · cases old <;> simp_all
  · rintro ⟨name, field, binding⟩
    simp [form] at binding

/-- A clause at the end of a switch does not need the `break` that ends it. -/
theorem clause_of_break {statements : List NodeId}
    (isList : (t.form last).statementList? = some (statements ++ [statement]))
    (form : t.form statement = .breakStatement none) (relisted : t.Relisted t' last statements)
    (distinct : (t.children last).Nodup) (inside : ∀ child ∈ t.children last, KeepsMeaning .constants w t t' child)
    (k : Clause V) (test : t.Tests .constants w last k.test) (body : t.Means .constants w last k.body) :
    ∃ k', t'.Tests .constants w last k'.test ∧ t'.Means .constants w last k'.body ∧
      ∀ d cs, Effect.switch w d (cs ++ [k]) = Effect.switch w d (cs ++ [k']) := by
  obtain ⟨seen, list⟩ : ∃ seen, constants.list? (t.form last) = some seen := by
    generalize k.test = found at test
    cases test with
    | default form | test form => exact ⟨_, by rw [form]; rfl⟩
  obtain ⟨rfl, list'⟩ := relisted.list? isList list
  obtain ⟨effects, length, means, whole⟩ := body.of_list list
  obtain ⟨effects, e', rfl, length'⟩ := exists_last length
  rw [zip_append length'] at means
  simp only [zip_cons_cons, zip_nil_right, mem_append, mem_singleton] at means
  refine ⟨⟨k.test, .sequence effects⟩, relisted.tests isList distinct (fun child slot _ => inside child slot) test,
    .list list' length' fun s e member => ?_, fun d cs => Clause.switch_congr_last d rfl fun e => ?_⟩
  · exact (inside s (list?_subset list (mem_append_left _ (of_mem_zip member).1))).means e (means s e (.inl member))
  · rw [whole, sequence_append, sequence_singleton, (means statement e' (.inr rfl)).unique (.breakLoop form),
      ← andThen_assoc, catchBreak_andThen_broken]

theorem removeStatement?_relisted {statements : List NodeId} (done : t.removeStatement? statement = some t')
    (link : t.parent? statement = some list) (isList : (t.form list).statementList? = some statements) :
    statement ∈ statements ∧ t.Relisted t' list (statements.erase statement) := by
  unfold removeStatement? at done
  simp only [bind_eq_bind, link, bind_some, bind_eq_some_iff, map_eq_some_iff] at done
  obtain ⟨index, found, ⟨removed, tree⟩, out, rfl⟩ := done
  obtain ⟨statements', isList', relisted⟩ := removeAt?_relisted out
  obtain rfl := Option.some.inj (isList.symm.trans isList')
  rw [statements_eq isList] at found
  rw [erase_eq_eraseIdx, found]
  obtain ⟨range, value, -⟩ := idxOf?_eq_some_iff.mp found
  exact ⟨value ▸ getElem_mem range, relisted⟩

theorem statementList?_of_getLast? (found : (t.statements list).getLast? = some statement) :
    ∃ statements, (t.form list).statementList? = some (statements ++ [statement]) := by
  obtain ⟨statements, atEnd⟩ := getLast?_eq_some_iff.mp found
  cases isList : (t.form list).statementList? with
  | none => simp [Tree.statements, isList] at found
  | some whole => exact ⟨statements, by rw [← atEnd, statements_eq isList]⟩

variable (scopes : ScopeTree) (proper : t.Proper root)

include proper

section

variable (below : t.Below root id)

include below

theorem dropLastBreak_refines {cases : List NodeId} (form : t.form id = .switchStatement discriminant cases scope) :
    Refines .constants t (dropLastBreak t cases).tree root ∧ (dropLastBreak t cases).tree.Below root id ∧
      (dropLastBreak t cases).tree.form id = t.form id := by
  have unchanged : Refines .constants t t root ∧ t.Below root id ∧ t.form id = t.form id := ⟨.refl proper, below, rfl⟩
  unfold dropLastBreak
  split
  · rename_i statement found
    split
    · rename_i isBreak
      obtain ⟨last, atEnd, found'⟩ := bind_eq_some_iff.mp found
      obtain ⟨init, rfl⟩ := getLast?_eq_some_iff.mp atEnd
      obtain ⟨statements, isList⟩ := statementList?_of_getLast? found'
      refine ofOption_keeps (P := fun t' => Refines .constants t t' root ∧ t'.Below root id ∧
        t'.form id = t.form id) unchanged fun t' done => ?_
      have rooted := proper.rooted
      have slot : last ∈ t.children id := by simp [form]
      have link := rooted.linked below slot
      have under := rooted.child_below below slot
      have tidy := rooted.tidy last (below.trans under.1)
      have slots := sublist_of_list isList
      have link' := tidy.linked statement (slots.subset (by simp))
      obtain ⟨list, out⟩ := removeStatement?_takenOut done
      obtain rfl := Option.some.inj (link'.symm.trans out.link)
      obtain ⟨-, relisted⟩ := removeStatement?_relisted done link' isList
      have absent : statement ∉ statements := fun member =>
        disjoint_of_nodup_append (tidy.distinct.sublist slots) member (mem_singleton_self statement)
      rw [erase_append_right _ absent, erase_cons_head, append_nil] at relisted
      refine ⟨⟨proper.takenOut out, fun w => ?_⟩, out.below below fun beneath => ?_, out.forms id under.2.symm⟩
      · refine rooted.keeps (· = last) (fun x reached counts inside => ?_) (.refl root) fun same => ?_
        · by_cases here : x = id
          · subst here
            refine keeps_of_last form ((out.forms x counts).trans form) (rooted.tidy x reached).distinct
              (fun child slot other => ?_) fun k test body => ?_
            · exact inside child (rooted.child_below reached slot).1 (rooted.child_below reached slot).2 other
            · obtain ⟨k', test', body', same⟩ := clause_of_break isList isBreak relisted tidy.distinct
                (fun child slot' => by
                  have lower := rooted.child_below (below.trans under.1) slot'
                  have deeper := rooted.deeper below under lower.1
                  exact inside child deeper.1 deeper.2 lower.2) k test body
              exact ⟨[k'], rfl, by simpa using ⟨test', body'⟩, same⟩
          · refine .of_form (out.forms x counts) fun child slot' => ?_
            refine inside child (rooted.child_below reached slot').1 (rooted.child_below reached slot').2 ?_
            rintro rfl
            exact here (Option.some.inj ((rooted.linked reached slot').symm.trans link))
        · exact absurd same.symm (ne_of_link link rooted.top)
      · have same := proper.held.eq_of_leaf (by simp [children, isBreak]) beneath
        simp [same, isBreak] at form
    · exact unchanged
  · exact unchanged

/-- A tree keeps its meaning where one node keeps some of its children and its meaning. -/
theorem setForm_refines {form : Form NodeId} (other : ¬ (t.form id).IsProgram) (sublist : form.children.Sublist (t.children id))
    (here : ∀ {V : Type} (w : World V), (∀ child ∈ t.children id, KeepsMeaning view w t (t.setForm id form) child) →
      KeepsMeaning view w t (t.setForm id form) id) :
    Refines view t (t.setForm id form) root ∧ (t.setForm id form).Below root id := by
  have offered := proper.rooted.offered_sublist below (.refl id) sublist
  refine ⟨⟨proper.setForm below offered (proper.ne_root other), fun w => ?_⟩,
    .setForm proper.rooted below offered below fun _ => .inl rfl⟩
  refine proper.rooted.keeps_of_children fun x _ children => ?_
  by_cases same : x = id
  · subst same
    exact here w children
  · refine .of_form ?_ children
    rw [setForm_form, if_neg fun both => same both.1]

theorem dropDefault_refines {init : List NodeId}
    (form : t.form id = .switchStatement discriminant (init ++ [last]) scope) (empty : isEmptyDefault t last) :
    Refines .constants t (t.setForm id (.switchStatement discriminant init scope)) root ∧
      (t.setForm id (.switchStatement discriminant init scope)).Below root id := by
  have clause : t.form last = .switchCase none [] := by
    unfold isEmptyDefault at empty
    split at empty
    · assumption
    · cases empty
  have form' : (t.setForm id (.switchStatement discriminant init scope)).form id =
      .switchStatement discriminant (init ++ []) scope := by
    rw [setForm_form, if_pos ⟨rfl, proper.rooted.index_lt below⟩, append_nil]
  refine setForm_refines proper below (by simp [form, Form.IsProgram]) (by simp [children, form]) fun w children => ?_
  refine keeps_of_last form form' (proper.rooted.tidy id below).distinct (fun child slot _ => children child slot)
    fun k test body => ⟨[], rfl, by simp, fun d cs => ?_⟩
  have test : k.test = none := test.unique (.default clause)
  have body : k.body = .skip := body.unique
    (.list (show _ = some [] by rw [clause]; rfl) (show [].length = [].length from rfl) (by simp))
  rw [append_nil, Clause.switch_append_default d test body]

theorem trimOnce_refines :
    Refines .constants t (trimOnce settings id t).tree root ∧ (trimOnce settings id t).tree.Below root id := by
  unfold trimOnce
  split
  · rename_i discriminant cases scope form
    unfold Changed.andThen
    dsimp only
    generalize first : (if settings.allows .removeBreakFromLastCase then dropLastBreak t cases else { tree := t }) = c
    have trimmed : Refines .constants t c.tree root ∧ c.tree.Below root id ∧ c.tree.form id = t.form id := by
      rw [← first]
      split
      · exact dropLastBreak_refines proper below form
      · exact ⟨.refl proper, below, rfl⟩
    obtain ⟨kept, below', form'⟩ := trimmed
    split
    · rename_i allowed
      simp only [Bool.and_eq_true, Option.any_eq_true] at allowed
      obtain ⟨⟨last, atEnd, empty⟩, -⟩ := allowed
      obtain ⟨init, rfl⟩ := List.getLast?_eq_some_iff.mp atEnd
      rw [List.dropLast_concat]
      obtain ⟨dropped, below⟩ := dropDefault_refines kept.proper below' (form'.trans form) empty
      exact ⟨kept.trans dropped, below⟩
    · exact ⟨kept, below'⟩
  · exact ⟨.refl proper, below⟩

theorem trimUpTo_refines (rounds : Nat) : Refines .constants t (trimUpTo settings id rounds t).tree root := by
  induction rounds generalizing t with
  | zero => exact .refl proper
  | succ rounds ih =>
    obtain ⟨once, below⟩ := trimOnce_refines settings proper below
    unfold trimUpTo
    dsimp only
    split
    · exact once
    · exact once.trans (ih once.proper below)

end

/-- A function that is declared has no meaning here, nor has a list around it. -/
theorem removeFunction_refines {binding body : NodeId} {params : List NodeId} {isAsync isGenerator : Bool}
    {scope : ScopeId} {nameScope : Option ScopeId}
    (form : t.form id = .function .declaration (some binding) params body isAsync isGenerator scope nameScope)
    (done : t.removeStatement? id = some t') : Refines .constants t t' root := by
  obtain ⟨list, out⟩ := removeStatement?_takenOut done
  obtain ⟨statements, isList⟩ := ne_none_iff_exists'.mp out.isList
  obtain ⟨member, relisted⟩ := removeStatement?_relisted done out.link isList
  refine ⟨proper.takenOut out, fun w => proper.rooted.keeps_of_children fun x reached children => ?_⟩
  by_cases here : x = list
  · subst here
    refine .of_relisted isList relisted (proper.rooted.tidy x reached).distinct (fun child slot _ => children child slot)
      fun effects length means => ?_
    obtain ⟨e, member⟩ := exists_mem_zip length member
    simpa [form, View.knows, View.list?, Form.isExpression] using (means id e member).knows
  · exact .of_form (out.forms x here) children

theorem dropUnused_refines : Refines .constants t (dropUnused settings scopes root t id).tree root := by
  unfold dropUnused
  split
  · rename_i live
    have below := below_of_isLive live
    have range := proper.rooted.index_lt below
    split
    · rename_i form
      split
      · refine (setForm_refines proper below (by simp [form, Form.IsProgram]) (by simp [children, form])
          fun w _ => .of_unknown (by rw [form]; rfl) ?_).1
        rintro ⟨name, field, other⟩
        simp [form] at other
      · exact .refl proper
    · exact trimUpTo_refines settings proper below _
    · rename_i form
      split
      · exact ofOption_keeps (P := fun t' => Refines .constants t t' root) (.refl proper) fun t' done =>
          removeFunction_refines proper form done
      · exact .refl proper
    · rename_i form
      split
      · refine (setForm_refines proper below (by simp [form, Form.IsProgram]) (by simp [children, form])
          fun w _ => .of_hidden (by rw [form]; rfl) (by rw [form]; rfl) ?_ ?_).1
        all_goals
          rw [setForm_form, if_pos ⟨rfl, range⟩]
          rfl
      · exact .refl proper
    · exact .refl proper
  · exact .refl proper

theorem run_refines : Refines .constants t (run settings scopes root t).tree root := by
  unfold run Changed.andThen
  dsimp only
  refine each_keeps (P := fun t' => Refines .constants t t' root) ?_
    fun t' id kept => kept.trans (dropUnused_refines settings scopes kept.proper)
  refine each_keeps (P := fun t' => Refines .constants t t' root) ?_ fun t' list kept => ?_
  · exact each_keeps (P := fun t' => Refines .constants t t' root) (.refl proper)
      fun t' id kept => kept.trans (takeBranch_refines kept.proper)
  · split
    · rename_i live
      exact kept.trans (prune_refines kept.proper (below_of_isLive live))
    · exact kept

end DeadCode

/-- Removal of dead code keeps what a program without declarations does: it has the one run that it had before. -/
theorem deadCode_keeps_runs {V : Type} (w : World V) (settings : Settings) (scopes : ScopeTree) {t : Tree}
    {root : NodeId} (proper : t.Proper root) (plain : t.Plain .constants root) :
    (∃! run : Completion V × Trace, t.Runs .constants w root run.1 run.2) ∧
      ∀ completion trace, (DeadCode.run settings scopes root t).tree.Runs .constants w root completion trace ↔
        t.Runs .constants w root completion trace :=
  ((DeadCode.run_refines settings scopes proper).keeps w).runs plain

set_option maxRecDepth 100000 in
/-- Two breaks and an empty default clause go from the end of a switch, a branch that is never taken, and what stands
behind a jump. -/
theorem deadCode_keeps_runs_switch :
    let source := "while(a)\x7bif(!0)b;else c;switch(d)\x7bcase e:break;default:break\x7dcontinue;b\x7d"
    let parsed := parse source {}
    let pruned := DeadCode.run {} parsed.scopes parsed.root parsed.tree
    let w : World Bool := ⟨fun trace _ => trace.length % 3 == 0, fun v => v, fun _ _ => false, 5⟩
    pruned.changes = 5 ∧ ∃! run : Completion Bool × Trace, pruned.tree.Runs .constants w parsed.root run.1 run.2 := by
  intro source
  have facts :
      let parsed := parse source {}
      (DeadCode.run {} parsed.scopes parsed.root parsed.tree).changes = 5 ∧
        parsed.tree.plainUpTo .constants 9 parsed.root = true := by
    decide +kernel
  have proper := parse_proper source {}
  generalize parse source {} = parsed at facts proper ⊢
  have kept := deadCode_keeps_runs (V := Bool) ⟨fun trace _ => trace.length % 3 == 0, fun v => v, fun _ _ => false, 5⟩ {}
    parsed.scopes proper (Tree.plain_of_upTo facts.2)
  exact ⟨facts.1, by simpa only [kept.2] using kept.1⟩

end Condense
