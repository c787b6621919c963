import Condense.Proofs.Ownership.Resolved
import Condense.Proofs.Syntax.Regroup
import Condense.Proofs.Syntax.Replacement

/-!
The trees that passes work on, which every parsed text gives, and what the edits that all passes share make of them.
-/

namespace Condense

namespace Changed

variable {step : Tree → NodeId → Changed} {t : Tree}

theorem andThen_tree (c : Changed) (f : Tree → Changed) : (c.andThen f).tree = (f c.tree).tree := rfl

theorem each_tree (ids : List NodeId) (t : Tree) :
    (each ids step t).tree = ids.foldl (fun t id => (step t id).tree) t := by
  have run (c : Changed) : (ids.foldl (fun c id => c.andThen fun t => step t id) c).tree =
      ids.foldl (fun t id => (step t id).tree) c.tree := by
    induction ids generalizing c with
    | nil => rfl
    | cons id rest ih => exact ih _
  exact run _

/-- What each step makes of a fact about the nodes that are left, a whole run makes of it. -/
theorem each_induction {P : List NodeId → Tree → Prop} {ids : List NodeId} (start : P ids t)
    (next : ∀ id rest t, P (id :: rest) t → P rest (step t id).tree) : P [] (each ids step t).tree := by
  rw [each_tree]
  induction ids generalizing t with
  | nil => exact start
  | cons id rest ih => exact ih (next id rest t start)

theorem each_keeps {P : Tree → Prop} {ids : List NodeId} (start : P t)
    (next : ∀ t id, P t → P (step t id).tree) : P (each ids step t).tree :=
  each_induction (P := fun _ t => P t) start fun id _ t => next t id

theorem ofOption_keeps {P : Tree → Prop} {new : Option Tree} (start : P t)
    (changed : ∀ t', new = some t' → P t') : P (ofOption t new).tree := by
  cases new with
  | none => exact start
  | some t' => exact changed t' rfl

end Changed

namespace Tree

/-- A whole chunk that is a proper tree; nodes that hang nowhere may still have slots. -/
structure Proper (t : Tree) (root : NodeId) : Prop where
  rooted : t.Rooted root
  held : t.Held
  program : (t.form root).IsProgram

variable {t t' : Tree} {root id : NodeId}

theorem mem_ancestorsUpTo {steps : Nat} {a x : NodeId} :
    a ∈ t.ancestorsUpTo steps x ↔ ∃ n < steps, t.climb (n + 1) x = some a := by
  induction steps generalizing x with
  | zero => simp [ancestorsUpTo]
  | succ steps ih =>
    unfold ancestorsUpTo
    cases link : t.parent? x with
    | none => simp [climb, link]
    | some p =>
      have next (n : Nat) : t.climb (n + 1) x = t.climb n p := by simp [climb, link]
      simp only [List.mem_cons, ih, next]
      constructor
      · rintro (rfl | ⟨n, bound, arrives⟩)
        · exact ⟨0, by omega, rfl⟩
        · exact ⟨n + 1, by omega, arrives⟩
      · rintro ⟨n, bound, arrives⟩
        cases n with
        | zero => exact .inl (Option.some.inj arrives).symm
        | succ n => exact .inr ⟨n, by omega, arrives⟩

theorem below_of_isLive (live : t.isLive root id) : t.Below root id := by
  simp only [isLive, Bool.or_eq_true, beq_iff_eq, List.contains_iff_mem] at live
  rcases live with rfl | found
  · exact .refl id
  · obtain ⟨n, -, arrives⟩ := mem_ancestorsUpTo.mp found
    exact ⟨n + 1, arrives⟩

/-- Below a node without children there is nothing else. -/
theorem Held.eq_of_leaf (held : t.Held) (leaf : t.children id = []) {x : NodeId} (below : t.Below id x) : x = id := by
  refine below.induct rfl fun x p link _ same => ?_
  have slot := held x p link
  rw [same, leaf] at slot
  cases slot

/-- Below a node there are the node itself and what is below its children. -/
theorem Held.below_cases (held : t.Held) {x : NodeId} (below : t.Below id x) :
    x = id ∨ ∃ child ∈ t.children id, t.Below child x := by
  refine below.induct (.inl rfl) fun x p link _ ih => .inr ?_
  rcases ih with rfl | ⟨child, slot, under⟩
  · exact ⟨x, held x p link, .refl x⟩
  · exact ⟨child, slot, .link link under⟩

theorem Tidy.of_leaf (leaf : t.children id = []) : t.Tidy id := by
  constructor <;> simp [leaf]

namespace Proper

variable (proper : t.Proper root) {form : Form NodeId}

include proper

theorem ne_root (other : ¬ (t.form id).IsProgram) : id ≠ root := by
  rintro rfl
  exact other proper.program

theorem congr (same : t.SameLinks t') (program : (t'.form root).IsProgram) : t'.Proper root :=
  ⟨same.rooted proper.rooted, proper.held.congr same, program⟩

theorem alloc {form : Form NodeId} (span : Span) (apart : ∀ child ∈ form.children, ¬ t.Below root child) :
    (t.alloc form span).2.Proper root := by
  refine ⟨proper.rooted.alloc proper.held span apart, proper.held.alloc form span, ?_⟩
  rw [alloc_form, if_neg (ne_of_fresh proper.rooted.inside .refl)]
  exact proper.program

theorem takenOut {list removed : NodeId} (out : t.TakenOut t' list removed) : t'.Proper root :=
  ⟨out.rooted proper.held proper.rooted, out.held proper.held, out.isProgram proper.program⟩

theorem removeStatement (statement : NodeId) : ((t.removeStatement? statement).getD t).Proper root := by
  cases done : t.removeStatement? statement with
  | none => exact proper
  | some t' =>
    obtain ⟨list, out⟩ := removeStatement?_takenOut done
    exact proper.takenOut out

/-- A tree that hangs nowhere may take the place of any node. -/
theorem replaceIfHeld {old new : NodeId} (loose : t.Rooted new) (different : root ≠ new) :
    (t.replaceIfHeld old new).Proper root := by
  unfold Tree.replaceIfHeld
  cases link : t.parent? old with
  | none => simpa [replace?, link] using proper
  | some parent =>
    obtain ⟨t', done, exchanged⟩ := replace?_exchanged proper.held link loose.inside fun holder held => by
      rw [loose.top] at held
      cases held
    rw [done]
    exact ⟨exchanged.rooted proper.held proper.rooted loose different, exchanged.held proper.held,
      exchanged.isProgram proper.program⟩

theorem replaceByLeaf (span : Span) (leaf : form.children = []) :
    ((t.alloc form span).2.replaceIfHeld id ⟨t.size⟩).Proper root := by
  have grown : (t.alloc form span).2.Proper root := proper.alloc span (by simp [leaf])
  have loose : (t.alloc form span).2.Rooted ⟨t.size⟩ := proper.held.rooted_alloc span (by simp [leaf]) (by simp [leaf])
  exact grown.replaceIfHeld loose (ne_of_fresh proper.rooted.inside .refl)

theorem setForm (below : t.Below root id) (offered : t.Offered root id form.children)
    (different : id ≠ root) : (t.setForm id form).Proper root := by
  refine ⟨proper.rooted.setForm below offered proper.held, proper.held.setForm (proper.rooted.index_lt below) form, ?_⟩
  rw [setForm_form, if_neg fun same => different same.1.symm]
  exact proper.program

/-- Another form with the same children is allowed everywhere but at the root. -/
theorem reshape (tidy : t.Tidy id) (same : form.children = t.children id)
    (different : id ≠ root) : (t.setForm id form).Proper root := by
  refine proper.congr (.setForm tidy same) ?_
  rw [setForm_form, if_neg fun same => different same.1.symm]
  exact proper.program

/-- A list keeps some of its statements. -/
theorem setStatements {list : NodeId} {kept : List NodeId} (below : t.Below root list)
    (sublist : kept.Sublist (t.statements list)) : (t.setStatements list kept).Proper root := by
  cases here : (t.form list).statementList? with
  | none =>
    unfold Tree.setStatements
    rwa [here]
  | some statements =>
    obtain ⟨before, children, changed⟩ := Form.withStatements_children here
    rw [statements_eq here] at sublist
    have offered : t.Offered root list ((t.form list).withStatements kept).children := by
      refine proper.rooted.offered_sublist below (.refl list) ?_
      rw [changed, Tree.children, children]
      exact sublist.append_left before
    have same := setStatements_sameLinks kept (proper.rooted.tidy list below) here
    have held := proper.held.setForm (proper.rooted.index_lt below) ((t.form list).withStatements kept)
    refine ⟨same.rooted (proper.rooted.setForm below offered proper.held), held.congr same, ?_⟩
    by_cases root' : root = list
    · exact root' ▸ setStatements_program kept (root' ▸ proper.program)
    · rw [setStatements_form_of_ne list kept root']
      exact proper.program

end Proper

end Tree

namespace Parse

variable {α β : Type}

/-- What holds of every result of a rule and the state it comes out in. -/
def Ends (x : Parse α) (holds : α → ParseState → Prop) : Prop :=
  ∀ s a s', x s = .ok a s' → holds a s'

theorem Ends.bind {x : Parse α} {f : α → Parse β} {holds : β → ParseState → Prop}
    (second : ∀ a, Ends (f a) holds) : Ends (x >>= f) holds := by
  intro s b s' run
  simp only [Bind.bind, EStateM.bind] at run
  split at run
  · exact second _ _ b s' run
  · cases run

theorem program_isProgram (settings : Settings) : Ends (program settings) fun r s => (s.tree.form r.1).IsProgram := by
  refine Ends.bind fun s => Ends.bind fun first => Ends.bind fun _ => Ends.bind fun scope => Ends.bind fun _ =>
    Ends.bind fun start => ?_
  extract_lets rest
  have behind (r : List NodeId × Option Failure) : Ends (rest r) fun r s => (s.tree.form r.1).IsProgram := by
    refine Ends.bind fun comments => Ends.bind fun span => ?_
    intro s a s' run
    obtain ⟨rfl, rfl⟩ := EStateM.Result.ok.inj run
    refine ⟨r.1 ++ comments, scope, ?_⟩
    show ((s.scanner.newFiles.foldl (fun t name => (t.addFile name).2)
      (s.tree.alloc (.program (r.1 ++ comments) scope) span).2).form ⟨s.tree.size⟩) = _
    rw [Tree.form, Tree.node?, Tree.foldl_addFile_nodes]
    exact (Tree.alloc_form ..).trans (if_pos rfl)
  split <;> exact .bind behind

end Parse

theorem parseChunk_isProgram (source fileName : String) (settings : Settings) :
    ((parseChunk source fileName settings {} {}).2.1.form (parseChunk source fileName settings {} {}).1.root).IsProgram := by
  dsimp only [parseChunk]
  split
  · rename_i root failure s result
    exact Parse.program_isProgram settings _ _ _ result
  · exact ⟨[], ScopeTree.global, (Tree.alloc_form ..).trans (if_pos rfl)⟩

theorem parse_proper (source : String) (settings : Settings) :
    (parse source settings).tree.Proper (parse source settings).root where
  rooted := parse_rooted source settings
  held := (parse_tied source settings).held
  program := by
    obtain ⟨statements, scope, form⟩ := parseChunk_isProgram source "input" settings
    exact ⟨statements, scope, (resolveNames_agrees ..).form_eq form nofun⟩

end Condense
