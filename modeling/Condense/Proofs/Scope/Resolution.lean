import Condense.Proofs.Scope.Reference
import Condense.Scope.Resolution

/-!
Resolving names links the fields of a scope tree and nothing else: every name is resolved to a field, the way to it is
linked, and what is found out of the body of a `with` statement is fixed.
-/

namespace Condense

open List

variable {t t' : ScopeTree}
variable {s scope : ScopeId} {o : FieldId} {name : String} {more : List ScopeId} (r : Resolution)

namespace ScopeTree

/-- Only blocks are ever taken out of use. -/
theorem Nested.live_of_kind (nested : t.Nested) (inside : s.index < t.scopes.size)
    (kind : (t.scope s).kind ≠ .block) : t.Live s := by
  refine ⟨inside, Bool.not_eq_true _ ▸ fun detached => ?_⟩
  exact kind (nested.detached_kind s detached)

theorem Linked.same (linked : t.Linked) (scopes : t'.scopes = t.scopes)
    (fields : t'.fields = t.fields) : t.Grows t' fun _ => False := by
  have field := field_congr fields
  have alike : t.Alike t' := ⟨scopes, congrArg _ fields, fun f => congrArg _ (field f)⟩
  have keeps : t.Keeps t' := by
    refine ⟨Nat.le_of_eq alike.size.symm, fun f _ => alike.position f, fun f _ => ?_⟩
    rw [field]
    exact id
  refine linked.kept (linked.toHeld.alike alike) ⟨keeps, congrArg _ scopes, fun s => congrArg _ (alike.scope s), ?_⟩
    alike.size
  intro old f
  rw [field]
  exact old f

theorem insertField_modify_last (t : ScopeTree) (new : Field) (f : Field → Field) (scope : (f new).scope = new.scope)
    (name : (f new).name = new.name) :
    (t.insertField new).2.modifyField ⟨t.fields.size⟩ f = (t.insertField (f new)).2 := by
  have pushed : (t.fields.push new).modify t.fields.size f = t.fields.push (f new) := by
    refine Array.ext_getElem? fun i => ?_
    rw [Array.getElem?_modify, Array.getElem?_push, Array.getElem?_push]
    split
    · rename_i last
      simp [last]
    · rename_i earlier
      rw [if_neg (Ne.symm earlier), if_neg (Ne.symm earlier)]
  simp only [insertField, modifyField, modifyScope, pushed, scope, name]

theorem insertField_modify_old (t : ScopeTree) (new : Field) {id : FieldId} (f : Field → Field)
    (old : id.index < t.fields.size) :
    (t.insertField new).2.modifyField id f = ((t.modifyField id f).insertField new).2 := by
  have pushed : (t.fields.push new).modify id.index f = (t.fields.modify id.index f).push new := by
    refine Array.ext_getElem? fun i => ?_
    rw [Array.getElem?_modify, Array.getElem?_push, Array.getElem?_push, Array.getElem?_modify, Array.size_modify]
    split
    · rw [if_neg (by omega), if_neg (by omega)]
    · rfl
  simp only [insertField, modifyField, modifyScope, pushed, Array.size_modify]

def pin (t : ScopeTree) (o : FieldId) : ScopeTree :=
  let kind := (t.field (t.outermost o)).kind
  if kind == .localName || kind == .argument || kind == .catchError then
    t.modifyField (t.outermost o) fun f => { f with canCrunch := false }
  else t

theorem Linked.pin (linked : t.Linked) (range : o.index < t.fields.size) :
    t.Grows (t.pin o) (fun _ => False) ∧ ((t.pin o).field ((t.pin o).outermost o)).Fixed := by
  dsimp only [ScopeTree.pin]
  split
  · have grows := linked.marked (t.outermost o) (fun f => { f with canCrunch := false }) (fun _ => rfl)
      fun _ _ => .inl rfl
    refine ⟨grows, ?_⟩
    rw [grows.extension.outermost range linked.toChained grows.linked.toChained,
      modifyField_field, if_pos ⟨rfl, (linked.outermost_ends range).inside⟩]
    exact .inl rfl
  · rename_i other
    refine ⟨.refl linked _, .inr ?_⟩
    simpa [and_assoc] using other

theorem pin_insertField (chained : t.Chained) {new : Field} (chained' : (t.insertField new).2.Chained)
    (unnamed : new.crunchedName = none) (range : o.index < t.fields.size) :
    (t.insertField new).2.pin o = ((t.pin o).insertField new).2 := by
  have root := (insertField_extends new unnamed).outermost range chained chained'
  have old := (chained.outermost_ends range).inside
  simp only [pin, root, t.insertField_field, if_neg (Nat.ne_of_lt old)]
  split
  · exact t.insertField_modify_old new _ old
  · rfl

/-- A field is added to the body of a `with` statement, and what it stands for is pinned. -/
theorem Linked.insertPinned (linked : t.Linked) (new : Field) (inside : new.scope.index < t.scopes.size)
    (inWith : (t.scope new.scope).kind = .withBody) (unnamed : new.crunchedName = none)
    (free : t.findLocal? new.scope new.name = none) (reaches : ∀ o ∈ new.outer, t.Reaches new.scope new.name o) :
    let made := (t.insertField new).2
    t.Grows (new.outer.elim made made.pin) (· = new.scope) ∧
      (new.outer.elim made made.pin).findLocal? new.scope new.name = some ⟨t.fields.size⟩ := by
  have live : t.Live new.scope := linked.nested.live_of_kind inside (by rw [inWith]; decide)
  have added {base : ScopeTree} (grows : t.Grows base fun _ => False)
      (pinned : ∀ o ∈ new.outer, (base.field (base.outermost o)).Fixed) :
      t.Grows (base.insertField new).2 (· = new.scope) ∧
        (base.insertField new).2.findLocal? new.scope new.name = some ⟨base.fields.size⟩ := by
    have extension := grows.extension
    have inside : new.scope.index < base.scopes.size := extension.size ▸ inside
    have live : base.Live new.scope := (live_congr extension.size extension.nesting _).mpr live
    have free := grows.free linked.toHeld id free
    have reaches o link := (reaches o link).kept extension.toKeeps (extension.stands _)
    refine ⟨(grows.mono fun _ => False.elim).trans ?_, ?_⟩
    · exact grows.linked.grows_insertField new inside unnamed (fun _ => live) free reaches fun _ => pinned
    · exact grows.linked.findLocal?_insertField new inside free
  cases outer : new.outer with
  | none => exact added (.refl linked _) (by simp [outer])
  | some o =>
    have range := (reaches o outer).inside
    have chained := linked.toChained.insertField new inside unnamed (fun _ => live) free reaches
    obtain ⟨grows, fixed⟩ := linked.pin range
    have size : (t.pin o).fields.size = t.fields.size := by
      dsimp only [ScopeTree.pin]
      split
      · exact modifyField_size ..
      · rfl
    simp only [Option.elim, t.pin_insertField linked.toChained chained unnamed range, ← size]
    refine added grows fun o' link => ?_
    obtain rfl := Option.some.inj (outer.symm.trans link)
    exact fixed

/-- A field is the first of a name outward from a scope, with no body of a `with` statement on the way. -/
def Nearest (t : ScopeTree) (scope : ScopeId) (name : String) (target : FieldId) : Prop :=
  ∃ path s more, t.ancestors scope = path ++ s :: more ∧ t.findLocal? s name = some target ∧
    ∀ x ∈ path, (t.scope x).kind ≠ .withBody ∧ t.findLocal? x name = none

theorem Grows.nearest {into : ScopeId → Prop} (grows : t.Grows t' into) (held : t.Held) {path : List ScopeId}
    (chain : t.ancestors scope = path ++ s :: more) {target : FieldId} (found : t'.findLocal? s name = some target)
    (open' : ∀ x ∈ path, (t.scope x).kind ≠ .withBody ∧ t.findLocal? x name = none) (outside : ∀ x ∈ path, ¬ into x) :
    t'.Nearest scope name target := by
  refine ⟨path, s, more, (grows.extension.stands scope).ancestors.trans chain, found, fun x member => ?_⟩
  rw [(grows.extension.stands x).kind]
  exact ⟨(open' x member).1, grows.free held (outside x member) (open' x member).2⟩

theorem Nearest.kept {target : FieldId} (nearest : t.Nearest scope name target)
    (held : t.Held) (grows : t.Grows t' fun _ => False) : t'.Nearest scope name target := by
  obtain ⟨path, s, more, chain, found, open'⟩ := nearest
  exact grows.nearest held chain (grows.found held found) open' fun _ _ => id

theorem Linked.reference_nearest (linked : t.Linked) {target : FieldId}
    (inside : scope.index < t.scopes.size) (nearest : t.Nearest scope name target) :
    t.Grows (t.reference scope target).2 (fun _ => True) ∧
      (t.reference scope target).2.findLocal? scope name = some (t.reference scope target).1 ∧
      t.Counts (t.reference scope target).2 (t.reference scope target).1 := by
  obtain ⟨path, s, more, chain, found, open'⟩ := nearest
  obtain ⟨range, rfl, rfl⟩ := linked.findLocal?_some found
  obtain ⟨grows, inner⟩ := linked.reference range inside chain fun x member => (open' x member).1
  exact ⟨grows.mono fun _ _ => trivial, inner⟩

end ScopeTree

namespace Resolution

theorem foundAt?_cons (t : ScopeTree) (x : ScopeId) (rest : List ScopeId) (name : String) :
    foundAt? t (x :: rest) name =
      if (t.findLocal? x name).isSome then some 0 else (foundAt? t rest name).map (· + 1) := by
  simp only [foundAt?, findIdx?_cons]

theorem foundAt?_eq_some (t : ScopeTree) {before : List ScopeId} (free : ∀ x ∈ before, t.findLocal? x name = none)
    (here : (t.findLocal? s name).isSome) : foundAt? t (before ++ s :: more) name = some before.length := by
  induction before with
  | nil => simp [foundAt?_cons, here]
  | cons x rest ih =>
    have tail := ih fun y member => free y (.tail _ member)
    simp [foundAt?_cons, free x (.head _), tail]

/-- A name is found nowhere on a chain, or at a place before which nothing has it. -/
theorem foundAt?_cases (t : ScopeTree) (chain : List ScopeId) (name : String) :
    (foundAt? t chain name = none ∧ ∀ x ∈ chain, t.findLocal? x name = none) ∨
      ∃ before s more, chain = before ++ s :: more ∧ foundAt? t chain name = some before.length ∧
        (t.findLocal? s name).isSome ∧ ∀ x ∈ before, t.findLocal? x name = none := by
  induction chain with
  | nil => exact .inl ⟨rfl, by simp⟩
  | cons x rest ih =>
    cases found : t.findLocal? x name with
    | some f =>
      have here : (t.findLocal? x name).isSome := by simp [found]
      have none : ∀ y ∈ ([] : List ScopeId), t.findLocal? y name = none := by simp
      exact .inr ⟨[], x, rest, rfl, foundAt?_eq_some t none here, here, none⟩
    | none =>
      rcases ih with ⟨absent, free⟩ | ⟨before, s, more, rfl, -, here, free⟩
      · exact .inl ⟨by simp [foundAt?_cons, found, absent], by simpa [found] using free⟩
      · have free : ∀ y ∈ x :: before, t.findLocal? y name = none := by simpa [found] using free
        exact .inr ⟨x :: before, s, more, rfl, foundAt?_eq_some t free here, here, free⟩

theorem idxOf?_append_cons {before : List ScopeId} (absent : s ∉ before) :
    (before ++ s :: more).idxOf? s = some before.length := by
  induction before with
  | nil => simp [List.idxOf?, findIdx?_cons]
  | cons x rest ih =>
    have apart : x ≠ s := fun same => absent (by simp [same])
    have tail := ih fun member => absent (.tail _ member)
    simp only [List.idxOf?, cons_append, findIdx?_cons] at tail ⊢
    simp [apart, tail]

/-- The `arguments` object is given to a function where the name is not found before. -/
theorem provideArguments_grows (linked : t.Linked) (inside : scope.index < t.scopes.size) (name : String) :
    let result := provideArguments t scope (t.ancestors scope) name (foundAt? t (t.ancestors scope) name)
    t.Grows result.2 (fun _ => True) ∧ result.1 = foundAt? result.2 (t.ancestors scope) name := by
  have nested := linked.nested
  have unchanged : t.Grows t (fun _ => True) := .refl linked _
  dsimp only [provideArguments]
  split
  · exact ⟨unchanged, rfl⟩
  · rename_i owner found
    split at found
    · obtain ⟨before, more, chain⟩ := append_of_mem (mem_of_find?_eq_some found)
      have live : t.Live owner := by
        refine nested.live_of_kind (nested.ancestors_inside inside (mem_of_find?_eq_some found)) ?_
        have isFunction := find?_some found
        simp only [Bool.and_eq_true, beq_iff_eq] at isFunction
        rw [isFunction.1]
        decide
      have absent := nested.not_mem_path inside chain
      have place : (t.ancestors scope).idxOf? owner = some before.length := by
        rw [chain]
        exact idxOf?_append_cons absent
      have given (own : t.findLocal? owner name = none) (free : ∀ x ∈ before, t.findLocal? x name = none) :
          t.Grows (t.createField owner name .arguments).2 (fun _ => True) ∧
            some before.length =
              foundAt? (t.createField owner name .arguments).2 (t.ancestors scope) name := by
        obtain ⟨grows, made⟩ := linked.createField .arguments live own
        refine ⟨grows.mono fun _ _ => trivial, ?_⟩
        rw [chain]
        refine (foundAt?_eq_some _ (fun x member => ?_) (by simp [made])).symm
        refine grows.free linked.toHeld ?_ (free x member)
        rintro rfl
        exact absent member
      rw [place]
      rcases foundAt?_cases t (t.ancestors scope) name with
        ⟨nowhere, free⟩ | ⟨before', s, more', chain', there, _, free⟩
      · rw [nowhere]
        rw [chain] at free
        exact given (free owner (by simp)) fun x member => free x (mem_append_left _ member)
      · rw [there]
        dsimp only
        split
        · rename_i nearer
          have shorter : before.length < before'.length := by simpa using nearer
          have same := chain.symm.trans chain'
          rcases append_eq_append_iff.mp same with ⟨rest, rfl, tail⟩ | ⟨rest, rfl, _⟩
          · cases rest with
            | nil => simp at shorter
            | cons y rest =>
              obtain ⟨rfl, -⟩ := List.cons.inj tail
              exact given (free owner (by simp)) fun x member => free x (mem_append_left _ member)
          · rw [length_append] at shorter
            omega
        · exact ⟨unchanged, there.symm⟩
    · cases found

/-- What a name in the body of a `with` statement is. -/
theorem withField_eq (scope : ScopeId) (name : String) (outer : Option FieldId) (span : Span) :
    let made := (r.scopes.insertField { name, kind := .withField, scope, outer }).2
    (r.withField scope name outer span).1 = ⟨r.scopes.fields.size⟩ ∧
      (r.withField scope name outer span).2.scopes = outer.elim made made.pin ∧
      (r.withField scope name outer span).2.tree = r.tree := by
  have made : (r.scopes.createField scope name .withField).2.modifyField
      (r.scopes.createField scope name .withField).1 (fun f => { f with outer }) =
        (r.scopes.insertField { name, kind := .withField, scope, outer }).2 :=
    r.scopes.insertField_modify_last _ (fun f => { f with outer }) rfl rfl
  simp only [withField, made]
  cases outer with
  | none => exact ⟨rfl, rfl, rfl⟩
  | some o =>
    simp only [Option.elim, ScopeTree.pin]
    split <;> exact ⟨rfl, rfl, rfl⟩

/-- The field of a name in the body of a `with` statement is linked to what the name means outside of it, which
keeps its name from then on. -/
theorem withField_grows (linked : r.scopes.Linked) {outer : Option FieldId} (span : Span)
    (inside : scope.index < r.scopes.scopes.size) (inWith : (r.scopes.scope scope).kind = .withBody)
    (free : r.scopes.findLocal? scope name = none) (reaches : ∀ o ∈ outer, r.scopes.Reaches scope name o) :
    r.scopes.Grows (r.withField scope name outer span).2.scopes (· = scope) ∧
      (r.withField scope name outer span).2.scopes.findLocal? scope name =
        some (r.withField scope name outer span).1 := by
  obtain ⟨first, scopes, -⟩ := r.withField_eq scope name outer span
  rw [first, scopes]
  exact linked.insertPinned { name, kind := .withField, scope, outer } inside inWith rfl free reaches

/-- The syntax tree stays as it is, and no reference is counted. -/
structure Uncounted (r r' : Resolution) : Prop where
  tree : r'.tree = r.tree
  refCount : ∀ f, (r'.scopes.field f).refCount = (r.scopes.field f).refCount

theorem Uncounted.trans {r r' r'' : Resolution} (first : r.Uncounted r') (second : r'.Uncounted r'') :
    r.Uncounted r'' :=
  ⟨second.tree.trans first.tree, fun f => (second.refCount f).trans (first.refCount f)⟩

/-- Besides, no field is added: fields are marked at most. -/
structure Marks (r r' : Resolution) : Prop extends Uncounted r r' where
  grows : r.scopes.Linked → r.scopes.Grows r'.scopes fun _ => False

theorem Marks.refl : r.Marks r :=
  ⟨⟨rfl, fun _ => rfl⟩, fun linked => .refl linked _⟩

theorem Marks.trans {r r' r'' : Resolution} (first : r.Marks r') (second : r'.Marks r'') : r.Marks r'' :=
  ⟨first.toUncounted.trans second.toUncounted,
    fun linked => (first.grows linked).trans (second.grows (first.grows linked).linked)⟩

theorem modifyField_marks (id : FieldId) (f : Field → Field) (identity : ∀ g, (f g).identity = g.identity)
    (fixed : ∀ g : Field, g.Fixed → (f g).Fixed) (refCount : ∀ g, (f g).refCount = g.refCount) :
    r.Marks { r with scopes := r.scopes.modifyField id f } :=
  ⟨⟨rfl, r.scopes.modifyField_keeps Field.refCount id f refCount⟩, fun linked => linked.marked id f identity fixed⟩

theorem report_marks (problem : Problem) (span : Span) : r.Marks (r.report problem span) :=
  ⟨⟨rfl, fun _ => rfl⟩, fun linked => .refl linked _⟩

theorem recordUndefined_marks (ref : UndefinedReference) (node : NodeId) : r.Marks (r.recordUndefined ref node) := by
  have kept (report : Bool) :
      (r.scopes.recordUndefined ref report).2.scopes = r.scopes.scopes ∧
        (r.scopes.recordUndefined ref report).2.fields = r.scopes.fields := by
    dsimp only [ScopeTree.recordUndefined]
    split <;> exact ⟨rfl, rfl⟩
  dsimp only [recordUndefined]
  split
  all_goals
    refine ⟨⟨rfl, fun f => ?_⟩, fun linked => linked.same (kept _).1 (kept _).2⟩
    simp only [report, ScopeTree.field, (kept _).2]

theorem markFunctionName_marks (function : NodeId) (name : String) : r.Marks (r.markFunctionName function name) := by
  unfold markFunctionName
  split
  · split
    · exact r.modifyField_marks _ _ (fun _ => rfl) (fun f fixed => fixed.imp_left fun kept => by simp [kept])
        fun _ => rfl
    · exact .refl r
  · exact .refl r

theorem checkFound_marks (id : FieldId) (ref : UndefinedReference) (node : NodeId) :
    r.Marks (r.checkFound id ref node) := by
  dsimp only [checkFound]
  split
  · split
    · exact .refl r
    · have ambiguous := r.modifyField_marks id (fun f => { f with isAmbiguous := true }) (fun _ => rfl)
        (fun _ fixed => fixed) fun _ => rfl
      split
      · exact (ambiguous.trans (markFunctionName_marks { r with scopes := _ } _ _)).trans (report_marks _ _ _)
      · exact ambiguous.trans (report_marks _ _ _)
  · split
    · exact r.recordUndefined_marks ref node
    · exact .refl r
  · exact .refl r

/-- A name that nothing declares becomes a field of the global scope. -/
theorem missing_grows (linked : r.scopes.Linked) {ref : UndefinedReference} (node : NodeId)
    (free : r.scopes.findLocal? ScopeTree.global ref.name = none) :
    r.scopes.Grows (r.missing ref node).2.scopes (· = ScopeTree.global) ∧
      (r.missing ref node).2.scopes.findLocal? ScopeTree.global ref.name = some (r.missing ref node).1 := by
  have live := linked.nested.rooted.1
  unfold missing
  split
  · exact linked.createField .predefined live free
  · obtain ⟨grows, found⟩ := linked.createField .global live free
    have more := (recordUndefined_marks { r with scopes := _ } ref node).grows grows.linked
    exact ⟨grows.trans (more.mono fun _ => False.elim), more.found grows.linked.toHeld found⟩

/-- The field that a name means, once it is known how far out it is found. -/
def meaning (r : Resolution) (node : NodeId) (ref : UndefinedReference) (chain : List ScopeId)
    (found : Option Nat) : FieldId × Resolution :=
  let crossed := chain.take (found.getD chain.length)
  let withScope := crossed.find? fun s => (r.scopes.scope s).kind == .withBody
  let field := found.bind fun i => chain[i]?.bind fun s => r.scopes.findLocal? s ref.name
  match withScope, field with
  | some withScope, outer => r.withField withScope ref.name outer ref.span
  | none, some field => (field, r.checkFound field ref node)
  | none, none => r.missing ref node

theorem missing_uncounted (ref : UndefinedReference) (node : NodeId) : r.Uncounted (r.missing ref node).2 := by
  have created (kind : FieldKind) (f : FieldId) :=
    r.scopes.insertField_refCount { name := ref.name, kind, scope := ScopeTree.global } rfl f
  unfold missing
  split
  · exact ⟨rfl, created _⟩
  · obtain ⟨tree, refCount⟩ := (recordUndefined_marks { r with scopes := _ } ref node).toUncounted
    exact ⟨tree, fun f => (refCount f).trans (created _ f)⟩

theorem withField_uncounted (scope : ScopeId) (name : String) (outer : Option FieldId) (span : Span) :
    r.Uncounted (r.withField scope name outer span).2 := by
  obtain ⟨-, scopes, tree⟩ := r.withField_eq scope name outer span
  have made (f : FieldId) :=
    r.scopes.insertField_refCount { name, kind := .withField, scope, outer } rfl f
  refine ⟨tree, fun f => ?_⟩
  rw [scopes, ← made]
  cases outer with
  | none => rfl
  | some o =>
    dsimp only [Option.elim, ScopeTree.pin]
    split
    · exact ScopeTree.modifyField_keeps _ Field.refCount _ (fun f => { f with canCrunch := false }) (fun _ => rfl) f
    · rfl

theorem meaning_uncounted (node : NodeId) (ref : UndefinedReference) (chain : List ScopeId)
    (found : Option Nat) : r.Uncounted (r.meaning node ref chain found).2 := by
  dsimp only [meaning]
  split
  · exact r.withField_uncounted _ _ _ _
  · exact (r.checkFound_marks _ _ _).toUncounted
  · exact r.missing_uncounted _ _

def meant (r : Resolution) (node : NodeId) (scope : ScopeId) (name : String) : FieldId × Resolution :=
  let chain := r.scopes.ancestors scope
  let given := provideArguments r.scopes scope chain name (foundAt? r.scopes chain name)
  meaning { r with scopes := given.2 } node
    { name, span := r.tree.span node, type := r.tree.referenceType node } chain given.1

theorem meant_uncounted (node : NodeId) (scope : ScopeId) (name : String) :
    r.Uncounted (r.meant node scope name).2 := by
  have given (chain : List ScopeId) (found : Option Nat) (f : FieldId) :
      ((provideArguments r.scopes scope chain name found).2.field f).refCount = (r.scopes.field f).refCount := by
    unfold provideArguments
    split
    · rfl
    · rename_i owner _
      have created := r.scopes.insertField_refCount { name, kind := .arguments, scope := owner } rfl f
      dsimp only
      split <;> split <;> first | exact created | rfl
  obtain ⟨tree, refCount⟩ := meaning_uncounted { r with scopes := _ } node _ (r.scopes.ancestors scope) _
  exact ⟨tree, fun f => (refCount f).trans (given _ _ f)⟩

theorem step_name (node : NodeId) (scope : ScopeId) : r.step (.name node scope) = r.resolveName node scope :=
  rfl

theorem resolveName_eq {node : NodeId} (scope : ScopeId)
    {old : Option FieldId} {how : ReferenceType} (form : r.tree.form node = .lookup name old how) :
    let result := r.meant node scope name
    let reference := result.2.scopes.reference scope result.1
    r.resolveName node scope = { result.2 with
        scopes := reference.2
        tree := r.tree.modifyForm node fun _ => .lookup name (some reference.1) (r.tree.referenceType node) } := by
  have tree := (r.meant_uncounted node scope name).tree
  have changed (f : Form NodeId → Form NodeId) :
      (r.meant node scope name).2.tree.modifyForm node f = r.tree.modifyForm node f := by
    rw [tree]
  rw [resolveName, form]
  dsimp only
  rw [← changed]
  rfl

section Meaning

variable (linked : r.scopes.Linked) (inside : scope.index < r.scopes.scopes.size)

include linked inside

theorem withField_nearest {w : ScopeId} {path : List ScopeId}
    {outer : Option FieldId} (span : Span) (chain : r.scopes.ancestors scope = path ++ w :: more)
    (inWith : (r.scopes.scope w).kind = .withBody) (free : r.scopes.findLocal? w name = none)
    (open' : ∀ x ∈ path, (r.scopes.scope x).kind ≠ .withBody ∧ r.scopes.findLocal? x name = none)
    (reaches : ∀ o ∈ outer, r.scopes.Reaches w name o) :
    let result := r.withField w name outer span
    r.scopes.Grows result.2.scopes (fun _ => True) ∧ result.2.scopes.Nearest scope name result.1 := by
  have insideW : w.index < r.scopes.scopes.size := linked.nested.ancestors_inside inside (by simp [chain])
  obtain ⟨grows, found⟩ := r.withField_grows linked span insideW inWith free reaches
  refine ⟨grows.mono fun _ _ => trivial, grows.nearest linked.toHeld chain found open' fun x member same => ?_⟩
  exact (open' x member).1 (same ▸ inWith)

theorem missing_nearest {ref : UndefinedReference} (node : NodeId)
    (open' : ∀ x ∈ r.scopes.ancestors scope,
      (r.scopes.scope x).kind ≠ .withBody ∧ r.scopes.findLocal? x ref.name = none) :
    let result := r.missing ref node
    r.scopes.Grows result.2.scopes (fun _ => True) ∧ result.2.scopes.Nearest scope ref.name result.1 := by
  have nested := linked.nested
  have outermost := nested.global_mem_ancestors inside
  obtain ⟨grows, found⟩ := r.missing_grows linked node (open' _ outermost).2
  obtain ⟨path, more, chain⟩ := append_of_mem outermost
  refine ⟨grows.mono fun _ _ => trivial, grows.nearest linked.toHeld chain found (fun x member => ?_) ?_⟩
  · exact open' x (by simp [chain, member])
  · rintro x member rfl
    exact nested.not_mem_path inside chain member

/-- What a name means is the first field of the name outward, up to the body of a `with` statement. -/
theorem meaning_nearest (node : NodeId) (ref : UndefinedReference) :
    let chain := r.scopes.ancestors scope
    let result := r.meaning node ref chain (foundAt? r.scopes chain ref.name)
    r.scopes.Grows result.2.scopes (fun _ => True) ∧ result.2.scopes.Nearest scope ref.name result.1 := by
  have nested := linked.nested
  intro chain
  rcases foundAt?_cases r.scopes chain ref.name with
    ⟨nowhere, free⟩ | ⟨before, s, more, split, there, here, free⟩
  · simp only [meaning, nowhere, Option.getD_none, take_length, Option.bind_none]
    cases crossed : chain.find? fun s => (r.scopes.scope s).kind == .withBody with
    | some w =>
      obtain ⟨inWith, path, more, split, plain⟩ := find?_eq_some_iff_append.mp crossed
      refine r.withField_nearest linked inside ref.span split (by simpa using inWith)
        (free w (by simp [split])) (fun x member => ⟨by simpa using plain x member, ?_⟩) (by simp)
      exact free x (by simp [split, member])
    | none =>
      refine r.missing_nearest linked inside node fun x member => ⟨?_, free x member⟩
      simpa using find?_eq_none.mp crossed x member
  · obtain ⟨f, found⟩ := Option.isSome_iff_exists.mp here
    have place : chain[before.length]? = some s := by simp [split]
    have start : chain.take before.length = before := by simp [split]
    simp only [meaning, there, Option.getD_some, Option.bind_some, place, start, found]
    cases crossed : before.find? fun s => (r.scopes.scope s).kind == .withBody with
    | some w =>
      obtain ⟨inWith, path, rest, split', plain⟩ := find?_eq_some_iff_append.mp crossed
      have whole : chain = path ++ w :: (rest ++ s :: more) := by simp [split, split']
      refine r.withField_nearest linked inside ref.span whole (by simpa using inWith)
        (free w (by simp [split'])) (fun x member => ⟨by simpa using plain x member, ?_⟩) ?_
      · exact free x (by simp [split', member])
      · rintro o ⟨⟩
        obtain ⟨range, rfl, named⟩ := linked.findLocal?_some found
        refine ⟨range, named, ?_, fun same => ?_, fun plain => absurd inWith (by simpa using plain)⟩
        · rw [nested.ancestors_suffix inside whole]
          simp
        · have none := free w (by simp [split'])
          rw [← same, found] at none
          cases none
    | none =>
      have grows := (r.checkFound_marks f ref node).grows linked
      have nearest : r.scopes.Nearest scope ref.name f := ⟨before, s, more, split, found, fun x member =>
        ⟨by simpa using find?_eq_none.mp crossed x member, free x member⟩⟩
      exact ⟨grows.mono fun _ => False.elim, nearest.kept linked.toHeld grows⟩

/-- What a name means is the first field of the name outward, once a function has its `arguments` object. -/
theorem meant_nearest (node : NodeId) (name : String) :
    r.scopes.Grows (r.meant node scope name).2.scopes (fun _ => True) ∧
      (r.meant node scope name).2.scopes.Nearest scope name (r.meant node scope name).1 := by
  obtain ⟨given, place⟩ := provideArguments_grows linked inside name
  unfold meant
  dsimp only at given place ⊢
  rw [place]
  generalize (provideArguments r.scopes scope (r.scopes.ancestors scope) name _).2 = base at given
  rw [← (given.extension.stands scope).ancestors]
  obtain ⟨meant, nearest⟩ := meaning_nearest { r with scopes := base } given.linked (given.extension.size ▸ inside) node
    { name, span := r.tree.span node, type := r.tree.referenceType node }
  exact ⟨given.trans meant, nearest⟩

end Meaning

end Resolution

end Condense
