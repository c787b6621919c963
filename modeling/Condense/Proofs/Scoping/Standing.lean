import Condense.Proofs.Compilation.References

/-!
Where names are looked for.
-/

namespace Condense

open List

namespace Tree

/-- What a node reaches, each with the scope that it stands in. -/
def StandsBelow (t : Tree) : NodeId × ScopeId → NodeId × ScopeId → Prop :=
  Relation.ReflTransGen fun holder child => child ∈ scopedChildren holder.2 (t.form holder.1)

variable {t t' : Tree}

theorem mem_children_of_scoped {holder child : NodeId × ScopeId}
    (slot : child ∈ scopedChildren holder.2 (t.form holder.1)) : child.1 ∈ t.children holder.1 := by
  rw [children, ← scopedChildren_fst holder.2]
  exact mem_map_of_mem slot

/-- Whatever a node reaches stands in a scope. -/
theorem Reaches.standsBelow {top x : NodeId} (reaches : t.Reaches top x) (scope : ScopeId) :
    ∃ inner, t.StandsBelow (top, scope) (x, inner) := by
  induction reaches with
  | refl => exact ⟨scope, .refl⟩
  | tail _ slot ih =>
    obtain ⟨inner, stands⟩ := ih
    rw [children, ← scopedChildren_fst inner] at slot
    obtain ⟨⟨_, own⟩, member, rfl⟩ := mem_map.1 slot
    exact ⟨own, stands.tail member⟩

theorem Agrees.standsBelow (agrees : t.Agrees t') {top x : NodeId × ScopeId} (stands : t'.StandsBelow top x) :
    t.StandsBelow top x := by
  refine Relation.ReflTransGen.mono (fun holder child slot => ?_) _ _ stands
  rwa [agrees.view (scopedChildren holder.2) fun _ _ _ => rfl] at slot

theorem StandsBelow.used (tied : t.Tied) {top x : NodeId × ScopeId} (stands : t.StandsBelow top x)
    (isName : (t.form x.1).isLookup) :
    ∃ steps, t.climb steps x.1 = some top.1 ∧
      ∀ depth, steps < depth → Use.name x.1 x.2 ∈ t.usesUpTo depth top.1 top.2 := by
  induction stands using Relation.ReflTransGen.head_induction_on with
  | refl =>
    refine ⟨0, rfl, fun depth enough => ?_⟩
    obtain ⟨depth, rfl⟩ := Nat.exists_eq_add_of_lt enough
    unfold usesUpTo
    split
    · exact .head _
    · cases form : t.form x.1 <;> simp_all [Form.isLookup]
  | @head holder child slot _ ih =>
    obtain ⟨steps, arrives, used⟩ := ih
    have link := (tied.tidy holder.1).linked child.1 (mem_children_of_scoped slot)
    refine ⟨steps + 1, by rw [climb_add, arrives]; simp [climb, link], fun depth enough => ?_⟩
    obtain ⟨depth, rfl⟩ : ∃ d, depth = d + 1 := ⟨depth - 1, by omega⟩
    unfold usesUpTo
    split
    · rename_i form
      rw [form] at slot
      cases slot
    · exact mem_append_right _ (mem_flatMap.2 ⟨child, slot, used depth (by omega)⟩)

end Tree

/-- A name that is used once gets the field that its scope has of the name, whatever is resolved before and after. -/
theorem Resolution.Ready.settles {r : Resolution} (ready : r.Ready) {uses : List Use}
    (inside : ∀ use ∈ uses, use.scope.index < r.scopes.scopes.size) (distinct : (uses.filterMap Use.node?).Nodup)
    {node : NodeId} {scope : ScopeId} (used : Use.name node scope ∈ uses) (isName : (r.tree.form node).isLookup) :
    ∃ name f how, (uses.foldl Resolution.step r).tree.form node = .lookup name (some f) how ∧
      (uses.foldl Resolution.step r).scopes.findLocal? scope name = some f := by
  obtain ⟨before, after, rfl⟩ := append_of_mem used
  have fresh : node ∉ before.filterMap Use.node? ∧ node ∉ after.filterMap Use.node? := by
    rw [filterMap_append, filterMap_cons_some (f := Use.node?) rfl, nodup_middle] at distinct
    simpa using (nodup_cons.1 distinct).1
  obtain ⟨started, grown⟩ := ready.run before fun use member => inside use (mem_append_left _ member)
  rw [← Resolution.run_form before r fresh.1] at isName
  rw [← grown.extension.size] at inside
  rw [foldl_append, foldl_cons]
  generalize before.foldl Resolution.step r = r at started isName inside
  have here := inside _ used
  obtain ⟨next, grows⟩ := started.step (.name node scope) here
  obtain ⟨-, more⟩ := next.run after fun use member => by
    rw [grows.extension.size]
    exact inside use (by simp [member])
  cases form : r.tree.form node with
  | lookup name old how =>
    obtain ⟨-, f, how', found, -, tree⟩ := started.resolveName scope here form
    refine ⟨name, f, how', ?_, more.found next.linked.toHeld found⟩
    have range : node.index < r.tree.size := Tree.index_lt_of_form (by simp [form])
    rw [Resolution.run_form after _ fresh.2, Resolution.step_name, tree, Tree.modifyForm_form, if_pos ⟨rfl, range⟩]
  | _ => simp [form, Form.isLookup] at isName

/-- In a parsed text every name has the field that the scope it stands in has of the name. -/
theorem parse_settles (source : String) (settings : Settings) :
    let parsed := parse source settings
    ∃ start, ∀ x scope, parsed.tree.StandsBelow (parsed.root, start) (x, scope) →
      (parsed.tree.form x).isLookup → ∃ name f how,
        parsed.tree.form x = .lookup name (some f) how ∧ parsed.scopes.findLocal? scope name = some f := by
  let _ := Outset.new
  have declared := parseChunk_declared source "input" settings Declared.new
  obtain ⟨tied, inside, top⟩ := parseChunk_tied source "input" settings
  dsimp only [parse]
  generalize parseChunk source "input" settings {} {} = chunk at declared tied inside top
  have rooted : chunk.2.1.Rooted chunk.1.root := ⟨top, inside, fun id _ => tied.tidy id⟩
  have agrees := resolveNames_agrees settings chunk.2.1 chunk.2.2 chunk.1.root
  obtain ⟨start, uses⟩ : ∃ start,
      chunk.2.1.uses chunk.1.root = chunk.2.1.usesUpTo (chunk.2.1.size + 1) chunk.1.root start := ⟨_, rfl⟩
  have distinct : ((chunk.2.1.uses chunk.1.root).filterMap Use.node?).Nodup := by
    rw [uses, Tree.usesUpTo_names, ← rooted.descendants_eq]
    exact rooted.descendants_nodup.filter _
  refine ⟨start, fun x scope stands isName => ?_⟩
  rw [agrees.view Form.isLookup fun _ _ _ => rfl] at isName
  obtain ⟨steps, arrives, used⟩ := (agrees.standsBelow stands).used tied isName
  have member : Use.name x scope ∈ chunk.2.1.uses chunk.1.root := by
    rw [uses]
    exact used _ (Nat.lt_succ_of_lt (rooted.steps_lt_size arrives))
  exact (declared.ready settings).settles (declared.uses_inside _) distinct member isName

/-- The field that a scope has of a name is one of its own exactly if it stands for no other. -/
theorem ScopeTree.Linked.own_iff {scopes : ScopeTree} (linked : scopes.Linked) {s : ScopeId} {name : String}
    {f : FieldId} (found : scopes.findLocal? s name = some f) :
    (scopes.field (scopes.outermost f)).scope = s ↔ (scopes.field f).outer = none := by
  obtain ⟨range, rfl, -⟩ := linked.findLocal?_some found
  refine ⟨fun inner => ?_, fun last => by rw [scopes.outermost_of_none last]⟩
  by_contra link
  have ends := linked.outermost_ends range
  exact linked.toChained.outermost_away range (fun self => link (self ▸ ends.last)) inner

/-- What a name means that stands in a scope which a node opens for one of its parts: the field that the scope has of
the name, and that field is one of the scope itself or leads further out. -/
theorem parse_entered (source : String) (settings : Settings) :
    let parsed := parse source settings
    let scopes := parsed.scopes
    ∀ node part own, parsed.tree.Reaches parsed.root node →
      (∀ outside, (part, own) ∈ Tree.scopedChildren outside (parsed.tree.form node)) →
      ∀ x, parsed.tree.StandsBelow (part, own) (x, own) → (parsed.tree.form x).isLookup = true →
        ∃ name f how, parsed.tree.form x = .lookup name (some f) how ∧ scopes.findLocal? own name = some f ∧
          (scopes.field (scopes.outermost f)).scope ∈ scopes.ancestors own ∧
          ((scopes.field (scopes.outermost f)).scope = own ↔ (scopes.field f).outer = none) := by
  intro parsed scopes node part own reaches enters x stands isName
  have linked : scopes.Linked := (parse_ready source settings).1
  obtain ⟨start, settles⟩ := parse_settles source settings
  obtain ⟨outside, above⟩ := reaches.standsBelow start
  obtain ⟨name, f, how, form, found⟩ := settles x own ((above.tail (enters outside)).trans stands) isName
  obtain ⟨range, here, -⟩ := linked.findLocal?_some found
  exact ⟨name, f, how, form, found, here ▸ (linked.outermost_ends range).outward, linked.own_iff found⟩

def Form.switchHead? : Form NodeId → Option (NodeId × ScopeId)
  | .switchStatement head _ own => own.map fun own => (head, own)
  | _ => none

theorem Form.mem_scopedChildren_of_switchHead? {form : Form NodeId} {head : NodeId × ScopeId}
    (found : form.switchHead? = some head) (outside : ScopeId) : head ∈ Tree.scopedChildren outside form := by
  cases form with
  | switchStatement discriminant cases own =>
    obtain ⟨own, rfl, rfl⟩ := Option.map_eq_some_iff.1 found
    exact .head _
  | _ => cases found

/-- A name in the head of a `switch` statement with declarations has the field that the statement itself has of the
name. So it means a declaration of the cases where there is one of the name, and else what is further out. -/
theorem parse_switch_head (source : String) (settings : Settings) :
    let parsed := parse source settings
    let scopes := parsed.scopes
    ∀ node head own, parsed.tree.Reaches parsed.root node → (parsed.tree.form node).switchHead? = some (head, own) →
      ∀ x, parsed.tree.StandsBelow (head, own) (x, own) → (parsed.tree.form x).isLookup = true →
        ∃ name f how, parsed.tree.form x = .lookup name (some f) how ∧ scopes.findLocal? own name = some f ∧
          (scopes.field (scopes.outermost f)).scope ∈ scopes.ancestors own ∧
          ((scopes.field (scopes.outermost f)).scope = own ↔ (scopes.field f).outer = none) := by
  intro parsed scopes node head own reaches isHead
  exact parse_entered source settings node head own reaches (Form.mem_scopedChildren_of_switchHead? isHead)

set_option maxRecDepth 100000 in
/-- The name means the declaration of the case, although there is one outside of the statement. -/
theorem parse_switch_head_hidden :
    let parsed := parse "let x;switch(x+1)\x7bcase 1:let x\x7d" {}
    let scopes := parsed.scopes
    (parsed.tree.form ⟨11⟩).switchHead? = some (⟨5⟩, ⟨1⟩) ∧ (⟨3⟩, ⟨1⟩) ∈ Tree.scopedChildren ⟨1⟩ (parsed.tree.form ⟨5⟩) ∧
      ∃ name f how, parsed.tree.form ⟨3⟩ = .lookup name (some f) how ∧ scopes.findLocal? ⟨1⟩ name = some f ∧
        (scopes.field (scopes.outermost f)).scope = ⟨1⟩ ∧ scopes.findLocal? ScopeTree.global name = some ⟨0⟩ := by
  have facts :
      let parsed := parse "let x;switch(x+1)\x7bcase 1:let x\x7d" {}
      let scopes := parsed.scopes
      ⟨11⟩ ∈ parsed.tree.children parsed.root ∧ (parsed.tree.form ⟨11⟩).switchHead? = some (⟨5⟩, ⟨1⟩) ∧
        (⟨3⟩, ⟨1⟩) ∈ Tree.scopedChildren ⟨1⟩ (parsed.tree.form ⟨5⟩) ∧ (parsed.tree.form ⟨3⟩).isLookup = true ∧
        (parsed.tree.form ⟨3⟩).reference? = some ⟨1⟩ ∧ (scopes.field ⟨1⟩).outer = none ∧
        scopes.findLocal? ⟨1⟩ "x" = some ⟨1⟩ ∧ scopes.findLocal? ScopeTree.global "x" = some ⟨0⟩ := by
    decide +kernel
  have meant := parse_switch_head "let x;switch(x+1)\x7bcase 1:let x\x7d" {}
  have linked := (parse_ready "let x;switch(x+1)\x7bcase 1:let x\x7d" {}).1
  -- nothing below is evaluated any more
  generalize parse "let x;switch(x+1)\x7bcase 1:let x\x7d" {} = parsed at facts meant linked ⊢
  obtain ⟨held, isHead, slot, isName, resolved, last, inner, outer⟩ := facts
  obtain ⟨name, f, how, form, found, -, declared⟩ :=
    meant ⟨11⟩ ⟨5⟩ ⟨1⟩ (.single held) isHead ⟨3⟩ (.single slot) isName
  obtain rfl : f = ⟨1⟩ := by simpa [form, Form.reference?] using resolved
  obtain rfl : name = "x" := (linked.findLocal?_some found).2.2.symm.trans (linked.findLocal?_some inner).2.2
  exact ⟨isHead, slot, "x", ⟨1⟩, how, form, found, declared.2 last, outer⟩

def Form.parameters? : Form NodeId → Option (List NodeId × ScopeId)
  | .function _ _ params _ _ _ own _ => some (params, own)
  | _ => none

theorem Form.mem_scopedChildren_of_parameters? {form : Form NodeId} {params : List NodeId} {own : ScopeId}
    (found : form.parameters? = some (params, own)) {param : NodeId} (member : param ∈ params) (outside : ScopeId) :
    (param, own) ∈ Tree.scopedChildren outside form := by
  cases form with
  | function kind binding params' body isAsync isGenerator own' nameScope =>
    cases found
    exact mem_map.2 ⟨param, by simp [children, member], rfl⟩
  | _ => cases found

/-- A name in the parameters of a function means what the scope of the function has of the name: a declaration of the
function, be it of the parameters or of the body, exactly if there is one, and else what is further out. -/
theorem parse_parameters (source : String) (settings : Settings) :
    let parsed := parse source settings
    let scopes := parsed.scopes
    ∀ node params own, parsed.tree.Reaches parsed.root node →
      (parsed.tree.form node).parameters? = some (params, own) → ∀ param ∈ params,
      ∀ x, parsed.tree.StandsBelow (param, own) (x, own) → (parsed.tree.form x).isLookup = true →
        ∃ name f how, parsed.tree.form x = .lookup name (some f) how ∧ scopes.findLocal? own name = some f ∧
          (scopes.field (scopes.outermost f)).scope ∈ scopes.ancestors own ∧
          ((scopes.field (scopes.outermost f)).scope = own ↔ (scopes.field f).outer = none) := by
  intro parsed scopes node params own reaches isFunction param member
  exact parse_entered source settings node param own reaches
    (Form.mem_scopedChildren_of_parameters? isFunction member)

set_option maxRecDepth 100000 in
/-- Nothing is wrong with the text, and the body alone declares what the name in the default value means, although there
is one outside of the function. -/
theorem parse_parameters_hoisted :
    let parsed := parse "var x=1;function f(a=x)\x7bvar x=2;return a+x\x7df()" {}
    let scopes := parsed.scopes
    parsed.diagnostics.isEmpty = true ∧ (parsed.tree.form ⟨17⟩).parameters? = some ([⟨7⟩], ⟨1⟩) ∧
      (⟨6⟩, ⟨1⟩) ∈ Tree.scopedChildren ⟨1⟩ (parsed.tree.form ⟨7⟩) ∧
      ∃ name f how, parsed.tree.form ⟨6⟩ = .lookup name (some f) how ∧ scopes.findLocal? ⟨1⟩ name = some f ∧
        (scopes.field (scopes.outermost f)).scope = ⟨1⟩ ∧ (scopes.field f).declarations = [parsed.tree.span ⟨8⟩] ∧
        scopes.findLocal? ScopeTree.global name = some ⟨0⟩ := by
  have facts :
      let parsed := parse "var x=1;function f(a=x)\x7bvar x=2;return a+x\x7df()" {}
      let scopes := parsed.scopes
      parsed.diagnostics.isEmpty = true ∧ ⟨17⟩ ∈ parsed.tree.children parsed.root ∧
        (parsed.tree.form ⟨17⟩).parameters? = some ([⟨7⟩], ⟨1⟩) ∧
        (⟨6⟩, ⟨1⟩) ∈ Tree.scopedChildren ⟨1⟩ (parsed.tree.form ⟨7⟩) ∧ (parsed.tree.form ⟨6⟩).isLookup = true ∧
        (parsed.tree.form ⟨6⟩).reference? = some ⟨3⟩ ∧ (scopes.field ⟨3⟩).outer = none ∧
        (scopes.field ⟨3⟩).declarations = [parsed.tree.span ⟨8⟩] ∧ scopes.findLocal? ⟨1⟩ "x" = some ⟨3⟩ ∧
        scopes.findLocal? ScopeTree.global "x" = some ⟨0⟩ := by
    decide +kernel
  have meant := parse_parameters "var x=1;function f(a=x)\x7bvar x=2;return a+x\x7df()" {}
  have linked := (parse_ready "var x=1;function f(a=x)\x7bvar x=2;return a+x\x7df()" {}).1
  -- nothing below is evaluated any more
  generalize parse "var x=1;function f(a=x)\x7bvar x=2;return a+x\x7df()" {} = parsed at facts meant linked ⊢
  obtain ⟨clean, held, isFunction, slot, isName, resolved, last, declared, inner, outer⟩ := facts
  obtain ⟨name, f, how, form, found, -, own⟩ :=
    meant ⟨17⟩ [⟨7⟩] ⟨1⟩ (.single held) isFunction ⟨7⟩ (.head _) ⟨6⟩ (.single slot) isName
  obtain rfl : f = ⟨3⟩ := by simpa [form, Form.reference?] using resolved
  obtain rfl : name = "x" := (linked.findLocal?_some found).2.2.symm.trans (linked.findLocal?_some inner).2.2
  exact ⟨clean, isFunction, slot, "x", ⟨3⟩, how, form, found, own.2 last, declared, outer⟩

end Condense
