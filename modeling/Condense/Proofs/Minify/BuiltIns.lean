import Condense.Minify.Shorten
import Condense.Proofs.Minify.Proper
import Condense.Proofs.Scoping.Resolved

/-!
Calls of built-in constructors that are written as literals.
-/

namespace Condense

variable {callee : NodeId} {form : Form NodeId}

namespace Shorten

/-- A name that means a predefined field. -/
structure IsPredefined (t : Tree) (scopes : ScopeTree) (id : NodeId) (name : String) (f : FieldId) : Prop where
  form : ∃ how, t.form id = .lookup name (some f) how
  kind : (scopes.field (scopes.outermost f)).kind = .predefined

/-- What a call was replaced for: a built-in constructor that is called, or the time that its new value tells. -/
def Replaced (t : Tree) (callee : NodeId) (isNew : Bool) (form : Form NodeId)
    (constructor : NodeId) (name : String) : Prop :=
  isNew = true ∧ constructor = callee ∧ (name = "Array" ∨ name = "Object") ∨
    isNew = false ∧ name = "Date" ∧
      ∃ object isOptional, form = .unary .plus object ∧ t.form object = .call constructor [] true isOptional

variable {t t' : Tree} {scopes : ScopeTree} {settings : Settings} {id : NodeId}

theorem isPredefined_of_isBuiltIn {name : String} (builtIn : isBuiltIn t scopes id name) :
    ∃ f, IsPredefined t scopes id name f := by
  unfold isBuiltIn at builtIn
  split at builtIn
  · rename_i found f how form
    simp only [Bool.and_eq_true, beq_iff_eq] at builtIn
    exact ⟨f, ⟨how, builtIn.1 ▸ form⟩, builtIn.2⟩
  · cases builtIn

/-- Forms that no rule applies to and that no rule asks for. -/
def IsResult : Form NodeId → Prop
  | .lookup .. | .call .. | .index .. | .constant _ => False
  | _ => True

/-- The constructor that a form is put in the place of a call for. -/
def Justified (t : Tree) (scopes : ScopeTree) (call form : Form NodeId) : Prop :=
  ∀ callee arguments isNew isOptional, call = .call callee arguments isNew isOptional →
    ∃ constructor name f, IsPredefined t scopes constructor name f ∧ Replaced t callee isNew form constructor name

theorem literalFor?_justified {arguments : List NodeId}
    (found : literalFor? settings scopes t callee arguments = some form) :
    IsResult form ∧ ∃ name f, IsPredefined t scopes callee name f ∧ (name = "Array" ∨ name = "Object") := by
  unfold literalFor? at found
  split at found
  · rename_i applies
    simp only [Bool.and_eq_true] at applies
    obtain ⟨f, predefined⟩ := isPredefined_of_isBuiltIn applies.2
    exact ⟨Option.some.inj found ▸ trivial, "Object", f, predefined, .inr rfl⟩
  · split at found
    · rename_i applies
      simp only [Bool.and_eq_true] at applies
      obtain ⟨f, predefined⟩ := isPredefined_of_isBuiltIn applies.1.2
      exact ⟨Option.some.inj found ▸ trivial, "Array", f, predefined, .inl rfl⟩
    · cases found

theorem currentTime?_justified (found : currentTime? scopes t callee = some form) : ∃ object constructor isOptional f,
      form = .unary .plus object ∧ t.form object = .call constructor [] true isOptional ∧
        IsPredefined t scopes constructor "Date" f := by
  unfold currentTime? at found
  split at found
  · rename_i object member
    split at found
    · rename_i constructor isOptional inner
      split at found
      · rename_i builtIn
        obtain ⟨f, predefined⟩ := isPredefined_of_isBuiltIn builtIn
        exact ⟨object, constructor, isOptional, f, (Option.some.inj found).symm, inner, predefined⟩
      · cases found
    · cases found
  · cases found

theorem shorter?_justified (found : shorter? settings scopes t id = some form) :
    IsResult form ∧ ¬ IsResult (t.form id) ∧ Justified t scopes (t.form id) form := by
  unfold shorter? at found
  split at found
  · rename_i object key isOptional here
    rw [here]
    split at found
    · split at found
      · split at found
        · exact ⟨Option.some.inj found ▸ trivial, fun none => none, nofun⟩
        · cases found
      · cases found
    · cases found
  · rename_i callee arguments isOptional here
    rw [here]
    split at found
    · obtain ⟨result, name, f, predefined, built⟩ := literalFor?_justified found
      refine ⟨result, fun none => none, ?_⟩
      rintro callee' - isNew - ⟨⟩
      exact ⟨callee, name, f, predefined, .inl ⟨rfl, rfl, built⟩⟩
    · cases found
  · rename_i callee here
    rw [here]
    split at found
    · obtain ⟨object, constructor, isOptional, f, rfl, inner, predefined⟩ := currentTime?_justified found
      refine ⟨trivial, fun none => none, ?_⟩
      rintro callee' - isNew - ⟨⟩
      exact ⟨constructor, "Date", f, predefined, .inr ⟨rfl, rfl, object, isOptional, rfl, inner⟩⟩
    · cases found
  · cases found

/-- A tree in which some nodes were given a shorter form, each of them once. -/
def Shortened (t t' : Tree) (scopes : ScopeTree) : Prop :=
  ∀ x, t'.form x = t.form x ∨ IsResult (t'.form x) ∧ Justified t scopes (t.form x) (t'.form x)

/-- What a rule asks for has the form it had at the beginning. -/
theorem Shortened.form_eq (shortened : Shortened t t' scopes) (asked : ¬ IsResult (t'.form id)) :
    t'.form id = t.form id :=
  (shortened id).resolve_right fun result => asked result.1

theorem Shortened.justified (shortened : Shortened t t' scopes) {call : Form NodeId}
    (justified : Justified t' scopes call form) : Justified t scopes call form := by
  intro callee arguments isNew isOptional isCall
  obtain ⟨constructor, name, f, ⟨⟨how, lookup⟩, kind⟩, replaced⟩ := justified callee arguments isNew isOptional isCall
  have before : t'.form constructor = _ := shortened.form_eq (by simp [lookup, IsResult])
  refine ⟨constructor, name, f, ⟨⟨how, before ▸ lookup⟩, kind⟩, ?_⟩
  rcases replaced with built | ⟨notNew, date, object, isOptional, unary, inner⟩
  · exact .inl built
  · have before : t'.form object = _ := shortened.form_eq (by simp [inner, IsResult])
    exact .inr ⟨notNew, date, object, isOptional, unary, before ▸ inner⟩

theorem Shortened.setForm (shortened : Shortened t t' scopes) (asked : ¬ IsResult (t'.form id)) (result : IsResult form)
    (justified : Justified t' scopes (t'.form id) form) : Shortened t (t'.setForm id form) scopes := by
  intro x
  rw [Tree.setForm_form]
  split
  · rename_i here
    rw [here.1, ← shortened.form_eq asked]
    exact .inr ⟨result, shortened.justified justified⟩
  · exact shortened x

theorem run_shortened (settings : Settings) (scopes : ScopeTree) (root : NodeId) (t : Tree) :
    Shortened t (run settings scopes root t).tree scopes := by
  have first : Shortened t (Changed.each (t.descendants root) (shorten settings scopes) t).tree scopes := by
    refine Changed.each_keeps (P := fun t' => Shortened t t' scopes) (fun _ => .inl rfl) fun t' id shortened => ?_
    refine Changed.ofOption_keeps (P := fun t' => Shortened t t' scopes) shortened fun t'' done => ?_
    obtain ⟨form, found, rfl⟩ := Option.map_eq_some_iff.1 done
    obtain ⟨result, asked, justified⟩ := shorter?_justified found
    exact shortened.setForm asked result justified
  dsimp only [run, Changed.andThen]
  generalize (Changed.each (t.descendants root) (shorten settings scopes) t).tree = t' at first
  split
  · refine Changed.each_keeps (P := fun t' => Shortened t t' scopes) first fun t' id shortened => ?_
    unfold unquote
    split
    · rename_i key name found
      obtain ⟨key', -, same⟩ := Option.map_eq_some_iff.1 found
      obtain ⟨rfl, form⟩ := Prod.mk.inj same
      split
      · exact shortened.setForm (by simp [form, IsResult]) trivial (by simp [form, Justified])
      · exact shortened
    · exact shortened
  · exact first

end Shorten

/-- A call is replaced only if the name of a built-in constructor leads to a predefined field, and no scope on the way
to that field declares the name. This is known up to the first body of a `with` statement on the way. -/
theorem shorten_predefined (source : String) (settings options : Settings) :
    let parsed := parse source settings
    let scopes := parsed.scopes
    let short := (Shorten.run options scopes parsed.root parsed.tree).tree
    ∀ id callee arguments isNew isOptional, parsed.tree.form id = .call callee arguments isNew isOptional →
      short.form id ≠ parsed.tree.form id →
        ∃ constructor name f, Shorten.IsPredefined parsed.tree scopes constructor name f ∧
          Shorten.Replaced parsed.tree callee isNew (short.form id) constructor name ∧
          ∀ s ∈ scopes.ancestors (scopes.field f).scope,
            (scopes.field (scopes.outermost f)).scope ∈ scopes.ancestors s →
            (∀ x ∈ scopes.ancestors (scopes.field f).scope, s ∈ scopes.ancestors x → x ≠ s →
              (scopes.scope x).kind ≠ .withBody) →
              ∃ h, scopes.findLocal? s (scopes.field f).name = some h ∧ scopes.outermost h = scopes.outermost f := by
  intro parsed scopes short id callee arguments isNew isOptional call changed
  obtain ⟨linked, -, resolved⟩ := parse_ready source settings
  have justified := ((Shorten.run_shortened options scopes parsed.root parsed.tree id).resolve_left changed).2
  obtain ⟨constructor, name, f, predefined, replaced⟩ := justified callee arguments isNew isOptional call
  obtain ⟨how, form⟩ := predefined.form
  have range := resolved constructor f (by rw [form]; rfl)
  exact ⟨constructor, name, f, predefined, replaced, fun s above between plain =>
    linked.seen_on_the_way range above between plain⟩

def Form.call? : Form NodeId → Option (NodeId × List NodeId × Bool × Bool)
  | .call callee arguments isNew isOptional => some (callee, arguments, isNew, isOptional)
  | _ => none

theorem Form.eq_of_call? {arguments : List NodeId} {isNew isOptional : Bool}
    (found : form.call? = some (callee, arguments, isNew, isOptional)) :
    form = .call callee arguments isNew isOptional := by
  cases form with
  | call => simpa [call?] using found
  | _ => cases found

set_option maxRecDepth 100000 in
/-- A call in the body of a `with` statement is replaced, whatever the object holds, since the constructor is mentioned
before. -/
theorem shorten_predefined_in_with :
    let parsed := parse "Array;with(o)new Array" {}
    let scopes := parsed.scopes
    let short := (Shorten.run {} scopes parsed.root parsed.tree).tree
    (parsed.tree.form ⟨3⟩).call? = some (⟨2⟩, [], true, false) ∧ (short.form ⟨3⟩).call? = none ∧
      ∃ name f, Shorten.IsPredefined parsed.tree scopes ⟨2⟩ name f ∧
        (scopes.scope (scopes.field f).scope).kind = .withBody := by
  have facts :
      let parsed := parse "Array;with(o)new Array" {}
      let scopes := parsed.scopes
      let short := (Shorten.run {} scopes parsed.root parsed.tree).tree
      (parsed.tree.form ⟨3⟩).call? = some (⟨2⟩, [], true, false) ∧ (short.form ⟨3⟩).call? = none ∧
        (parsed.tree.form ⟨2⟩).reference? = some ⟨2⟩ ∧ (scopes.scope (scopes.field ⟨2⟩).scope).kind = .withBody := by
    decide +kernel
  have replaced := shorten_predefined "Array;with(o)new Array" {} {}
  -- nothing below is evaluated any more
  generalize parse "Array;with(o)new Array" {} = parsed at facts replaced ⊢
  obtain ⟨call, short, resolved, inWith⟩ := facts
  have form := Form.eq_of_call? call
  have changed : (Shorten.run {} parsed.scopes parsed.root parsed.tree).tree.form ⟨3⟩ ≠ parsed.tree.form ⟨3⟩ := by
    intro same
    rw [same, call] at short
    cases short
  obtain ⟨constructor, name, f, predefined, isNew | isOld, -⟩ := replaced ⟨3⟩ ⟨2⟩ [] true false form changed
  · obtain ⟨-, rfl, -⟩ := isNew
    obtain ⟨how, lookup⟩ := predefined.form
    obtain rfl : f = ⟨2⟩ := by simpa [lookup, Form.reference?] using resolved
    exact ⟨call, short, name, ⟨2⟩, predefined, inWith⟩
  · cases isOld.1

end Condense
