import Mathlib.Data.List.Forall2
import Condense.Output.Emission
import Condense.Proofs.Decimal.Printed
import Condense.Proofs.Ownership.Resolved
import Condense.Proofs.Syntax.Edits

/-!
JSON output. A text that is one literal becomes a JSON text that stands for the same value; any other text is refused.
-/

namespace Condense

open JsonText List Option

variable {write : NodeId → String} {c : Style} {root : NodeId}

namespace Tree

/-- The name that a property key stands for. -/
inductive KeyNames (t : Tree) (key : NodeId) : String → Prop
  | word {name : String} : t.form key = .propertyName name → t.KeyNames key name
  | string {name : String} : t.form key = .constant (.string name) → t.KeyNames key name
  | number {x : Float} : t.form key = .constant (.number x) → x.isFinite = true → t.KeyNames key (numberText x)

mutual

/-- The value that a literal stands for. Parentheses around it do not matter. -/
inductive Denotes (t : Tree) : NodeId → JsonValue → Prop
  | grouping {id inner : NodeId} {v : JsonValue} : t.form id = .grouping inner → t.Denotes inner v → t.Denotes id v
  | null {id : NodeId} : t.form id = .constant .null → t.Denotes id .null
  | boolean {id : NodeId} {b : Bool} : t.form id = .constant (.boolean b) → t.Denotes id (.boolean b)
  | string {id : NodeId} {s : String} : t.form id = .constant (.string s) → t.Denotes id (.string s)
  | number {id : NodeId} {x : Float} : t.form id = .constant (.number x) → x.isFinite = true →
    t.Denotes id (.number (decimalValue (numberText x).toList))
  | negative {id operand : NodeId} {x : Float} : t.form id = .unary .minus operand →
    t.form operand = .constant (.number x) → x.isFinite = true →
    t.Denotes id (.number (-decimalValue (numberText x).toList))
  | array {id : NodeId} {elements : List (Option NodeId)} {items : List JsonValue} :
    t.form id = .arrayLiteral elements → t.DenotesItems elements items → t.Denotes id (.array items)
  | object {id : NodeId} {properties : List NodeId} {b : Bool} {members : List (String × JsonValue)} :
    t.form id = .objectLiteral properties b → t.DenotesMembers properties members → t.Denotes id (.object members)

/-- The values that elements stand for, none of which is left out. -/
inductive DenotesItems (t : Tree) : List (Option NodeId) → List JsonValue → Prop
  | nil : t.DenotesItems [] []
  | cons {id : NodeId} {v : JsonValue} {elements : List (Option NodeId)} {items : List JsonValue} :
    t.Denotes id v → t.DenotesItems elements items → t.DenotesItems (some id :: elements) (v :: items)

/-- The names and values that properties stand for. -/
inductive DenotesMembers (t : Tree) : List NodeId → List (String × JsonValue) → Prop
  | nil : t.DenotesMembers [] []
  | cons {id key value : NodeId} {name : String} {v : JsonValue} {properties : List NodeId}
      {members : List (String × JsonValue)} :
    t.form id = .property key value .init false → t.KeyNames key name → t.Denotes value v →
    t.DenotesMembers properties members → t.DenotesMembers (id :: properties) ((name, v) :: members)

end

/-- Whether the statement list of `root` is one literal, empty statements aside. -/
def IsLiteral (t : Tree) (root : NodeId) (v : JsonValue) : Prop :=
  ∃ before only after, t.statements root = before ++ only :: after ∧ (∀ id ∈ before ++ after, t.form id = .empty) ∧
    t.Denotes only v

/-- Whether no number of the tree has a sign. -/
def Unsigned (t : Tree) : Prop :=
  ∀ id x, t.form id = .constant (.number x) → Condense.Unsigned x

variable {t : Tree}

theorem jsonKey?_eq_some {key : NodeId} {name : String} : t.jsonKey? key = some name ↔ t.KeyNames key name := by
  constructor
  · intro found
    unfold jsonKey? at found
    split at found
    · rename_i form
      cases found
      exact .word form
    · rename_i form
      cases found
      exact .string form
    · rename_i form
      split at found
      · rename_i finite
        cases found
        exact .number form finite
      · cases found
    · cases found
  · intro names
    cases names with
    | word form | string form => simp [jsonKey?, form]
    | number form finite => simp [jsonKey?, form, finite]

end Tree

theorem spells_numberText {x : Float} (finite : x.isFinite) :
    Spells (jsonNumberText x).toList (.number (decimalValue (numberText x).toList)) := by
  rw [← decimalValue_jsonNumberText finite]
  exact .number (number_jsonNumberText finite)

/-- A number that has no sign may get one. -/
theorem spells_negative {x : Float} (finite : x.isFinite) (unsigned : Unsigned x) :
    Spells ("-" ++ jsonNumberText x).toList (.number (-decimalValue (numberText x).toList)) := by
  obtain ⟨number, value⟩ := number_minus finite unsigned
  rw [← value, String.toList_append]
  exact .number number

namespace Tree

variable {t : Tree}

theorem denotes_unwrapUpTo {steps : Nat} {id : NodeId} {v : JsonValue} (denotes : t.Denotes (t.unwrapUpTo steps id) v) :
    t.Denotes id v := by
  induction steps generalizing id with
  | zero => exact denotes
  | succ steps ih =>
    unfold unwrapUpTo at denotes
    split at denotes
    · rename_i form
      exact .grouping form (ih denotes)
    · exact denotes

theorem unwrapGrouping_of_other {id : NodeId} (other : ∀ inner, t.form id ≠ .grouping inner) :
    t.unwrapGrouping id = id := by
  unfold unwrapGrouping
  cases t.size with
  | zero => rfl
  | succ size =>
    rw [unwrapUpTo]
    split
    · rename_i inner form
      exact absurd form (other inner)
    · rfl

theorem intercalate_comma (text : List Char) (texts : List (List Char)) :
    [','].intercalate (text :: texts) = text ++ texts.flatMap (',' :: ·) := by
  induction texts generalizing text with
  | nil => simp
  | cons next texts ih => simp [intercalate_cons_cons, ih]

/-- The text of a property is that of its key and its value, with a comma before all but the first. -/
theorem join_jsonMember {properties : List NodeId} {texts : List String}
    (each : List.Forall₂ (fun property text => ∀ index,
      t.jsonMember write index property = (if index > 0 then "," else "") ++ text) properties texts) :
    (String.join (properties.mapIdx (t.jsonMember write))).toList = [','].intercalate (texts.map String.toList) := by
  have later {properties : List NodeId} {texts : List String} (each : List.Forall₂ (fun property text => ∀ index,
      t.jsonMember write index property = (if index > 0 then "," else "") ++ text) properties texts) (k : Nat) :
      (String.join (properties.mapIdx fun i => t.jsonMember write (i + k + 1))).toList =
        texts.flatMap fun text => ',' :: text.toList := by
    induction each generalizing k with
    | nil => rfl
    | cons first _ ih =>
      have rest := ih (k + 1)
      simp only [String.toList_join, mapIdx_cons, flatMap_cons, first, ← Nat.add_assoc] at rest ⊢
      rw [← rest]
      simp [Nat.add_right_comm]
  cases each with
  | nil => rfl
  | @cons _ text _ texts first rest =>
    rw [map_cons, intercalate_comma, flatMap_map, ← later rest 0, mapIdx_cons, String.toList_join,
      String.toList_join, flatMap_cons, first]
    simp

section

variable {depth : Nat} (each : ∀ {id}, t.isJsonValueUpTo depth id = true → ∃ v, t.Denotes id v ∧ Spells (write id).toList v)

include each

/-- What is written for elements, if each element is written as the value it stands for. -/
theorem spells_items {elements : List (Option NodeId)}
    (tested : elements.all fun element => element.any (t.isJsonValueUpTo depth)) :
    ∃ values, t.DenotesItems elements values ∧ List.Forall₂ Spells
      (((elements.filterMap fun element => element).map write).map String.toList) values := by
  induction elements with
  | nil => exact ⟨[], .nil, .nil⟩
  | cons element elements ih =>
    rw [all_cons, Bool.and_eq_true] at tested
    obtain ⟨first, rest⟩ := tested
    obtain ⟨values, denotes, spells⟩ := ih rest
    cases element with
    | none => cases first
    | some id =>
      obtain ⟨v, here, spelled⟩ := each first
      exact ⟨v :: values, .cons here denotes, .cons spelled spells⟩

/-- What is written for properties, if each value is written as the value it stands for. -/
theorem spells_members {properties : List NodeId} (tested : properties.all fun property =>
      match t.form property with
      | .property key value .init false => (t.jsonKey? key).isSome && t.isJsonValueUpTo depth value
      | _ => false) :
    ∃ members texts, t.DenotesMembers properties members ∧
      List.Forall₂ SpellsMember (texts.map String.toList) members ∧
      List.Forall₂ (fun property text => ∀ index,
        t.jsonMember write index property = (if index > 0 then "," else "") ++ text) properties texts := by
  induction properties with
  | nil => exact ⟨[], [], .nil, .nil, .nil⟩
  | cons property properties ih =>
    rw [all_cons, Bool.and_eq_true] at tested
    obtain ⟨first, rest⟩ := tested
    obtain ⟨members, texts, denotes, spells, written⟩ := ih rest
    split at first
    · rename_i key value form
      rw [Bool.and_eq_true] at first
      obtain ⟨name, names⟩ := isSome_iff_exists.1 first.1
      obtain ⟨v, here, spelled⟩ := each first.2
      refine ⟨(name, v) :: members, (Json.quote name ++ ":" ++ write value) :: texts,
        .cons form (jsonKey?_eq_some.1 names) here denotes, .cons ?_ spells, .cons (fun index => ?_) written⟩
      · exact ⟨(Json.quote name).toList, (write value).toList, by simp, quotes_quote name, spelled⟩
      · simp [jsonMember, form, names]
    · cases first

end

/-- The test and the text agree: what is written for a node that passes the test, with one step more for a sign, is
the text of the value that the node stands for. -/
theorem spells_jsonValueUpTo (unsigned : t.Unsigned) {depth : Nat} {id : NodeId}
    (tested : t.isJsonValueUpTo depth id = true) :
    ∃ v, t.Denotes id v ∧ Spells (t.jsonValueUpTo (depth + 1) id).toList v := by
  induction depth generalizing id with
  | zero => cases tested
  | succ depth ih =>
    suffices ∃ v, t.Denotes (t.unwrapGrouping id) v ∧ Spells (t.jsonValueUpTo (depth + 2) id).toList v by
      obtain ⟨v, denotes, spells⟩ := this
      exact ⟨v, denotes_unwrapUpTo denotes, spells⟩
    unfold isJsonValueUpTo at tested
    unfold jsonValueUpTo
    generalize t.unwrapGrouping id = id at tested
    split at tested
    · rename_i x form
      rw [form]
      exact ⟨_, .number form tested, spells_numberText tested⟩
    · rename_i form
      rw [form]
      exact ⟨_, .string form, .string (quotes_quote _)⟩
    · rename_i b form
      rw [form]
      refine ⟨_, .boolean form, ?_⟩
      cases b with
      | true =>
        show Spells "true".toList _
        exact .true
      | false =>
        show Spells "false".toList _
        exact .false
    · rename_i form
      rw [form]
      refine ⟨_, .null form, ?_⟩
      show Spells "null".toList _
      exact .null
    · rename_i operand form
      split at tested
      · rename_i x number
        have bare : t.unwrapGrouping operand = operand := unwrapGrouping_of_other (by simp [number])
        rw [form]
        refine ⟨_, .negative form number tested, ?_⟩
        dsimp only
        rw [jsonValueUpTo, bare, number]
        exact spells_negative tested (unsigned operand x number)
      · cases tested
    · rename_i elements form
      obtain ⟨values, denotes, spells⟩ := spells_items ih tested
      rw [form]
      refine ⟨_, .array form denotes, ?_⟩
      dsimp only
      rw [String.toList_append, String.toList_append, String.toList_intercalate]
      cases texts : (elements.filterMap fun element => element).map (t.jsonValueUpTo (depth + 1)) with
      | nil =>
        rw [texts] at spells
        cases spells
        exact .emptyArray space_nil
      | cons text more =>
        rw [texts] at spells
        exact .array (items_intercalate spells (cons_ne_nil _ _))
    · rename_i properties b form
      obtain ⟨members, texts, denotes, spells, written⟩ := spells_members ih tested
      rw [form]
      refine ⟨_, .object form denotes, ?_⟩
      dsimp only
      rw [String.toList_append, String.toList_append, join_jsonMember written]
      cases texts with
      | nil =>
        cases spells
        exact .emptyObject space_nil
      | cons text texts => exact .object (members_intercalate spells (cons_ne_nil _ _))
    · cases tested

theorem unwrapGrouping_grouping (rooted : t.Rooted root) {n : Nat} {id inner : NodeId} (arrives : t.climb n id = some root)
    (form : t.form id = .grouping inner) : t.unwrapGrouping id = t.unwrapGrouping inner := by
  have passed := rooted.steps_lt_size arrives
  obtain ⟨size, more⟩ : ∃ size, t.size = size + 1 := ⟨t.size - 1, by omega⟩
  have slot : inner ∈ t.children id := by simp [children, form, Form.children]
  have enough : t.size ≤ size + (n + 1) := by omega
  have same := rooted.unwrapUpTo_succ (rooted.climb_child arrives slot) enough
  rw [unwrapGrouping, unwrapGrouping, more, same, unwrapUpTo, form]

theorem DenotesItems.tested {test : NodeId → Bool} {elements : List (Option NodeId)} {items : List JsonValue}
    (each : ∀ id v, some id ∈ elements → t.Denotes id v → test id = true) (denotes : t.DenotesItems elements items) :
    elements.all (fun element => element.any test) = true := by
  induction elements generalizing items with
  | nil => rfl
  | cons element elements ih =>
    cases denotes with
    | @cons id v _ _ first rest =>
      rw [all_cons, Bool.and_eq_true]
      exact ⟨each id v (.head _) first, ih (fun id v member => each id v (.tail _ member)) rest⟩

theorem DenotesMembers.property {properties : List NodeId} {members : List (String × JsonValue)}
    (denotes : t.DenotesMembers properties members) {id : NodeId} (member : id ∈ properties) :
    ∃ key value name v, t.form id = .property key value .init false ∧ t.KeyNames key name ∧ t.Denotes value v := by
  induction properties generalizing members with
  | nil => cases member
  | cons property properties ih =>
    cases denotes with
    | @cons _ key value name v _ _ form names first rest =>
      rcases mem_cons.1 member with rfl | member
      · exact ⟨key, value, name, v, form, names, first⟩
      · exact ih rest member

/-- Every literal passes the test: no way down from a node is longer than there are nodes that are not passed yet. -/
theorem isJsonValueUpTo_of_denotes (rooted : t.Rooted root) {left depth n : Nat} {id : NodeId} {v : JsonValue}
    (bound : t.size ≤ left + n) (arrives : t.climb n id = some root) (enough : t.size ≤ depth + n)
    (denotes : t.Denotes id v) : t.isJsonValueUpTo (depth + 1) id = true := by
  induction left generalizing depth n id v with
  | zero =>
    have passed := rooted.steps_lt_size arrives
    omega
  | succ left ih =>
    have passed := rooted.steps_lt_size arrives
    cases denotes with
    | @grouping _ inner _ form inside =>
      have slot : inner ∈ t.children id := by simp [children, form, Form.children]
      have tested := @ih depth _ _ _ (by omega) (rooted.climb_child arrives slot) (by omega) inside
      rw [isJsonValueUpTo] at tested ⊢
      rwa [unwrapGrouping_grouping rooted arrives form]
    | null form | boolean form | string form =>
      rw [isJsonValueUpTo, unwrapGrouping_of_other (by simp [form]), form]
    | number form finite => rwa [isJsonValueUpTo, unwrapGrouping_of_other (by simp [form]), form]
    | negative form number finite =>
      rw [isJsonValueUpTo, unwrapGrouping_of_other (by simp [form]), form]
      dsimp only
      rwa [number]
    | @array _ elements items form denotes =>
      obtain ⟨depth, rfl⟩ : ∃ less, depth = less + 1 := ⟨depth - 1, by omega⟩
      rw [isJsonValueUpTo, unwrapGrouping_of_other (by simp [form]), form]
      refine denotes.tested fun child v member denotes => ?_
      have slot : child ∈ t.children id := by simpa [children, form, Form.children] using member
      exact ih (by omega) (rooted.climb_child arrives slot) (by omega) denotes
    | @object _ properties b members form denotes =>
      obtain ⟨depth, rfl⟩ : ∃ less, depth = less + 1 := ⟨depth - 1, by omega⟩
      rw [isJsonValueUpTo, unwrapGrouping_of_other (by simp [form]), form]
      refine all_eq_true.2 fun property member => ?_
      obtain ⟨key, value, name, v, inside, names, denotes⟩ := denotes.property member
      have slot : property ∈ t.children id := by simpa [children, form, Form.children] using member
      have slot' : value ∈ t.children property := by simp [children, inside, Form.children]
      rw [inside]
      simp only [jsonKey?_eq_some.2 names, isSome_some, Bool.true_and]
      exact ih (by omega) (rooted.climb_child (rooted.climb_child arrives slot) slot') (by omega) denotes

end Tree

/-- The numbers of a parsed text have no sign if no marker of it is replaced. -/
theorem unsigned_parse {source : String} {settings : Settings}
    (unmarked : settings.hasReplacements = false ∨ Scanner.MarkerFree source.toList) :
    (parse source settings).tree.Unsigned := by
  have unsigned : (parseChunk source "input" settings {} {}).2.1.Unsigned := by
    intro id x number
    rcases parseChunk_writes source "input" settings {} {} false (fun _ => unmarked) id with same | written
    · rw [same] at number
      simp [Tree.form, Tree.node?] at number
    · have unsigned : (Form.constant (.number x)).Written false := number ▸ written
      exact unsigned rfl
  intro id x number
  rcases (resolveNames_agrees ..).form id with same | ⟨name, field, type, _, _, -, new⟩
  · exact unsigned id x (same.symm.trans number)
  · cases new.symm.trans number

theorem form_ne_empty {t : Tree} {id : NodeId} {v : JsonValue} (denotes : t.Denotes id v) : t.form id ≠ .empty := by
  intro empty
  cases denotes <;> simp_all

/-- What produces output is one node exactly where all other statements are empty. -/
theorem visible_eq_singleton {statements : List NodeId} {only : NodeId}
    (shown : c.tree.form only ≠ .empty) : c.visible statements = [only] ↔
      ∃ before after, statements = before ++ only :: after ∧ ∀ id ∈ before ++ after, c.tree.form id = .empty := by
  obtain ⟨shows, visible, kept⟩ : ∃ shows : NodeId → Bool, c.visible statements = statements.filter shows ∧
      ∀ {id}, shows id = false ↔ c.tree.form id = .empty := by
    refine ⟨_, rfl, @fun id => ?_⟩
    cases c.tree.form id <;> simp
  rw [visible, filter_eq_cons_iff]
  constructor
  · rintro ⟨before, after, rfl, first, -, rest⟩
    refine ⟨before, after, rfl, ?_⟩
    intro id member
    rcases mem_append.1 member with member | member
    · exact kept.1 (Bool.eq_false_iff.2 (first id member))
    · exact kept.1 (Bool.eq_false_iff.2 (filter_eq_nil_iff.1 rest id member))
  · rintro ⟨before, after, rfl, empty⟩
    refine ⟨before, after, rfl, ?_, ?_, ?_⟩
    · intro id member
      exact Bool.eq_false_iff.1 (kept.2 (empty id (mem_append_left _ member)))
    · rw [← Bool.not_eq_false]
      exact fun hidden => shown (kept.1 hidden)
    · rw [filter_eq_nil_iff]
      intro id member
      exact Bool.eq_false_iff.1 (kept.2 (empty id (mem_append_right _ member)))

/-- A single statement that passes the test is the output. -/
theorem emitJson_written {only : NodeId} (shown : c.visible (c.tree.statements root) = [only])
    (tested : c.tree.isJsonValue only = true) :
    (emitJson c [root]).code = c.tree.jsonValue only ∧ (emitJson c [root]).diagnostics = [] := by
  simp [emitJson, shown, tested]

/-- Without one the output is refused. -/
theorem emitJson_refused
    (untested : ∀ only, c.visible (c.tree.statements root) = [only] → c.tree.isJsonValue only = false) :
    (emitJson c [root]).code = "" ∧ ∃ d, (emitJson c [root]).diagnostics = [d] ∧ d.code = .invalidJsonOutput := by
  unfold emitJson
  simp only [flatMap_cons, flatMap_nil, append_nil]
  split
  · rename_i only shown
    rw [untested only shown]
    exact ⟨rfl, _, rfl, rfl⟩
  · exact ⟨rfl, _, rfl, rfl⟩

/-- A program without signed numbers is refused exactly if it is not one literal. -/
theorem emitJson_literal (unsigned : c.tree.Unsigned) (rooted : c.tree.Rooted root) :
    ((emitJson c [root]).code = "" ∧
        (∃ d, (emitJson c [root]).diagnostics = [d] ∧ d.code = .invalidJsonOutput) ∧
        ¬ ∃ v, c.tree.IsLiteral root v) ∨
      ((emitJson c [root]).diagnostics = [] ∧
        ∃ v, c.tree.IsLiteral root v ∧ Reads (emitJson c [root]).code.toList v) := by
  by_cases literal : ∃ v, c.tree.IsLiteral root v
  · right
    obtain ⟨v, before, only, after, list, empty, denotes⟩ := literal
    have shown : c.visible (c.tree.statements root) = [only] :=
      (visible_eq_singleton (form_ne_empty denotes)).2 ⟨before, after, list, empty⟩
    have slot : only ∈ c.tree.children root := (Tree.statements_sublist c.tree root).subset (by simp [list])
    have arrives : c.tree.climb 1 only = some root := rooted.climb_child rfl slot
    have tested := Tree.isJsonValueUpTo_of_denotes rooted (Nat.le_succ _) arrives (Nat.le_succ _) denotes
    obtain ⟨code, diagnostics⟩ := emitJson_written shown tested
    obtain ⟨v, denotes, spells⟩ := Tree.spells_jsonValueUpTo unsigned tested
    rw [code]
    exact ⟨diagnostics, v, ⟨before, only, after, list, empty, denotes⟩, spells.reads⟩
  · left
    have untested (only : NodeId) (shown : c.visible (c.tree.statements root) = [only]) :
        c.tree.isJsonValue only = false := by
      rw [← Bool.not_eq_true]
      intro tested
      obtain ⟨v, denotes, -⟩ := Tree.spells_jsonValueUpTo unsigned tested
      obtain ⟨before, after, list, empty⟩ := (visible_eq_singleton (form_ne_empty denotes)).1 shown
      exact literal ⟨v, before, only, after, list, empty, denotes⟩
    obtain ⟨code, diagnostic⟩ := emitJson_refused untested
    exact ⟨code, diagnostic, literal⟩

/-- In JSON mode a text whose parsing comes to an end is refused unless it is one literal. If it is one, the code is a
JSON text that stands for the same value, where each number stands for the rational that its shortest spelling in code
stands for. -/
theorem emit_json_literal (source : String) (settings : Settings) (json : settings.outputMode = .json)
    (unmarked : settings.hasReplacements = false ∨ Scanner.MarkerFree source.toList) :
    let p := parse source settings
    let out := emit p.tree p.scopes settings [p.root]
    p.isExhausted = false →
      (out.code = "" ∧ (∃ d, out.diagnostics = [d] ∧ d.code = .invalidJsonOutput) ∧
          ¬ ∃ v, p.tree.IsLiteral p.root v) ∨
        (out.diagnostics = [] ∧ ∃ v, p.tree.IsLiteral p.root v ∧ Reads out.code.toList v) := by
  have unsigned : (parse source settings).tree.Unsigned := unsigned_parse unmarked
  have rooted : (parse source settings).tree.Rooted (parse source settings).root := parse_rooted source settings
  generalize parse source settings = p at unsigned rooted
  intro p' out _
  have mode : (settings.outputMode == .json) = true := by simp [json]
  have emits : out = emitJson { settings, tree := p.tree, scopes := p.scopes } [p.root] := by
    show emit p.tree p.scopes settings [p.root] = _
    rw [emit, if_pos mode]
  rw [emits]
  exact emitJson_literal unsigned rooted

set_option maxRecDepth 100000 in
/-- Parentheses, a word as a key and lists in each other: the text is not refused for any of them. -/
theorem emit_json_literal_nested :
    let p := parse "([true, \x7ba: [null, 'x']\x7d]);" { outputMode := .json }
    let out := emit p.tree p.scopes { outputMode := .json } [p.root]
    p.isExhausted = false ∧ out.code = "[true,\x7b\"a\":[null,\"x\"]\x7d]" ∧ out.diagnostics = [] ∧
      ∃ v, p.tree.IsLiteral p.root v ∧ Reads out.code.toList v := by
  have facts :
      let p := parse "([true, \x7ba: [null, 'x']\x7d]);" { outputMode := .json }
      p.isExhausted = false ∧
        (emit p.tree p.scopes { outputMode := .json } [p.root]).code = "[true,\x7b\"a\":[null,\"x\"]\x7d]" := by
    decide +kernel
  have literal :=
    emit_json_literal "([true, \x7ba: [null, 'x']\x7d]);" { outputMode := .json } rfl (.inl (by decide))
  -- nothing below is evaluated any more
  generalize parse "([true, \x7ba: [null, 'x']\x7d]);" { outputMode := .json } = p at facts literal ⊢
  obtain ⟨returns, code⟩ := facts
  rcases literal returns with ⟨empty, -⟩ | ⟨accepted, literal⟩
  · rw [code] at empty
    exact absurd empty (by decide)
  · exact ⟨returns, code, accepted, literal⟩

end Condense
