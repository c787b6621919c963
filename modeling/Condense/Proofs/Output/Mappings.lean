import Condense.Proofs.Output.Text

/-!
Where mappings lead to. The writer counts lines and columns as it goes, so that each mapping is recorded at the place
where the token it stands for is written next. The counters are exact as long as the text is short enough for them.
-/

namespace Condense

open List

variable {id : NodeId} {computed : Bool} {pieces : List Piece}

/-- The line of the place behind a text. Lines end at line feeds and are counted from 1. -/
def lineBehind (text : List Char) : Nat :=
  text.count '\n' + 1

/-- The column of the place behind a text, counted from 1. -/
def columnBehind (text : List Char) : Nat :=
  (text.reverse.takeWhile (· != '\n')).length + 1

namespace Mapping

/-- Whether the place of the first mapping is before that of the second. -/
def Precedes (a b : Mapping) : Prop :=
  a.generatedLine < b.generatedLine ∨ a.generatedLine = b.generatedLine ∧ a.generatedColumn < b.generatedColumn

theorem precedes_iff {a b : Mapping} : a.Precedes b ↔ a.generatedLine.toNat < b.generatedLine.toNat ∨
    a.generatedLine.toNat = b.generatedLine.toNat ∧ a.generatedColumn.toNat < b.generatedColumn.toNat := by
  rw [Precedes, UInt32.lt_iff_toNat_lt, UInt32.lt_iff_toNat_lt, UInt32.toNat_inj]

/-- Whether a text continues with `token` at the place of the mapping. -/
def LeadsTo (m : Mapping) (text token : List Char) : Prop :=
  ∃ before after, text = before ++ token ++ after ∧ m.generatedLine.toNat = lineBehind before ∧
    m.generatedColumn.toNat = columnBehind before

theorem LeadsTo.append {m : Mapping} {text token : List Char} (leads : m.LeadsTo text token) (more : List Char) :
    m.LeadsTo (text ++ more) token := by
  obtain ⟨before, after, rfl, line, column⟩ := leads
  exact ⟨before, after ++ more, by simp, line, column⟩

end Mapping

namespace Written

/-- The counters show the place behind what was written, as far as words of 32 bits can. -/
structure Counts (w : Written) : Prop where
  line : w.line = .ofNat (lineBehind w.reversed.reverse)
  column : w.column = .ofNat (columnBehind w.reversed.reverse)

/-- Neither a line nor a column of the text, or of the place behind it, is too large for its counter. -/
def Fits (w : Written) : Prop :=
  w.reversed.length + 1 < UInt32.size

theorem Counts.line_toNat {w : Written} (counts : w.Counts) (fits : w.Fits) :
    w.line.toNat = lineBehind w.reversed.reverse := by
  have most := count_le_length (a := '\n') (l := w.reversed.reverse)
  rw [length_reverse] at most
  rw [counts.line, UInt32.toNat_ofNat_of_lt']
  exact Nat.lt_of_le_of_lt (Nat.succ_le_succ most) fits

theorem Counts.column_toNat {w : Written} (counts : w.Counts) (fits : w.Fits) :
    w.column.toNat = columnBehind w.reversed.reverse := by
  have most := (takeWhile_sublist (p := (· != '\n')) (l := w.reversed)).length_le
  rw [counts.column, columnBehind, reverse_reverse, UInt32.toNat_ofNat_of_lt']
  exact Nat.lt_of_le_of_lt (Nat.succ_le_succ most) fits

/-- Only text was written since. -/
structure Grows (w w' : Written) : Prop where
  counts : w.Counts → w'.Counts
  text : ∃ more, w'.reversed = more ++ w.reversed
  mappings : w'.mappings = w.mappings

variable {w w' : Written}

theorem Grows.refl (w : Written) : w.Grows w :=
  ⟨id, ⟨[], rfl⟩, rfl⟩

theorem Grows.trans {w'' : Written} (first : w.Grows w') (second : w'.Grows w'') : w.Grows w'' := by
  obtain ⟨more, text⟩ := first.text
  obtain ⟨more', text'⟩ := second.text
  refine ⟨second.counts ∘ first.counts, ⟨more' ++ more, ?_⟩, second.mappings.trans first.mappings⟩
  rw [text', text, append_assoc]

theorem Grows.fits (grows : w.Grows w') (fits : w'.Fits) : w.Fits := by
  obtain ⟨more, text⟩ := grows.text
  unfold Fits at fits ⊢
  rw [text, length_append] at fits
  omega

theorem grows_pushChar (w : Written) (c : Char) : w.Grows (w.pushChar c) := by
  refine ⟨fun ⟨line, column⟩ => ?_, ⟨[c], w.pushChar_reversed c⟩, ?_⟩
  · unfold pushChar
    split
    · rename_i feed
      exact ⟨by simp [line, lineBehind, feed, UInt32.ofNat_add], by simp [columnBehind, feed]⟩
    · rename_i other
      exact ⟨by simp [line, lineBehind, other], by simp [column, columnBehind, other, UInt32.ofNat_add]⟩
  · unfold pushChar
    split <;> rfl

theorem grows_push (w : Written) (text : String) : w.Grows (w.push text) := by
  unfold push
  generalize text.toList = chars
  induction chars generalizing w with
  | nil => exact .refl w
  | cons c rest ih => exact (w.grows_pushChar c).trans (ih _)

theorem grows_separate (w : Written) (text : String) : w.Grows (w.separate text) := by
  unfold separate
  split
  · split
    · exact w.grows_pushChar ' '
    · exact .refl w
  · exact .refl w

theorem grows_token (w : Written) (text : String) : w.Grows (w.token text) :=
  (w.grows_separate text).trans (grows_push _ text)

theorem grows_comment (w : Written) (text : String) : w.Grows (w.comment text) := by
  unfold comment
  extract_lets begun
  have start : w.Grows begun := by
    dsimp only [begun]
    split
    · exact .refl w
    · exact .refl w
    · exact w.grows_pushChar '\n'
  exact (start.trans (grows_push _ text)).trans (grows_pushChar _ '\n')

theorem grows_newLine (w : Written) (indentation : Nat) : w.Grows (w.newLine indentation) := by
  unfold newLine
  split
  · exact .refl w
  · exact (w.grows_pushChar '\n').trans (grows_push _ _)

theorem grows_semicolonIf (w : Written) (isOpen : Bool) : w.Grows (w.semicolonIf isOpen) := by
  unfold semicolonIf
  split
  · exact w.grows_token ";"
  · exact .refl w

/-- What is written later is at a later place. -/
theorem Grows.onward (grows : w.Grows w') (counts : w.Counts) (fits : w'.Fits) :
    w.line.toNat < w'.line.toNat ∨ w.line.toNat = w'.line.toNat ∧ w.column.toNat ≤ w'.column.toNat := by
  have counts' := grows.counts counts
  rw [counts.line_toNat (grows.fits fits), counts.column_toNat (grows.fits fits), counts'.line_toNat fits,
    counts'.column_toNat fits]
  obtain ⟨more, text⟩ := grows.text
  rw [text]
  simp only [lineBehind, columnBehind, count_reverse, reverse_reverse, count_append]
  -- A line feed in between makes the line a later one. Without one, the last line only gets longer.
  by_cases feed : '\n' ∈ more
  · have := count_pos_iff.mpr feed
    omega
  · refine .inr ⟨by simp [count_eq_zero.mpr feed], ?_⟩
    rw [takeWhile_append_of_pos]
    · simp
    · intro c member
      rw [bne_iff_ne]
      rintro rfl
      exact feed member

end Written

/-- What may be recorded: the text that a node is written as, and its name in the source. -/
abbrev Naming := NodeId → String → Option String → Prop

/-- The mapping is one of a node that `text` has at its place. -/
def Mapping.Faithful (tree : Tree) (naming : Naming) (text : List Char) (m : Mapping) : Prop :=
  ∃ id token, naming id token m.name ∧ m.source = tree.fileName? (tree.span id).file ∧
    m.sourceLine = (tree.span id).start.line ∧ m.sourceColumn = (tree.span id).start.column ∧
    m.LeadsTo text token.toList

theorem Mapping.record_cases (mappings : Array Mapping) (m : Mapping) :
    record mappings m = mappings ∨
      record mappings m = mappings.push m ∧ ∀ last ∈ mappings.back?, last.samePlace m = false := by
  unfold record
  split
  · rename_i last found
    split
    · exact .inl rfl
    · rename_i other
      exact .inr ⟨rfl, by simpa [found] using other⟩
  · rename_i none
    exact .inr ⟨rfl, by simp [none]⟩

namespace Written

/-- The mappings are in order, none is behind the text, and all are faithful. -/
structure Tracks (tree : Tree) (naming : Naming) (w : Written) : Prop where
  counts : w.Counts
  ordered : w.Fits → w.mappings.toList.Pairwise Mapping.Precedes
  passed : w.Fits → ∀ m ∈ w.mappings, m.generatedLine.toNat < w.line.toNat ∨
    m.generatedLine.toNat = w.line.toNat ∧ m.generatedColumn.toNat ≤ w.column.toNat
  faithful : w.Fits → ∀ m ∈ w.mappings, m.Faithful tree naming w.reversed.reverse

variable {tree : Tree} {naming : Naming} {w w' : Written}

theorem Tracks.grows (tracks : w.Tracks tree naming) (grows : w.Grows w') : w'.Tracks tree naming := by
  refine ⟨grows.counts tracks.counts, fun fits => ?_, fun fits m member => ?_, fun fits m member => ?_⟩
  · rw [grows.mappings]
    exact tracks.ordered (grows.fits fits)
  · rw [grows.mappings] at member
    have := tracks.passed (grows.fits fits) m member
    have := grows.onward tracks.counts fits
    omega
  · rw [grows.mappings] at member
    obtain ⟨id, token, named, source, line, column, leads⟩ := tracks.faithful (grows.fits fits) m member
    obtain ⟨more, text⟩ := grows.text
    refine ⟨id, token, named, source, line, column, ?_⟩
    rw [text, reverse_append]
    exact leads.append more.reverse

theorem Tracks.precedes (tracks : w.Tracks tree naming) (fits : w.Fits) {m : Mapping} (line : m.generatedLine = w.line)
    (column : m.generatedColumn = w.column) (new : ∀ last ∈ w.mappings.back?, last.samePlace m = false) :
    ∀ x ∈ w.mappings.toList, x.Precedes m := by
  rcases eq_nil_or_concat w.mappings.toList with empty | ⟨earlier, last, list⟩
  · simp [empty]
  · have other : last.Precedes m := by
      have passed := tracks.passed fits last (Array.mem_toList_iff.mp (by simp [list]))
      have apart := new last (by rw [← Array.getLast?_toList, list]; simp)
      simp only [Mapping.samePlace, Bool.and_eq_false_iff, beq_eq_false_iff_ne, ne_eq, ← UInt32.toNat_inj] at apart
      rw [← line, ← column] at passed
      rw [Mapping.precedes_iff]
      omega
    have ordered := tracks.ordered fits
    rw [list, concat_eq_append, pairwise_append] at ordered
    intro x member
    rw [list, concat_eq_append, mem_append, mem_singleton] at member
    rcases member with member | rfl
    · have before := ordered.2.2 x member last (by simp)
      rw [Mapping.precedes_iff] at before other ⊢
      omega
    · exact other

theorem Tracks.mapped (tracks : w.Tracks tree naming) {text : String} {name : Option String}
    (named : naming id text name) : ((w.record tree id name).push text).Tracks tree naming := by
  unfold record
  extract_lets span m
  have counts : ({ w with mappings := Mapping.record w.mappings m } : Written).Counts :=
    ⟨tracks.counts.line, tracks.counts.column⟩
  have grows := grows_push { w with mappings := Mapping.record w.mappings m } text
  have leads (fits : w.Fits) : m.Faithful tree naming (w.reversed.reverse ++ text.toList) :=
    ⟨id, text, named, rfl, rfl, rfl, w.reversed.reverse, [], by simp, tracks.counts.line_toNat fits,
      tracks.counts.column_toNat fits⟩
  -- Of two mappings for one place the second is not kept, and then only the text grows.
  rcases Mapping.record_cases w.mappings m with same | ⟨pushed, new⟩
  · rw [same]
    exact tracks.grows (grows_push w text)
  · have before (fits : (push _ text).Fits) : w.Fits := grows.fits fits
    refine ⟨grows.counts counts, fun fits => ?_, fun fits x member => ?_, fun fits x member => ?_⟩
    · rw [grows.mappings, pushed, Array.toList_push, pairwise_append]
      refine ⟨tracks.ordered (before fits), pairwise_singleton _ _, fun x member y last => ?_⟩
      rw [mem_singleton.mp last]
      exact tracks.precedes (before fits) rfl rfl new x member
    · have onward := grows.onward counts fits
      dsimp only at onward
      rw [grows.mappings, pushed, Array.mem_push] at member
      rcases member with member | rfl
      · have := tracks.passed (before fits) x member
        omega
      · exact onward
    · rw [grows.mappings, pushed, Array.mem_push] at member
      rw [push_reversed, reverse_append, reverse_reverse]
      rcases member with member | rfl
      · obtain ⟨id, token, named, source, line, column, leads⟩ := tracks.faithful (before fits) x member
        exact ⟨id, token, named, source, line, column, leads.append text.toList⟩
      · exact leads (before fits)

end Written

mutual

/-- Whether only such nodes are recorded for the piece. -/
def Piece.IsNamed (naming : Naming) : Piece → Prop
  | .mapped text id name => naming id text name
  | .conditional parts => ConditionalPart.AllNamed naming parts
  | _ => True

def Piece.AllNamed (naming : Naming) : List Piece → Prop
  | [] => True
  | piece :: rest => piece.IsNamed naming ∧ Piece.AllNamed naming rest

def ConditionalPart.AllNamed (naming : Naming) : List ConditionalPart → Prop
  | [] => True
  | .on :: rest => ConditionalPart.AllNamed naming rest
  | .code pieces _ :: rest => Piece.AllNamed naming pieces ∧ ConditionalPart.AllNamed naming rest

end

namespace Written

variable {naming : Naming}

mutual

theorem tracks_add (options : WriterOptions) {w : Written} (tracks : w.Tracks options.tree naming) :
    ∀ piece : Piece, piece.IsNamed naming → (w.add options piece).Tracks options.tree naming
  | .token text, _ => tracks.grows (w.grows_token text)
  | .glued text, _ => tracks.grows (w.grows_push text)
  | .mapped text id name, named => by
    have apart := tracks.grows (w.grows_separate text)
    dsimp only [add]
    split
    · exact apart.mapped named
    · exact apart.grows (grows_push _ text)
  | .line indentation, _ => tracks.grows (w.grows_newLine indentation)
  | .comment text, _ => tracks.grows (w.grows_comment text)
  | .conditional parts, named => by
    dsimp only [add]
    split
    · exact tracks
    · exact (tracks_addParts options _ (tracks.grows (w.grows_token "/*")) false parts named).grows (grows_token _ _)

theorem tracks_addAll (options : WriterOptions) {w : Written} (tracks : w.Tracks options.tree naming) :
    ∀ pieces : List Piece, Piece.AllNamed naming pieces → (w.addAll options pieces).Tracks options.tree naming
  | [], _ => tracks
  | piece :: rest, named => tracks_addAll options (tracks_add options tracks piece named.1) rest named.2

theorem tracks_addParts (options : WriterOptions) (drop : Bool) {w : Written} (tracks : w.Tracks options.tree naming)
    (isOpen : Bool) : ∀ parts : List ConditionalPart, ConditionalPart.AllNamed naming parts →
      (w.addParts options drop isOpen parts).Tracks options.tree naming
  | [], _ => tracks
  | .on :: rest, named => by
    unfold addParts
    split
    · exact tracks_addParts options drop tracks isOpen rest named
    · have written := (tracks.grows (w.grows_semicolonIf isOpen)).grows (grows_token _ "@cc_on")
      refine tracks_addParts options drop ?_ false rest named
      exact ⟨⟨written.counts.line, written.counts.column⟩, written.ordered, written.passed, written.faithful⟩
  | .code pieces isOpen' :: rest, named =>
    tracks_addParts options drop
      (tracks_addAll options (tracks.grows (w.grows_semicolonIf isOpen)) pieces named.1) isOpen' rest named.2

end

end Written

/-- What a node is recorded as: an identifier under the name it is written with, a function or class under the keyword
it starts with. -/
def Style.naming (c : Style) : Naming := fun id text name =>
  match c.tree.form id with
  | .lookup original field _ | .bindingIdentifier original field =>
    text = c.outputName original field ∧ name = some original
  | .function _ _ _ _ isAsync _ _ _ => text = (if isAsync then "async" else "function") ∧ name = none
  | .classDefinition .. => text = "class" ∧ name = none
  | _ => False

/-- Styles that differ in layout only record the same. -/
class Style.Tells (naming : Naming) (c : Style) : Prop where
  eq : c.naming = naming

class Told (naming : Naming) (pieces : List Piece) : Prop where
  all : Piece.AllNamed naming pieces

class Printer.Tells (naming : Naming) (p : Printer) : Prop where
  expression (c : Style) [c.Tells naming] (id : NodeId) (level : Level) : Told naming (p.expression c id level)
  statement (c : Style) [c.Tells naming] (id : NodeId) : Told naming (p.statement c id).1

section Told

variable {naming : Naming} {others : List Piece} {text : String}

instance : Told naming [] := ⟨trivial⟩

instance [rest : Told naming pieces] : Told naming (.token text :: pieces) :=
  ⟨trivial, rest.all⟩

instance [rest : Told naming pieces] : Told naming (.glued text :: pieces) :=
  ⟨trivial, rest.all⟩

instance {indentation : Nat} [rest : Told naming pieces] : Told naming (.line indentation :: pieces) :=
  ⟨trivial, rest.all⟩

instance [rest : Told naming pieces] : Told naming (.comment text :: pieces) :=
  ⟨trivial, rest.all⟩

theorem Piece.allNamed_append (first : Piece.AllNamed naming pieces) (second : Piece.AllNamed naming others) :
    Piece.AllNamed naming (pieces ++ others) := by
  induction pieces with
  | nil => exact second
  | cons piece rest ih => exact ⟨first.1, ih first.2⟩

instance told_append [first : Told naming pieces] [second : Told naming others] : Told naming (pieces ++ others) :=
  ⟨Piece.allNamed_append first.all second.all⟩

instance {condition : Prop} [Decidable condition] [first : Told naming pieces] [second : Told naming others] :
    Told naming (if condition then pieces else others) := by
  split
  · exact first
  · exact second

theorem Told.flatMap {α : Type} {f : α → List Piece} (list : List α) (each : ∀ a ∈ list, Told naming (f a)) :
    Told naming (list.flatMap f) := by
  induction list with
  | nil => exact ⟨trivial⟩
  | cons a rest ih =>
    have := each a (by simp)
    have := ih fun b member => each b (by simp [member])
    rw [flatMap_cons]
    infer_instance

theorem Told.of_parts {parts : List ConditionalPart} (all : ConditionalPart.AllNamed naming parts) :
    Told naming [.conditional parts] :=
  ⟨all, trivial⟩

instance [Told naming pieces] : Told naming (parenthesize pieces) := told_append

end Told

namespace Style

variable {naming : Naming} (c : Style) {text : String}

instance [same : c.Tells naming] : c.nested.Tells naming := ⟨same.eq⟩

instance [same : c.Tells naming] : c.inHead.Tells naming := ⟨same.eq⟩

instance [same : c.Tells naming] : c.indented.Tells naming := ⟨same.eq⟩

theorem told_mapped [same : c.Tells naming] {name : Option String} (own : c.naming id text name) {rest : List Piece}
    [behind : Told naming rest] : Told naming (.mapped text id name :: rest) := by
  rw [same.eq] at own
  exact ⟨own, behind.all⟩

instance : Told naming c.space := by
  unfold space
  infer_instance

instance : Told naming c.newLine := by
  unfold newLine
  infer_instance

instance : Told naming (c.operator text) := told_append

instance : Told naming (c.stringLiteral text) := by
  unfold stringLiteral
  infer_instance

instance {literal : Literal} : Told naming (c.literal literal) := by
  unfold Style.literal
  split <;> infer_instance

section Functions

variable [c.Tells naming] {kind : FunctionKind} {binding : Option NodeId} {params : List NodeId} {body : NodeId}
  {isAsync isGenerator : Bool} {scope : ScopeId} {nameScope : Option ScopeId}
  (form : c.tree.form id = .function kind binding params body isAsync isGenerator scope nameScope)

include form

theorem told_async : Told naming (if isAsync then [.mapped "async" id none] else []) := by
  cases isAsync
  · exact ⟨trivial⟩
  · exact c.told_mapped (by simp [Style.naming, form])

theorem told_keyword :
    Told naming (if isAsync then [.mapped "async" id none, .token "function"] else [.mapped "function" id none]) := by
  cases isAsync <;> exact c.told_mapped (by simp [Style.naming, form])

end Functions

theorem told_separated {gap : List Piece} [Told naming gap] : ∀ parts : List (List Piece),
    (∀ part ∈ parts, Told naming part) → Told naming (separated gap parts)
  | [], _ => ⟨trivial⟩
  | [part], all => all part (by simp)
  | part :: next :: rest, all => by
    have := all part (by simp)
    have : Told naming (separated gap (next :: rest)) :=
      told_separated _ fun part member => all part (by simp [member])
    unfold separated
    infer_instance

end Style

namespace Printer

variable {naming : Naming} (p : Printer) [p.Tells naming] (c : Style) [c.Tells naming] {key value body : NodeId}
  {ids specifiers : List NodeId} {declaration : Option NodeId} {printed : Printed}

instance {level : Level} : Told naming (p.expression c id level) :=
  Tells.expression c id level

instance : Told naming (p.statement c id).1 :=
  Tells.statement c id

instance {isOpen onNewLine : Bool} : Told naming (p.statements c isOpen onNewLine ids).1 := by
  induction ids generalizing isOpen onNewLine with
  | nil => exact ⟨trivial⟩
  | cons id rest ih =>
    change Told naming (_ ++ _ ++ (p.statement c id).1 ++ _ ++ (p.statements c _ _ rest).1)
    infer_instance

instance : Told naming (p.block c ids) := told_append

instance : Told naming (p.inParentheses c id) := told_append

instance : Told naming (p.list c ids) := by
  refine Style.told_separated _ fun part member => ?_
  obtain ⟨id, -, rfl⟩ := mem_map.mp member
  infer_instance

instance : Told naming (p.arguments c ids) := told_append

instance {op : BinaryOp} {level : Level} : Told naming (p.operand c op id level) := by
  unfold operand
  infer_instance

instance {op : BinaryOp} {left right : NodeId} : Told naming (p.binary c op left right) := told_append

instance : Told naming (p.memberObject c id) := by
  dsimp only [memberObject]
  split <;> infer_instance

instance {tag : Option NodeId} {quasis : List String} {expressions : List NodeId} :
    Told naming (p.template c tag quasis expressions) := by
  unfold template
  have parts : Told naming (quasis.zipIdx.flatMap fun (quasi, i) =>
      .glued quasi :: match expressions[i]? with
        | some id => [.glued "$\x7b"] ++ p.expression c.nested id .comma ++ [.glued "\x7d"]
        | none => []) :=
    Told.flatMap _ fun _ _ => by dsimp only; split <;> infer_instance
  dsimp only
  split <;> infer_instance

instance {elements : List (Option NodeId)} : Told naming (p.array c elements) := by
  dsimp only [array]
  have parts : Told naming (Style.separated c.space (elements.map fun element => match element with
      | some id => p.expression c.nested id .assignment
      | none => [])) := by
    refine Style.told_separated _ fun part member => ?_
    obtain ⟨element, -, rfl⟩ := mem_map.mp member
    split <;> infer_instance
  split <;> infer_instance

instance : Told naming (p.propertyKey c key computed) := by
  unfold propertyKey
  infer_instance

instance {function : NodeId} : Told naming (p.method c key computed function) := by
  unfold method
  split
  · rename_i isAsync _ _ _ form
    have start : Told naming (if isAsync then [.mapped "async" function none] else []) := c.told_async form
    infer_instance
  · infer_instance

instance : Told naming (p.shorthand c key value computed) := told_append

instance {kind : PropertyKind} : Told naming (p.property c key value kind computed) := by
  unfold property
  split <;> infer_instance

instance : Told naming (p.arrowBody c body) := by
  unfold arrowBody
  split <;> infer_instance

theorem told_arrow {params : List NodeId} {isAsync : Bool}
    (start : Told naming (if isAsync then [.mapped "async" id none] else [])) :
    Told naming (p.arrow c id params body isAsync) := by
  unfold arrow
  generalize (if isAsync then [Piece.mapped "async" id none] else []) = keyword at start ⊢
  split
  · split <;> infer_instance
  · infer_instance

instance : Told naming (p.function c id) := by
  unfold function
  split
  · rename_i form
    exact p.told_arrow c (c.told_async form)
  · rename_i binding _ _ isAsync _ _ _ _ form
    have start : Told naming
        (if isAsync then [.mapped "async" id none, .token "function"] else [.mapped "function" id none]) :=
      c.told_keyword form
    cases binding <;> infer_instance
  · infer_instance

instance {isLast : Bool} : Told naming (p.classMember c id isLast) := by
  unfold classMember
  split
  · dsimp only
    repeat' split
    all_goals infer_instance
  · infer_instance

instance : Told naming (p.classMembers c ids) := by
  induction ids with
  | nil => exact ⟨trivial⟩
  | cons id rest ih =>
    unfold classMembers
    infer_instance

instance : Told naming (p.classDefinition c id) := by
  unfold classDefinition
  split
  · rename_i form
    have start : Told naming [.mapped "class" id none] := c.told_mapped (by simp [Style.naming, form])
    dsimp only
    split <;> split <;> infer_instance
  · infer_instance

instance {callee : NodeId} {args : List NodeId} {isNew isOptional : Bool} :
    Told naming (p.call c callee args isNew isOptional) := by
  unfold call
  infer_instance

instance : Told naming (p.bareExpression c id) := by
  unfold bareExpression
  split
  -- `yield` may come without a value; identifiers are what is recorded.
  case h_7 argument _ _ => cases argument <;> infer_instance
  case h_28 form | h_29 form => exact c.told_mapped (by simp [Style.naming, form])
  all_goals infer_instance

instance {min : Level} : Told naming (p.expressionAt c id min) := by
  unfold expressionAt
  infer_instance

instance [Told naming pieces] [Told naming printed.1] : Told naming (after pieces printed).1 :=
  inferInstanceAs (Told naming (pieces ++ printed.1))

instance [Told naming printed.1] : Told naming (closed printed) := told_append

instance : Told naming (p.body c id).1 := by
  unfold Printer.body
  split
  · infer_instance
  · infer_instance
  · split
    · infer_instance
    · exact inferInstanceAs (Told naming (c.indented.newLine ++ (p.statement c.indented id).1))

instance {before : List Piece} [Told naming before] : Told naming (p.declaratorsFrom c before ids) := by
  induction ids generalizing before with
  | nil => exact ⟨trivial⟩
  | cons id rest ih =>
    dsimp only [declaratorsFrom]
    split
    · split <;> infer_instance
    · infer_instance

instance {kind : DeclarationKind} : Told naming (p.declaration c kind ids) := by
  unfold Printer.declaration
  infer_instance

instance : Told naming (p.head c id) := by
  unfold head
  split <;> infer_instance

instance {condition consequent : NodeId} {alternate : Option NodeId} :
    Told naming (p.ifStatement c condition consequent alternate).1 := by
  dsimp only [ifStatement]
  split
  · infer_instance
  · have first : Told naming (match c.tree.form consequent with
        | .block statements _ _ => p.block c statements
        | _ => [.token "\x7b"] ++ (p.statement c consequent).1 ++ [.token "\x7d"]) := by
      split <;> infer_instance
    split <;> infer_instance

instance {init condition step : Option NodeId} : Told naming (p.forLoop c init condition step body).1 := by
  dsimp only [forLoop]
  split <;> split <;> split <;> infer_instance

instance {left right body : NodeId} {isOf isAwait : Bool} :
    Told naming (p.forInLoop c left right body isOf isAwait).1 := told_append

instance {word : String} {label : Option String} : Told naming (jump word label).1 := by
  dsimp only [jump]
  split <;> infer_instance

instance {binding handler finalizer : Option NodeId} :
    Told naming (p.tryStatement c body binding handler finalizer) := by
  unfold tryStatement
  cases binding <;> cases handler <;> cases finalizer <;> infer_instance

instance : Told naming (p.switchCase c id).1 := by
  unfold switchCase
  split
  · dsimp only
    split <;> infer_instance
  · infer_instance

instance {isOpen : Bool} : Told naming (p.switchCases c isOpen ids) := by
  induction ids generalizing isOpen with
  | nil => exact ⟨trivial⟩
  | cons id rest ih =>
    change Told naming (_ ++ c.newLine ++ (p.switchCase c id).1 ++ p.switchCases c _ rest)
    infer_instance

instance : Told naming (p.expressionStatement c id).1 := by
  unfold expressionStatement
  infer_instance

theorem allNamed_conditionalParts (ids : List NodeId) :
    ConditionalPart.AllNamed naming (ids.map (p.conditionalPart c)) := by
  induction ids with
  | nil => trivial
  | cons id rest ih =>
    have part : p.conditionalPart c id = .on ∨
        ∃ pieces isOpen, p.conditionalPart c id = .code pieces isOpen ∧ Told naming pieces := by
      unfold conditionalPart
      split
      · exact .inl rfl
      all_goals exact .inr ⟨_, _, rfl, inferInstance⟩
    rw [map_cons]
    obtain on | ⟨pieces, isOpen, code, told⟩ := part
    · rwa [on]
    · rw [code]
      exact ⟨told.all, ih⟩

instance {source : String} : Told naming (p.importDeclaration c specifiers source) := by
  unfold importDeclaration
  split
  · infer_instance
  · have named : Told naming (Style.separated [] (specifiers.filterMap (p.namedImport? c))) := by
      refine Style.told_separated _ fun part member => ?_
      obtain ⟨id, -, found⟩ := mem_filterMap.mp member
      unfold namedImport? at found
      split at found <;> cases found
      infer_instance
    extract_lets _ braces
    have all : Told naming (Style.separated [] (specifiers.filterMap (p.bareImport? c) ++ braces)) := by
      refine Style.told_separated _ fun part member => ?_
      rcases mem_append.mp member with member | member
      · obtain ⟨id, -, found⟩ := mem_filterMap.mp member
        unfold bareImport? at found
        split at found <;> cases found <;> infer_instance
      · unfold braces at member
        split at member
        · cases member
        · rw [mem_singleton.mp member]
          infer_instance
    infer_instance

instance : Told naming (p.exportSpecifier c id) := by
  unfold exportSpecifier
  split <;> infer_instance

instance : Told naming (p.exportDefault c declaration).1 := by
  unfold exportDefault
  split
  · infer_instance
  · split <;> infer_instance

instance {kind : ExportKind} {source nameSpace : Option String} :
    Told naming (p.exportDeclaration c kind declaration specifiers source nameSpace).1 := by
  have named : Told naming (Style.separated [] (specifiers.map (p.exportSpecifier c))) := by
    refine Style.told_separated _ fun part member => ?_
    obtain ⟨id, -, rfl⟩ := mem_map.mp member
    infer_instance
  unfold exportDeclaration
  cases kind
  · cases declaration <;> infer_instance
  · infer_instance
  · cases source <;> infer_instance
  · cases source <;> cases nameSpace <;> infer_instance

theorem told_statementAt (id : NodeId) : Told naming (p.statementAt c id).1 := by
  unfold statementAt
  split
  -- `throw` may bring its own semicolon, and a conditional comment is a piece with pieces inside.
  case h_14 => dsimp only; split <;> infer_instance
  case h_22 statements _ => exact .of_parts (p.allNamed_conditionalParts c (c.visible statements))
  all_goals infer_instance

instance tells_upTo (depth : Nat) : (upTo depth).Tells naming := by
  induction depth with
  | zero => exact ⟨fun _ _ _ _ => ⟨trivial⟩, fun _ _ _ => ⟨trivial⟩⟩
  | succ depth ih =>
    exact ⟨fun c _ id level => inferInstanceAs (Told naming ((upTo depth).expressionAt c id level)),
      fun c _ id => (upTo depth).told_statementAt c id⟩

theorem told_chunks (isOpen : Bool) (chunks : List (List NodeId)) : Told naming (p.chunks c isOpen chunks).1 := by
  induction chunks generalizing isOpen with
  | nil => exact ⟨trivial⟩
  | cons items rest ih =>
    unfold Printer.chunks
    split
    · exact ih isOpen
    · have := ih (p.statements c false false items).2
      infer_instance

end Printer

theorem emitJson_mappings (c : Style) (roots : List NodeId) : (emitJson c roots).mappings = [] := by
  dsimp only [emitJson]
  split
  · split <;> rfl
  · rfl

/-- The text of the chunks, written from nothing, keeps track of its mappings. -/
theorem emitCode_tracks (c : Style) (roots : List NodeId) :
    ∃ w : Written, w.Tracks c.tree c.naming ∧ (emitCode c roots).code = w.code ∧
      (emitCode c roots).mappings = w.mappings.toList := by
  have same : c.Tells c.naming := ⟨rfl⟩
  let items := roots.map fun root => c.visible (c.tree.statements root)
  have chunks : Told c.naming ((Printer.ofTree c.tree).chunks c false items).1 :=
    Printer.told_chunks (.upTo (c.tree.size + 1)) c false items
  have start : Written.Tracks c.tree c.naming {} :=
    ⟨⟨rfl, rfl⟩, fun _ => .nil, fun _ _ member => by simp at member, fun _ _ member => by simp at member⟩
  let last := if ((Printer.ofTree c.tree).chunks c false items).2 && (c.settings.termSemicolons || c.isPretty)
    then [Piece.token ";"] else []
  have all : Told c.naming (((Printer.ofTree c.tree).chunks c false items).1 ++ last) := inferInstance
  exact ⟨_, Written.tracks_addAll
    ⟨c.tree, c.settings.generateSourceMap, c.settings.allows .removeUnnecessaryCcOn⟩ start _ all.all, rfl, rfl⟩

/-- The mappings of a text whose lines and columns fit their counters are strictly increasing in line and column. Each
is made for an identifier, a function or a class, gives the place of that node in the source, and at its own place the
text continues with the output name of the identifier or with the keyword that the function or class starts with. -/
theorem emit_mappings_lead (tree : Tree) (scopes : ScopeTree) (settings : Settings) (roots : List NodeId) :
    let emission := emit tree scopes settings roots
    emission.code.length + 1 < UInt32.size →
      emission.mappings.Pairwise Mapping.Precedes ∧
        ∀ m ∈ emission.mappings,
          m.Faithful tree ({ settings, tree, scopes } : Style).naming emission.code.toList := by
  dsimp only
  unfold emit
  split
  · rw [emitJson_mappings]
    exact fun _ => ⟨.nil, by simp⟩
  · obtain ⟨w, tracks, code, mappings⟩ := emitCode_tracks { settings, tree, scopes } roots
    rw [code, mappings, Written.code, String.toList_ofList]
    intro short
    have fits : w.Fits := by simpa [Written.Fits] using short
    exact ⟨tracks.ordered fits, fun m member => tracks.faithful fits m (Array.mem_toList_iff.mp member)⟩

/-- In `a+b` the second identifier is at the third character. -/
theorem emit_mappings_lead_sum :
    let tree : Tree :=
      { nodes := #[{ form := .program [⟨1⟩] ⟨0⟩ }, { form := .binary .add ⟨2⟩ ⟨3⟩, parent := some ⟨0⟩ },
          { form := .lookup "a" none .variable, parent := some ⟨1⟩ },
          { form := .lookup "b" none .variable, parent := some ⟨1⟩ }] }
    let out := emit tree {} { generateSourceMap := true } [⟨0⟩]
    out.code = "a+b" ∧ out.mappings.map (fun m => (m.generatedColumn, m.name)) = [(1, some "a"), (3, some "b")] ∧
      out.mappings.Pairwise Mapping.Precedes := by
  intro tree out
  have facts : out.code = "a+b" ∧
      out.mappings.map (fun m => (m.generatedColumn, m.name)) = [(1, some "a"), (3, some "b")] := by
    decide +kernel
  refine ⟨facts.1, facts.2, (emit_mappings_lead tree {} { generateSourceMap := true } [⟨0⟩] ?_).1⟩
  rw [show (emit tree {} { generateSourceMap := true } [⟨0⟩]).code = "a+b" from facts.1]
  decide

end Condense
