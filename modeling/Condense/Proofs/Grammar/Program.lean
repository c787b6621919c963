import Condense.Proofs.Grammar.Input
import Condense.Proofs.Ownership.Resolved

/-!
Reading a whole text: from its first token through the list of its statements to the tree whose names are resolved.
-/

namespace Condense

open List

namespace Parse

variable {β : Type} {rules : Rules} {s : ParseState} {input mid rest : List Token} {b : Bool} {n : Nat}
  {here : Tree → NodeId → Prop} {stop : Option Punctuator} {done : List NodeId} {inPrologue : Bool}

theorem flushComments_run (stands : s.Stands input) : flushComments s = .ok [] s := by
  have none := stands.comments
  cases s
  cases none
  rfl

theorem nil_or_rBrace (ends : rest.head?.all (·.is .rBrace)) : rest = [] ∨ ∃ more, rest = .punctuator .rBrace :: more := by
  cases rest with
  | nil => exact .inl rfl
  | cons t rest => exact .inr ⟨rest, congrArg (· :: rest) (Token.eq_of_is (by simpa using ends))⟩

theorem listStep_last {Q : Tree → List NodeId × Option Failure → Prop}
    (ends : rest = [] ∨ ∃ p ∈ stop, rest.head? = some (.punctuator p)) (holds : ∀ t, Q t (done.reverse, none)) :
    Loops b n (listStep rules stop) (done, inPrologue) rest rest Q := by
  refine .done (.look (fun _ awaits => flushComments_run awaits.toStands) (reads_isAtEnd ?_))
  rcases ends with rfl | ⟨p, rfl, head⟩
  · exact reads_pure holds
  · have first : rest.headD .endOfInput = .punctuator p := by
      rw [headD_eq_head?_getD, head]
      rfl
    have atStop : (Token.punctuator p).is p := by simp [Token.is]
    rw [first]
    refine reads_isAt ?_
    rw [first, atStop]
    exact reads_pure holds

theorem reads_checkDirective (id : NodeId) : Reads b n (checkDirective id) input input fun _ _ => True := by
  intro s awaits _
  have unchanged := awaits.passes
  suffices run : ∃ found s', checkDirective id s = .ok found s' ∧ s.Passes input input s' by
    obtain ⟨found, s', run, passes⟩ := run
    exact ⟨found, s', run, passes, fun _ _ => trivial⟩
  cases form : s.tree.form id with
  | constant value =>
    cases value with
    | string text =>
      by_cases strict : text = "use strict"
      · let scope := s.scopes.variableScope s.context.scope
        let changed := s.scopes.modifyScope scope fun s => { s with useStrict := true }
        refine ⟨true, { s with scopes := changed }, ?_, ?_⟩
        · simp only [checkDirective, formOf, Bind.bind, EStateM.bind, get_run, pure_run, form, strict]
          rfl
        · exact
            { unchanged with
              scopes := .modifyScope s.scopes scope fun _ => ⟨rfl, rfl, rfl, fun inner => inner⟩
              stands := awaits.toStands.beside }
      · refine ⟨true, s, ?_, unchanged⟩
        simp [checkDirective, formOf, Bind.bind, EStateM.bind, get_run, pure_run, form, strict]
    | _ =>
      refine ⟨false, s, ?_, unchanged⟩
      simp only [checkDirective, formOf, Bind.bind, EStateM.bind, get_run, pure_run, form]
  | _ =>
    refine ⟨false, s, ?_, unchanged⟩
    simp only [checkDirective, formOf, Bind.bind, EStateM.bind, get_run, pure_run, form]

/-- What is read and whether the prologue goes on are known before the next round starts. -/
theorem listItem_reads (item : Reads b n (rules .item) input mid here) :
    Reads b n (listItem rules done inPrologue) input mid fun t turn =>
      ∃ id inPrologue, turn = .again (id :: done, inPrologue) ∧ here t id := by
  intro s awaits few
  obtain ⟨id, s', run, passes, holds⟩ := item s awaits few
  have recovered : recovering rules s = .ok (.ok (some id)) s' := by
    simp only [recovering, attempt, place, Bind.bind, EStateM.bind, get_run, pure_run, run]
  refine .of_run (bind_run recovered) passes (.given ?_ holds)
  have awaits' := awaits.after passes
  dsimp only
  split
  · exact (reads_checkDirective id).bind (fun inPrologue => reads_pure fun t _ here => ⟨id, inPrologue, rfl, here⟩)
      s' awaits' (Nat.le_trans passes.fewer few)
  · exact ⟨_, s', rfl, awaits'.passes, fun t _ here => ⟨id, false, rfl, here⟩⟩

theorem listStep_item {Q : Tree → List NodeId × Option Failure → Prop} (more : (input.headD .endOfInput).isEnd = false)
    (inside : ∀ p, (input.headD .endOfInput).is p → stop ≠ some p ∧ p ≠ .rBrace)
    (item : Reads b n (rules .item) input mid here) (less : mid.length < input.length)
    (then' : ∀ id inPrologue, Loops b n (listStep rules stop) (id :: done, inPrologue) mid rest fun t result =>
      here t id → Q t result) : Loops b n (listStep rules stop) (done, inPrologue) input rest Q := by
  have round : Reads b n (listStep rules stop (done, inPrologue)) input mid fun t turn =>
      ∃ id inPrologue, turn = .again (id :: done, inPrologue) ∧ here t id := by
    refine .look (fun _ awaits => flushComments_run awaits.toStands) (reads_isAtEnd ?_)
    rw [more]
    cases stop with
    | some p =>
      refine reads_isAt ?_
      rw [Bool.eq_false_iff.mpr fun same => (inside p same).1 rfl]
      exact listItem_reads item
    | none =>
      refine reads_isAt ?_
      rw [Bool.eq_false_iff.mpr fun same => (inside .rBrace same).2 rfl]
      exact listItem_reads item
  intro rounds enough
  obtain ⟨rounds, rfl⟩ : ∃ fewer, rounds = fewer + 1 := ⟨rounds - 1, by omega⟩
  refine round.bindAt fun turn s awaits few holds => ?_
  obtain ⟨id, inPrologue, rfl, -⟩ := holds _ (.refl _)
  refine (then' id inPrologue rounds (by omega) s awaits few).given fun t grows => ?_
  obtain ⟨_, _, same, here⟩ := holds t grows
  cases same
  exact here

end Parse

namespace Resolution

/-- Whether nothing that was reported is an error. -/
def Mild (r : Resolution) : Prop :=
  ∀ d ∈ r.diagnostics, d.isError = false

variable {r : Resolution}

theorem Mild.of_diagnostics {r' : Resolution} (mild : r.Mild) (same : r'.diagnostics = r.diagnostics) : r'.Mild := by
  rwa [Mild, same]

theorem Mild.report (mild : r.Mild) {problem : Problem} (span : Span) (warns : problem.code.severity ≠ 0) :
    (r.report problem span).Mild := by
  intro d member
  rcases Array.mem_push.mp member with member | rfl
  · exact mild d member
  · simpa [Diagnostic.isError, Problem.diagnostic] using warns

theorem Mild.recordUndefined (mild : r.Mild) (ref : UndefinedReference) (node : NodeId) :
    (r.recordUndefined ref node).Mild := by
  dsimp only [Resolution.recordUndefined]
  split
  · refine Mild.report (mild.of_diagnostics rfl) _ ?_
    cases ref.type <;> simp [Problem.code, Code.severity]
  · exact mild.of_diagnostics rfl

theorem markFunctionName_diagnostics (r : Resolution) (function : NodeId) (name : String) :
    (r.markFunctionName function name).diagnostics = r.diagnostics := by
  unfold markFunctionName
  split
  · split <;> rfl
  · rfl

theorem Mild.checkFound (mild : r.Mild) (id : FieldId) (ref : UndefinedReference) (node : NodeId) :
    (r.checkFound id ref node).Mild := by
  dsimp only [Resolution.checkFound]
  split
  · split
    · exact mild
    · refine Mild.report (mild.of_diagnostics ?_) _ (by simp [Problem.code, Code.severity])
      split
      · exact markFunctionName_diagnostics _ _ _
      · rfl
  · split
    · exact mild.recordUndefined ref node
    · exact mild
  · exact mild

theorem Mild.withField (mild : r.Mild) (scope : ScopeId) (name : String) (outer : Option FieldId) (span : Span) :
    (r.withField scope name outer span).2.Mild := by
  dsimp only [Resolution.withField]
  split
  · exact mild.of_diagnostics rfl
  · split
    · exact Mild.report (mild.of_diagnostics rfl) _ (by simp [Problem.code, Code.severity])
    · exact mild.of_diagnostics rfl

theorem Mild.missing (mild : r.Mild) (ref : UndefinedReference) (node : NodeId) : (r.missing ref node).2.Mild := by
  unfold Resolution.missing
  split
  · exact mild.of_diagnostics rfl
  · exact Mild.recordUndefined
      (r := { r with scopes := (r.scopes.createField ScopeTree.global ref.name .global).2 }) mild ref node

theorem Mild.meaning (mild : r.Mild) (node : NodeId) (ref : UndefinedReference) (chain : List ScopeId)
    (found : Option Nat) : (r.meaning node ref chain found).2.Mild := by
  dsimp only [Resolution.meaning]
  split
  · exact mild.withField _ _ _ _
  · exact mild.checkFound _ _ _
  · exact mild.missing _ _

theorem Mild.step (mild : r.Mild) (use : Use) : (r.step use).Mild := by
  cases use with
  | evaluation scope => exact mild
  | name node scope =>
    rw [step_name]
    cases form : r.tree.form node with
    | lookup name old how =>
      have given : (r.meant node scope name).2.Mild := by
        refine Mild.meaning ?_ _ _ _ _
        exact mild.of_diagnostics rfl
      rwa [r.resolveName_eq scope form]
    | _ =>
      unfold resolveName
      rwa [form]

end Resolution

theorem resolveNames_mild (settings : Settings) (tree : Tree) (scopes : ScopeTree) (root : NodeId) :
    (resolveNames settings tree scopes root).Mild :=
  List.foldlRecOn _ _ (fun d member => absurd member (Array.not_mem_empty d)) fun _ mild use _ => mild.step use

namespace Renders

variable {inlineSafe operand : Bool} {tokens : List Token} {text : List Char}

theorem length_le (renders : Renders inlineSafe operand tokens text) : tokens.length ≤ text.length := by
  induction renders with
  | nil => exact Nat.zero_le _
  | @cons _ t _ _ _ _ plain _ _ _ _ ih =>
    have some := length_pos_iff.mpr (plain.spelled_ne_nil inlineSafe)
    simp only [length_cons, length_append]
    omega

/-- What is rendered does not start like the first line of a script. -/
theorem head_ne (renders : Renders inlineSafe operand tokens text) : text.head? ≠ some '#' := by
  have room {gap : List Char} (blank : gap.all isRoom) : gap.head? ≠ some '#' := by
    intro head
    have := all_eq_true.mp blank '#' (mem_of_head? head)
    exact absurd this (by decide)
  cases renders with
  | nil blank => exact room blank
  | @cons _ t _ gap rest blank plain =>
    rw [head?_append, head?_append]
    cases gap with
    | cons c more => exact room blank
    | nil =>
      have word {letters : List Char} (letters' : Scanner.isWord letters) : letters.head? ≠ some '#' := by
        cases letters with
        | nil => cases letters'
        | cons c more =>
          rintro head
          obtain rfl : c = '#' := by simpa using head
          exact absurd letters' (by simp [Scanner.isWord, show isIdStart '#' = false by decide])
      have own : (t.spelled inlineSafe).toList.head? ≠ some '#' := by
        cases t with
        | identifier name escaped => exact word plain.1
        | keyword k => exact word (Scanner.isWord_spelling k)
        | string value =>
          rcases Scanner.delimiter_cases value.toList with quote | quote <;>
            simp [Token.spelled, Quoted.literal, quote]
        | punctuator p =>
          show p.spelling.toList.head? ≠ some '#'
          cases p <;> decide
        | _ => cases plain
      cases spelled : (t.spelled inlineSafe).toList with
      | nil => exact absurd spelled (plain.spelled_ne_nil inlineSafe)
      | cons c more =>
        rw [spelled] at own
        simpa using own

end Renders

namespace Parse

variable {s : ParseState} {tokens : List Token}

theorem programScope_run (settings : Settings) (s : ParseState) :
    ∃ scope scopes, programScope settings s = .ok scope { s with scopes } := by
  unfold programScope
  cases settings.strictMode <;> cases settings.sourceMode <;> exact ⟨_, _, rfl⟩

/-- A program is read if its list of statements is. -/
theorem program_run {n : Nat} {P : Tree → List NodeId → Prop} (settings : Settings)
    (delivers : s.scanner.Delivers tokens) (short : tokens.length + 2 ≤ s.rounds) (few : tokens.length ≤ n)
    (comments : s.comments = []) (allowed : s.context.noIn = false)
    (list : Reads true n (if settings.outputMode == .json then jsonChunk (rulesFor s.scanner.source)
        else statementList (rulesFor s.scanner.source) none true) tokens [] fun t result =>
      result.2 = none ∧ P t result.1) :
    ∃ root s', program settings s = .ok (root, none) s' ∧ s'.diagnostics = s.diagnostics ∧
      ∃ ids scope, s'.tree.form root = .program ids scope ∧ P s'.tree ids := by
  have comes := delivers.comes
  obtain ⟨scope, scopes, opened⟩ := programScope_run settings
    { s with scanner := s.scanner.next.2, current := s.scanner.next.1 }
  let s₁ : ParseState :=
    { s with scanner := s.scanner.next.2, current := s.scanner.next.1, scopes, context := { s.context with scope } }
  have stands : s₁.Stands tokens := by
    refine ⟨comes.token, fun update => ?_, comes.after, ?_, short, comments⟩
    · rw [show s₁.current.token = s.scanner.next.1.token from rfl, comes.token] at update
      exact comes.inLine update
    · rintro t rest rfl
      exact delivers.2
  obtain ⟨⟨ids, failure⟩, s₂, read, passes, holds⟩ := list s₁ ⟨stands, fun _ => allowed⟩ few
  obtain rfl : failure = none := (holds _ (.refl _)).1
  obtain ⟨span, spanned⟩ : ∃ span, spanFrom s₁.current.span s₂ = .ok span s₂ := by
    simp only [spanFrom, Bind.bind, EStateM.bind, get_run]
    split <;> exact ⟨_, rfl⟩
  have chosen {α β : Type} {c : Bool} {x y : Parse α} {f : α → Parse β} {a : α}
      (run : (if c then x else y) s₁ = .ok a s₂) : (if c then x >>= f else y >>= f) s₁ = f a s₂ := by
    cases c <;> exact bind_run run
  let tree := (s₂.tree.alloc (.program (ids ++ []) scope) span).2
  obtain ⟨s', run, reports, final⟩ : ∃ s', program settings s = .ok (⟨s₂.tree.size⟩, none) s' ∧
      s'.diagnostics = s₂.diagnostics ++ s₂.scanner.diagnostics ∧
      s'.tree = s₂.scanner.newFiles.foldl (fun t name => (t.addFile name).2) tree := by
    have first := nextSignificant_run comes (s := s) (by omega)
    have flushed := flushComments_run passes.stands
    exact ⟨_, (bind_run rfl).trans ((bind_run first).trans ((bind_run rfl).trans ((bind_run opened).trans ((bind_run rfl).trans
      ((bind_run rfl).trans ((chosen read).trans ((bind_run flushed).trans ((bind_run spanned).trans rfl)))))))), rfl, rfl⟩
  have nodes := tree.foldl_addFile_nodes s₂.scanner.newFiles
  have same (id : NodeId) : s'.tree.form id = tree.form id := by
    simp only [final, Tree.form, Tree.node?, nodes]
  refine ⟨_, s', run, ?_, ids, scope, (same _).trans ?_, (holds _ (.trans (.alloc ..) ⟨?_, fun id _ => same id⟩)).2⟩
  · rw [reports, passes.stands.quiet, append_nil, passes.diagnostics]
  · rw [Tree.alloc_form, if_pos rfl, append_nil]
  · rw [final]
    exact Nat.le_of_eq (congrArg Array.size nodes.symm)

end Parse

/-- Whether the text parses without errors as a program of statements that the predicate holds of. -/
def ParsesAs (source : String) (settings : Settings) (P : Tree → List NodeId → Prop) : Prop :=
  (∀ d ∈ (parse source settings).diagnostics, d.isError = false) ∧ (parse source settings).abortedAt = none ∧
    ∃ ids scope, (parse source settings).tree.form (parse source settings).root = .program ids scope ∧
      P (parse source settings).tree ids

section Texts

variable {source : String} {settings : Settings} {tokens : List Token} {P : Tree → List NodeId → Prop}
  (agrees : ∀ {ids t t'}, P t ids → t.Agrees t' → P t' ids)

include agrees

/-- A text whose tokens are read as a list of statements parses as a program of them. -/
theorem parse_of_delivers (delivers : (Scanner.new source settings).Delivers tokens)
    (short : tokens.length ≤ source.toList.length)
    (list : Parse.Reads true source.toList.length
      (if settings.outputMode == .json then Parse.jsonChunk (Parse.rulesFor source.toList)
        else Parse.statementList (Parse.rulesFor source.toList) none true) tokens [] fun t result =>
      result.2 = none ∧ P t result.1) : ParsesAs source settings P := by
  let file := (Tree.addFile {} "input").1
  let tree := (Tree.addFile {} "input").2
  let s : ParseState := { scanner := (Scanner.new source settings).setFile file tree.files.size, tree, scopes := {} }
  obtain ⟨root, s', run, silent, ids, scope, form, holds⟩ :=
    Parse.program_run (s := s) settings delivers (Nat.add_le_add_right short 2) short rfl rfl list
  have chunk : parseChunk source "input" settings {} {} =
      ({ root, diagnostics := [], abortedAt := none, isExhausted := false }, s'.tree, s'.scopes) := by
    dsimp only [parseChunk]
    rw [run]
    simp only [silent]
    rfl
  have resolved := resolveNames_agrees settings s'.tree s'.scopes root
  have mild := resolveNames_mild settings s'.tree s'.scopes root
  unfold ParsesAs parse
  rw [chunk]
  refine ⟨?_, rfl, ids, scope, ?_, agrees holds resolved⟩
  · simpa [Resolution.Mild] using mild
  · rcases resolved.form root with same | ⟨_, _, _, _, _, name, -⟩
    · exact same.trans form
    · rw [form] at name
      cases name

/-- A text that is read as a list of statements parses as a program of them. -/
theorem parse_of_list {inlineSafe : Bool} (renders : Renders inlineSafe true tokens source.toList)
    (noMarkers : settings.hasReplacements = false) (code : settings.outputMode ≠ .json)
    (list : Parse.Reads true source.toList.length (Parse.statementList (Parse.rulesFor source.toList) none true) tokens []
      fun t result => result.2 = none ∧ P t result.1) : ParsesAs source settings P := by
  have start : (Scanner.new source settings).cursor = { rest := source.toList } := by
    have head := renders.head_ne
    dsimp only [Scanner.new]
    split
    · rename_i text
      simp [text] at head
    · rfl
  have delivers : (Scanner.new source settings).Delivers tokens :=
    Scanner.delivers_of_renders renders ⟨noMarkers, rfl, rfl, not_mem_nil⟩ rfl (congrArg Cursor.rest start) rfl
  have notJson : (settings.outputMode == .json) = false := by simpa using code
  refine parse_of_delivers agrees delivers renders.length_le ?_
  rwa [notJson]

end Texts

end Condense
