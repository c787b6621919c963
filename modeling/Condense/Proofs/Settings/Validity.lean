import Condense.Settings.Setters

/-!
Settings stay valid under every sequence of calls of their setters: a call takes up only what was checked, and a call
that fails changes nothing.
-/

namespace Condense

open List

section Lists

variable {α β ε : Type}

theorem andThen_eq_ok {x : Except ε Unit} {y : Except ε β} {b : β} :
    (x >>= fun _ => y) = .ok b ↔ x = .ok () ∧ y = .ok b := by
  cases x with
  | error e => exact ⟨nofun, nofun⟩
  | ok => exact ⟨fun run => ⟨rfl, run⟩, fun both => both.2⟩

theorem forM_eq_ok {check : α → Except ε Unit} {list : List α} :
    list.forM check = .ok () ↔ ∀ x ∈ list, check x = .ok () := by
  induction list with
  | nil => exact ⟨fun _ => nofun, fun _ => rfl⟩
  | cons x rest ih =>
    rw [forall_mem_cons, ← ih]
    exact andThen_eq_ok

/-- Entries that are taken up one by one, each checked before, are all checked. -/
theorem foldlM_forall {step : List β → α → Except ε (List β)} {P : β → Prop}
    (checks : ∀ taken x next, step taken x = .ok next → ∀ y ∈ next, P y ∨ y ∈ taken) {list : List α}
    {result : List β} (run : list.foldlM step [] = .ok result) : ∀ y ∈ result, P y := by
  suffices ∀ start, (∀ y ∈ start, P y) → list.foldlM step start = .ok result → ∀ y ∈ result, P y from
    this [] nofun run
  clear run
  induction list with
  | nil =>
    intro start valid run
    cases run
    exact valid
  | cons x rest ih =>
    intro start valid run
    rw [foldlM_cons] at run
    cases first : step start x with
    | error e =>
      rw [first] at run
      cases run
    | ok next =>
      rw [first] at run
      exact ih next (fun y member => (checks start x next first y member).elim id (valid y)) run

end Lists

namespace Text

theorem Dictionary.mem_insert {entry : String × String} {key value : String} {d : Dictionary}
    (member : entry ∈ d.insert key value) : entry = (key, value) ∨ entry ∈ d := by
  induction d with
  | nil => exact .inl (mem_singleton.mp member)
  | cons first rest ih => grind [Dictionary.insert]

theorem mem_insertOrdered {text name : String} {list : List String} (member : text ∈ insertOrdered name list) :
    text = name ∨ text ∈ list := by
  induction list with
  | nil => exact .inl (mem_singleton.mp member)
  | cons first rest ih => grind [insertOrdered]

end Text

namespace Settings

variable {list : String}

/-- Whether the lists of names hold nothing but names. -/
structure Valid (s : Settings) : Prop where
  pairs : ∀ pair ∈ s.renamePairs, isValidIdentifier pair.1 = true ∧ isValidIdentifier pair.2 = true
  kept : ∀ name ∈ s.noAutoRename, isValidIdentifier name = true
  globals : ∀ name ∈ s.knownGlobalNames, isValidIdentifier name = true
  lookups : ∀ lookup ∈ s.debugLookups, (parts '.' lookup).all isValidIdentifier = true

theorem checkIdentifier_eq_ok {name : String} : checkIdentifier name = .ok () ↔ isValidIdentifier name := by
  unfold checkIdentifier
  split <;> simp_all

theorem checkMemberChain_eq_ok {chain : String} :
    checkMemberChain chain = .ok () ↔ (parts '.' chain).all isValidIdentifier := by
  unfold checkMemberChain
  split <;> simp_all

theorem validate_eq_ok {s : Settings} : s.validate = .ok () ↔ s.Valid := by
  unfold validate
  simp only [andThen_eq_ok, forM_eq_ok, checkIdentifier_eq_ok, checkMemberChain_eq_ok, forall_mem_append]
  exact ⟨fun ⟨pairs, ⟨kept, globals⟩, lookups⟩ => ⟨pairs, kept, globals, lookups⟩,
    fun valid => ⟨valid.pairs, ⟨valid.kept, valid.globals⟩, valid.lookups⟩⟩

theorem valid_default : Valid {} :=
  ⟨nofun, by decide +kernel, nofun, by decide +kernel⟩

theorem readRenamePairs_valid {result : Text.Dictionary} (run : readRenamePairs list = .ok result) :
    ∀ pair ∈ result, isValidIdentifier pair.1 ∧ isValidIdentifier pair.2 := by
  refine foldlM_forall ?_ run
  intro taken entry next step pair member
  cases read : readRenamePair entry with
  | error e =>
    rw [read] at step
    cases step
  | ok both =>
    rw [read] at step
    obtain ⟨validOld, step⟩ := andThen_eq_ok.mp step
    obtain ⟨validNew, step⟩ := andThen_eq_ok.mp step
    rw [checkIdentifier_eq_ok] at validOld validNew
    split at step
    · cases step
    · cases step
      rcases Text.Dictionary.mem_insert member with rfl | earlier
      · exact .inl ⟨validOld, validNew⟩
      · exact .inr earlier

theorem readIdentifiers_valid {result : List String} (run : readIdentifiers list = .ok result) :
    ∀ name ∈ result, isValidIdentifier name := by
  refine foldlM_forall ?_ run
  intro taken entry next step name member
  obtain ⟨valid, step⟩ := andThen_eq_ok.mp step
  cases step
  rcases Text.mem_insertOrdered member with rfl | earlier
  · exact .inl (checkIdentifier_eq_ok.mp valid)
  · exact .inr earlier

theorem readLookups_valid {result : List String} (run : readLookups list = .ok result) :
    ∀ lookup ∈ result, (parts '.' lookup).all isValidIdentifier := by
  refine foldlM_forall ?_ run
  intro taken entry next step lookup member
  obtain ⟨valid, step⟩ := andThen_eq_ok.mp step
  cases step
  split at member
  · exact .inr member
  · rcases mem_append.mp member with earlier | last
    · exact .inr earlier
    · rw [mem_singleton.mp last]
      exact .inl (checkMemberChain_eq_ok.mp valid)

end Settings

namespace Setter

/-- Whether a call succeeds, and keeps settings valid. -/
def Succeeds (call : Setter Unit) (s : Settings) : Prop :=
  ∃ s', call.run.run s = (.ok (), s') ∧ (s.Valid → s'.Valid)

/-- Whether a call that fails changes nothing, and one that succeeds keeps settings valid. -/
def Transacts (call : Setter Unit) : Prop :=
  ∀ s, call.Succeeds s ∨ ∃ e, call.run.run s = (.error e, s)

theorem transacts_throw (e : ConfigurationError) : Transacts (throw e) :=
  fun _ => .inr ⟨e, rfl⟩

theorem succeeds_modify {s : Settings} {change : Settings → Settings} (keeps : s.Valid → (change s).Valid) :
    Succeeds (modify change) s :=
  ⟨change s, rfl, keeps⟩

/-- What is read before anything is changed decides whether the call goes on. -/
theorem Transacts.read {α : Type} {read : Except ConfigurationError α} {rest : α → Setter Unit}
    (then' : ∀ a, read = .ok a → (rest a).Transacts) : Transacts (liftM read >>= rest) := by
  cases run : read with
  | error e => exact fun s => .inr ⟨e, rfl⟩
  | ok a => exact then' a run

theorem Transacts.get {rest : Settings → Setter Unit}
    (then' : ∀ s, (rest s).Succeeds s ∨ ∃ e, (rest s).run.run s = (.error e, s)) : Transacts (get >>= rest) :=
  then'

theorem addReplacementToken_succeeds (name value : String) (s : Settings) :
    (addReplacementToken name value).Succeeds s :=
  succeeds_modify fun valid => ⟨valid.pairs, valid.kept, valid.globals, valid.lookups⟩

theorem Succeeds.forM {α : Type} {call : α → Setter Unit} (each : ∀ x s, (call x).Succeeds s) (list : List α)
    (s : Settings) : Succeeds (list.forM call) s := by
  induction list generalizing s with
  | nil => exact ⟨s, rfl, id⟩
  | cons x rest ih =>
    obtain ⟨s₁, first, valid₁⟩ := each x s
    obtain ⟨s₂, more, valid₂⟩ := ih s₁
    refine ⟨s₂, ?_, valid₂ ∘ valid₁⟩
    have run : ((x :: rest).forM call).run.run s = (call x >>= fun _ => rest.forM call).run.run s := rfl
    simp only [run, ExceptT.run_bind, StateT.run_bind, first]
    exact more

theorem addRenamePair_transacts (old new : String) : (addRenamePair old new).Transacts := by
  refine .read fun _ validOld => .read fun _ validNew => .get fun s => ?_
  rw [Settings.checkIdentifier_eq_ok] at validOld validNew
  split
  · exact transacts_throw _ s
  · refine .inl (succeeds_modify fun valid => ⟨fun pair member => ?_, valid.kept, valid.globals, valid.lookups⟩)
    rcases Text.Dictionary.mem_insert member with rfl | earlier
    · exact ⟨validOld, validNew⟩
    · exact valid.pairs pair earlier

theorem setReplacementTokensJson_transacts (text : String) : (setReplacementTokensJson text).Transacts := by
  unfold setReplacementTokensJson
  split
  · exact transacts_throw _
  · refine fun s => .inl (.forM (fun (name, value) s => ?_) _ s)
    cases value <;> exact addReplacementToken_succeeds ..
  · exact transacts_throw _

/-- The calls that change settings. -/
inductive Call where
  | addRenamePair (old new : String)
  | setRenamePairs (list : String)
  | setNoAutoRename (list : String)
  | setKnownGlobalNames (list : String)
  | setDebugLookups (list : String)
  | setPreprocessorDefines (list : String)
  | addReplacementToken (name value : String)
  | addReplacementFallback (name value : String)
  | setReplacementTokensJson (text : String)

def Call.setter : Call → Setter Unit
  | addRenamePair old new => Setter.addRenamePair old new
  | setRenamePairs list => Setter.setRenamePairs list
  | setNoAutoRename list => Setter.setNoAutoRename list
  | setKnownGlobalNames list => Setter.setKnownGlobalNames list
  | setDebugLookups list => Setter.setDebugLookups list
  | setPreprocessorDefines list => Setter.setPreprocessorDefines list
  | addReplacementToken name value => Setter.addReplacementToken name value
  | addReplacementFallback name value => Setter.addReplacementFallback name value
  | setReplacementTokensJson text => Setter.setReplacementTokensJson text

theorem Call.transacts (call : Call) : call.setter.Transacts := by
  cases call with
  | addRenamePair old new => exact addRenamePair_transacts old new
  | setRenamePairs list =>
    exact .read fun pairs run s => .inl (succeeds_modify fun valid =>
      ⟨Settings.readRenamePairs_valid run, valid.kept, valid.globals, valid.lookups⟩)
  | setNoAutoRename list =>
    exact .read fun names run s => .inl (succeeds_modify fun valid =>
      ⟨valid.pairs, Settings.readIdentifiers_valid run, valid.globals, valid.lookups⟩)
  | setKnownGlobalNames list =>
    exact .read fun names run s => .inl (succeeds_modify fun valid =>
      ⟨valid.pairs, valid.kept, Settings.readIdentifiers_valid run, valid.lookups⟩)
  | setDebugLookups list =>
    exact .read fun lookups run s => .inl (succeeds_modify fun valid =>
      ⟨valid.pairs, valid.kept, valid.globals, Settings.readLookups_valid run⟩)
  | setPreprocessorDefines list =>
    exact .read fun defines run s => .inl (succeeds_modify fun valid =>
      ⟨valid.pairs, valid.kept, valid.globals, valid.lookups⟩)
  | addReplacementToken name value => exact fun s => .inl (addReplacementToken_succeeds name value s)
  | addReplacementFallback name value =>
    exact fun s => .inl (succeeds_modify fun valid => ⟨valid.pairs, valid.kept, valid.globals, valid.lookups⟩)
  | setReplacementTokensJson text => exact setReplacementTokensJson_transacts text

def settingsAfter (calls : List Call) (start : Settings) : Settings :=
  calls.foldl (fun s call => (call.setter.run.run s).2) start

theorem settingsAfter_valid (calls : List Call) {start : Settings} (valid : start.Valid) :
    (settingsAfter calls start).Valid := by
  induction calls generalizing start with
  | nil => exact valid
  | cons call rest ih =>
    refine @ih (call.setter.run.run start).2 ?_
    rcases call.transacts start with ⟨s', run, keeps⟩ | ⟨e, run⟩
    · rw [run]
      exact keeps valid
    · rwa [run]

/-- After any calls on the default settings these are valid, and the next call, if it fails, leaves them as they
are. -/
theorem calls_keep_settings (calls : List Call) :
    (settingsAfter calls {}).validate = .ok () ∧ ∀ (call : Call) (e : ConfigurationError) (s : Settings),
      call.setter.run.run (settingsAfter calls {}) = (.error e, s) → s = settingsAfter calls {} := by
  refine ⟨Settings.validate_eq_ok.mpr (settingsAfter_valid calls Settings.valid_default), fun call e s failed => ?_⟩
  rcases call.transacts (settingsAfter calls {}) with ⟨s', run, -⟩ | ⟨e', run⟩
  · rw [run] at failed
    cases failed
  · rw [run] at failed
    cases failed
    rfl

/-- A list that is refused for its last entry is not taken up in part. -/
theorem calls_keep_settings_late :
    let before := settingsAfter [.setKnownGlobalNames "jQuery", .addRenamePair "a" "b"] {}
    let after := (setRenamePairs "x=y,if=z").run.run before
    after.1.isOk = false ∧ after.2 = before ∧ before.renamePairs = [("a", "b")] := by
  intro before after
  have refused : after.1.isOk = false := by decide +kernel
  refine ⟨refused, ?_, by decide +kernel⟩
  cases run : after.1 with
  | ok => rw [run] at refused; cases refused
  | error e => exact (calls_keep_settings _).2 (.setRenamePairs "x=y,if=z") e after.2 (Prod.ext run rfl)

end Setter

end Condense
