import Condense.Settings.Setters

/-!
Settings as JSON text. Members that are not known are passed over; a known one of the wrong type, or given twice,
makes the text invalid.
-/

namespace Condense

def EvalTreatment.name : EvalTreatment → String
  | .ignore => "Ignore"
  | .makeImmediateSafe => "MakeImmediateSafe"
  | .makeAllSafe => "MakeAllSafe"

def LocalRenaming.name : LocalRenaming → String
  | .keepAll => "KeepAll"
  | .keepLocalizationVars => "KeepLocalizationVars"
  | .crunchAll => "CrunchAll"

def OutputFormat.name : OutputFormat → String
  | .singleLine => "SingleLine"
  | .multipleLines => "MultipleLines"
  | .json => "Json"

def SourceMode.name : SourceMode → String
  | .script => "Script"
  | .module => "Module"

namespace Settings

def readBool : Json → Option Bool
  | .boolean b => some b
  | _ => none

def readNatBelow (limit : Nat) : Json → Option Nat
  | .number (.natural n) => if n < limit then some n else none
  | _ => none

def readText : Json → Option String
  | .string s => some s
  | _ => none

/-- A choice is its name, or an object with the name as its only key and nothing in it. -/
def readChoice {α : Type} (choices : List α) (name : α → String) : Json → Option α
  | .string s | .object [(s, .null)] => choices.find? (name · == s)
  | _ => none

def readList {α : Type} (read : Json → Option α) : Json → Option (List α)
  | .array items => items.mapM read
  | _ => none

def readDictionary : Json → Option Text.Dictionary
  | .object members =>
    members.foldlM (fun (d : Text.Dictionary) (key, value) => do return d.insert key (← readText value)) []
  | _ => none

def readSet (json : Json) : Option (List String) := do
  let names ← readList readText json
  return names.foldl (fun names name => Text.insertOrdered name names) []

/-- The members in order, each with how its value is taken up. -/
def members : List (String × (Settings → Json → Option Settings)) :=
  [("collapse_to_literal", fun s j => do return { s with collapseToLiteral := ← readBool j }),
    ("eval_literal_expressions", fun s j => do return { s with evalLiteralExpressions := ← readBool j }),
    ("eval_treatment", fun s j => do
      let choices := [EvalTreatment.ignore, .makeImmediateSafe, .makeAllSafe]
      return { s with evalTreatment := ← readChoice choices (·.name) j }),
    ("ignore_conditional_compilation", fun s j => do
      return { s with ignoreConditionalCompilation := ← readBool j }),
    ("indent_size", fun s j => do return { s with indentSize := ← readNatBelow (Nat.pow 2 64) j }),
    ("inline_safe_strings", fun s j => do return { s with inlineSafeStrings := ← readBool j }),
    ("kill_switch", fun s j => do return { s with killSwitch := ← readNatBelow (Nat.pow 2 64) j }),
    ("local_renaming", fun s j => do
      let choices := [LocalRenaming.keepAll, .keepLocalizationVars, .crunchAll]
      return { s with localRenaming := ← readChoice choices (·.name) j }),
    ("mac_safari_quirks", fun s j => do return { s with macSafariSafe := ← readBool j }),
    ("manual_renames_properties", fun s j => do
      return { s with manualRenamesProperties := ← readBool j }),
    ("minify_code", fun s j => do return { s with minifyCode := ← readBool j }),
    ("output_mode", fun s j => do
      let choices := [OutputFormat.singleLine, .multipleLines, .json]
      return { s with outputMode := ← readChoice choices (·.name) j }),
    ("preserve_function_names", fun s j => do return { s with preserveFunctionNames := ← readBool j }),
    ("preserve_important_comments", fun s j => do
      return { s with preserveImportantComments := ← readBool j }),
    ("remove_function_expression_names", fun s j => do
      return { s with removeFunctionExpressionNames := ← readBool j }),
    ("remove_unneeded_code", fun s j => do return { s with removeUnneededCode := ← readBool j }),
    ("source_mode", fun s j => do
      return { s with sourceMode := ← readChoice [SourceMode.script, .module] (·.name) j }),
    ("strict_mode", fun s j => do return { s with strictMode := ← readBool j }),
    ("strip_debug_statements", fun s j => do return { s with stripDebugStatements := ← readBool j }),
    ("term_semicolons", fun s j => do return { s with termSemicolons := ← readBool j }),
    ("generate_source_map", fun s j => do return { s with generateSourceMap := ← readBool j }),
    ("warning_level", fun s j => do return { s with warningLevel := ← readNatBelow 256 j }),
    ("ignore_errors", fun s j => do
      return { s with ignoreErrors := ← readList (readChoice Code.all (·.name)) j }),
    ("rename_pairs", fun s j => do return { s with renamePairs := ← readDictionary j }),
    ("no_auto_rename", fun s j => do return { s with noAutoRename := ← readSet j }),
    ("known_global_names", fun s j => do return { s with knownGlobalNames := ← readSet j }),
    ("debug_lookups", fun s j => do return { s with debugLookups := ← readList readText j }),
    ("preprocessor_defines", fun s j => do return { s with preprocessorDefines := ← readDictionary j }),
    ("replacement_tokens", fun s j => do return { s with replacementTokens := ← readDictionary j }),
    ("replacement_fallbacks", fun s j => do
      return { s with replacementFallbacks := ← readDictionary j })]

/-- Takes up the members of an object, none of the known ones twice. -/
def readMembers (seen : List String) (s : Settings) : List (String × Json) → Option Settings
  | [] => some s
  | (key, value) :: rest =>
    match members.lookup key with
    | none => readMembers seen s rest
    | some read =>
      if seen.contains key then none
      else (read s value).bind fun s => readMembers (key :: seen) s rest

/-- Takes up values that are given in order without keys. -/
def readInOrder (s : Settings) :
    List (String × (Settings → Json → Option Settings)) → List Json → Option Settings
  | _, [] => some s
  | [], _ :: _ => none
  | (_, read) :: known, value :: values => (read s value).bind fun s => readInOrder s known values

def readJson : Json → Option Settings
  | .object given => readMembers [] {} given
  | .array values => readInOrder {} members values
  | _ => none

/-- The settings of a JSON text, if it is well-formed and the names in it are valid. -/
def ofJson (text : String) : Except ConfigurationError Settings :=
  match (Json.read? text).bind readJson with
  | none => .error .invalidSettings
  | some s => do
    s.validate
    .ok s

def toJson (s : Settings) : Json :=
  let names (l : List String) : Json := .array (l.map .string)
  let dictionary (d : Text.Dictionary) : Json := .object (d.map fun (k, v) => (k, .string v))
  let natural (n : Nat) : Json := .number (.natural n)
  .object
    [("collapse_to_literal", .boolean s.collapseToLiteral),
      ("eval_literal_expressions", .boolean s.evalLiteralExpressions),
      ("eval_treatment", .string s.evalTreatment.name),
      ("ignore_conditional_compilation", .boolean s.ignoreConditionalCompilation),
      ("indent_size", natural s.indentSize),
      ("inline_safe_strings", .boolean s.inlineSafeStrings),
      ("kill_switch", natural s.killSwitch),
      ("local_renaming", .string s.localRenaming.name),
      ("mac_safari_quirks", .boolean s.macSafariSafe),
      ("manual_renames_properties", .boolean s.manualRenamesProperties),
      ("minify_code", .boolean s.minifyCode),
      ("output_mode", .string s.outputMode.name),
      ("preserve_function_names", .boolean s.preserveFunctionNames),
      ("preserve_important_comments", .boolean s.preserveImportantComments),
      ("remove_function_expression_names", .boolean s.removeFunctionExpressionNames),
      ("remove_unneeded_code", .boolean s.removeUnneededCode),
      ("source_mode", .string s.sourceMode.name),
      ("strict_mode", .boolean s.strictMode),
      ("strip_debug_statements", .boolean s.stripDebugStatements),
      ("term_semicolons", .boolean s.termSemicolons),
      ("generate_source_map", .boolean s.generateSourceMap),
      ("warning_level", natural s.warningLevel),
      ("ignore_errors", .array (s.ignoreErrors.map fun c => .string c.name)),
      ("rename_pairs", dictionary s.renamePairs),
      ("no_auto_rename", names s.noAutoRename),
      ("known_global_names", names s.knownGlobalNames),
      ("debug_lookups", names s.debugLookups),
      ("preprocessor_defines", dictionary s.preprocessorDefines),
      ("replacement_tokens", dictionary s.replacementTokens),
      ("replacement_fallbacks", dictionary s.replacementFallbacks)]

end Settings

end Condense
