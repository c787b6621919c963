import Condense.Diagnostic.Basic
import Condense.Text.Case
import Condense.Text.Ordered

/-!
Settings that every stage reads.
-/

namespace Condense

inductive Modification where
  | preserveImportantComments | bracketMemberToDotMember | newObjectToLiteral | newArrayToLiteral
  | removeEmptyDefaultCase | removeBreakFromLastCase | removeEmptyFinally | combineVarStatements
  | ifEmptyToExpression | ifCallToAndCall | ifElseReturnToConditional | combineAdjacentStrings
  | removeUnaryPlus | applyUnaryMinus | minifyNumbers | stripDebugStatements | localRenaming
  | removeFunctionExpressionNames | removeUnnecessaryCcOn | dateGetTimeToUnaryPlus
  | evaluateNumericExpressions | propertyRenaming | preprocessorDefines | removeQuotesFromNames
  | booleanLiteralsToNot | ifExpressionsToExpression | combineExpressionStatements
  deriving DecidableEq

/-- The number of the bit that switches the change off. -/
def Modification.bit : Modification → Nat
  | preserveImportantComments => 0
  | bracketMemberToDotMember => 1
  | newObjectToLiteral => 2
  | newArrayToLiteral => 3
  | removeEmptyDefaultCase => 4
  | removeBreakFromLastCase => 6
  | removeEmptyFinally => 7
  | combineVarStatements => 9
  | ifEmptyToExpression => 12
  | ifCallToAndCall => 13
  | ifElseReturnToConditional => 14
  | combineAdjacentStrings => 17
  | removeUnaryPlus => 18
  | applyUnaryMinus => 19
  | minifyNumbers => 21
  | stripDebugStatements => 23
  | localRenaming => 24
  | removeFunctionExpressionNames => 25
  | removeUnnecessaryCcOn => 27
  | dateGetTimeToUnaryPlus => 28
  | evaluateNumericExpressions => 29
  | propertyRenaming => 31
  | preprocessorDefines => 32
  | removeQuotesFromNames => 33
  | booleanLiteralsToNot => 34
  | ifExpressionsToExpression => 35
  | combineExpressionStatements => 36

/-- How far a call of `eval` keeps names from being changed. -/
inductive EvalTreatment where
  | ignore | makeImmediateSafe | makeAllSafe
  deriving DecidableEq

inductive LocalRenaming where
  | keepAll | keepLocalizationVars | crunchAll
  deriving DecidableEq

inductive OutputFormat where
  | singleLine | multipleLines | json
  deriving DecidableEq

inductive SourceMode where
  | script | module
  deriving DecidableEq

structure Settings where
  collapseToLiteral : Bool := true
  evalLiteralExpressions : Bool := true
  evalTreatment : EvalTreatment := .ignore
  ignoreConditionalCompilation : Bool := false
  indentSize : Nat := 4
  inlineSafeStrings : Bool := true
  /-- Bits of the modifications that are switched off. -/
  killSwitch : Nat := 0
  localRenaming : LocalRenaming := .crunchAll
  macSafariSafe : Bool := true
  manualRenamesProperties : Bool := true
  minifyCode : Bool := true
  outputMode : OutputFormat := .singleLine
  preserveFunctionNames : Bool := false
  preserveImportantComments : Bool := true
  removeFunctionExpressionNames : Bool := true
  removeUnneededCode : Bool := true
  sourceMode : SourceMode := .script
  strictMode : Bool := false
  stripDebugStatements : Bool := true
  termSemicolons : Bool := false
  generateSourceMap : Bool := false
  warningLevel : Nat := 0
  ignoreErrors : List Code := []
  renamePairs : Text.Dictionary := []
  noAutoRename : List String := ["$super"]
  knownGlobalNames : List String := []
  debugLookups : List String := ["Debug", "$Debug", "WAssert", "Msn.Debug", "Web.Debug"]
  preprocessorDefines : Text.Dictionary := []
  replacementTokens : Text.Dictionary := []
  replacementFallbacks : Text.Dictionary := []
  deriving DecidableEq, Inhabited

namespace Settings

/-- Whether none of the given bits is switched off. -/
def allowsBits (s : Settings) (bits : Nat) : Bool :=
  s.killSwitch &&& bits == 0

def allows (s : Settings) (m : Modification) : Bool :=
  s.allowsBits (Nat.pow 2 m.bit)

def renamesLocals (s : Settings) : Bool :=
  s.minifyCode && s.localRenaming != .keepAll && s.allows .localRenaming

def diagnosticFilter (s : Settings) : DiagnosticFilter :=
  { warningLevel := s.warningLevel, ignored := s.ignoreErrors }

def renameTarget? (s : Settings) (name : String) : Option String :=
  s.renamePairs.get? name

def keepsName (s : Settings) (name : String) : Bool :=
  s.noAutoRename.contains name

def isKnownGlobal (s : Settings) (name : String) : Bool :=
  s.knownGlobalNames.contains name

/-- Names of defines are compared in upper case. -/
def isDefined (s : Settings) (name : String) : Bool :=
  s.preprocessorDefines.has (Text.upper name)

/-- Names of replacements are compared in lower case. -/
def replacementToken? (s : Settings) (name : String) : Option String :=
  s.replacementTokens.get? (Text.lower name)

def replacementFallback? (s : Settings) (name : String) : Option String :=
  s.replacementFallbacks.get? (Text.lower name)

def hasReplacements (s : Settings) : Bool :=
  !s.replacementTokens.isEmpty || !s.replacementFallbacks.isEmpty

end Settings

end Condense
