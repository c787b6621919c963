import Condense.Json.Reader
import Condense.Settings.Basic
import Condense.Text.Blank
import Condense.Token.Name

/-!
Setters that check what they are given before they change anything.
-/

namespace Condense

inductive ConfigurationError where
  | invalidIdentifier (name : String)
  | malformedRenamePair (pair : String)
  | duplicateRename (name : String)
  | invalidDefine (text : String)
  | replacementsUnreadable
  | replacementsNotAnObject
  | invalidSettings
  deriving DecidableEq

namespace ConfigurationError

def code : ConfigurationError → Code
  | malformedRenamePair _ | duplicateRename _ => .invalidRenamePair
  | _ => .invalidIdentifier

def message : ConfigurationError → String
  | invalidIdentifier name => "`" ++ name ++ "` is not a valid identifier"
  | malformedRenamePair pair => "malformed rename pair `" ++ pair ++ "`, expected `old=new`"
  | duplicateRename name => "`" ++ name ++ "` already has a rename target"
  | invalidDefine text => "invalid preprocessor define `" ++ text ++ "`"
  | replacementsUnreadable => "invalid replacement token set"
  | replacementsNotAnObject => "invalid replacement token set: expected a JSON object"
  | invalidSettings => "invalid settings"

end ConfigurationError

namespace Settings

def splitAt (isSeparator : Char → Bool) : List Char → List (List Char)
  | [] => [[]]
  | c :: rest =>
    if isSeparator c then [] :: splitAt isSeparator rest
    else match splitAt isSeparator rest with
      | [] => [[c]]
      | part :: parts => (c :: part) :: parts

def parts (separator : Char) (s : String) : List String :=
  (splitAt (· == separator) s.toList).map String.ofList

def entries (list : String) : List String :=
  ((splitAt (fun c => c == ',' || c == ';') list.toList).map (Text.trim ∘ String.ofList)).filter
    (!·.isEmpty)

def checkIdentifier (name : String) : Except ConfigurationError Unit :=
  if isValidIdentifier name then .ok () else .error (.invalidIdentifier name)

def checkMemberChain (chain : String) : Except ConfigurationError Unit :=
  if (parts '.' chain).all isValidIdentifier then .ok () else .error (.invalidIdentifier chain)

def validate (s : Settings) : Except ConfigurationError Unit := do
  s.renamePairs.forM fun (old, new) => do
    checkIdentifier old
    checkIdentifier new
  (s.noAutoRename ++ s.knownGlobalNames).forM checkIdentifier
  s.debugLookups.forM checkMemberChain

def readRenamePair (pair : String) : Except ConfigurationError (String × String) :=
  match parts '=' pair with
  | [old, new] => .ok (Text.trim old, Text.trim new)
  | _ => .error (.malformedRenamePair pair)

def readRenamePairs (list : String) : Except ConfigurationError Text.Dictionary :=
  (entries list).foldlM (fun (pairs : Text.Dictionary) pair => do
    let (old, new) ← readRenamePair pair
    checkIdentifier old
    checkIdentifier new
    if pairs.has old then .error (.duplicateRename old) else .ok (pairs.insert old new)) []

def readIdentifiers (list : String) : Except ConfigurationError (List String) :=
  (entries list).foldlM (fun names name => do
    checkIdentifier name
    .ok (Text.insertOrdered name names)) []

def readLookups (list : String) : Except ConfigurationError (List String) :=
  (entries list).foldlM (fun (lookups : List String) lookup => do
    checkMemberChain lookup
    .ok (if lookups.contains lookup then lookups else lookups ++ [lookup])) []

/-- The name and value of a define; without an equals sign the value is empty. -/
def readDefine (define : String) : String × String :=
  let cs := define.toList
  match cs.dropWhile (· != '=') with
  | [] => (define, "")
  | _ :: value =>
    (Text.trim (String.ofList (cs.takeWhile (· != '='))), Text.trim (String.ofList value))

def readDefines (list : String) : Except ConfigurationError Text.Dictionary :=
  (entries list).foldlM (fun (defines : Text.Dictionary) define =>
    let (name, value) := readDefine define
    if isValidIdentifier name then .ok (defines.insert (Text.upper name) value)
    else .error (.invalidDefine define)) []

end Settings

/-- A call that changes settings in place. What it changed before it failed stays changed. -/
abbrev Setter := ExceptT ConfigurationError (StateM Settings)

namespace Setter

open Settings

def addRenamePair (old new : String) : Setter Unit := do
  checkIdentifier old
  checkIdentifier new
  if (← get).renamePairs.has old then throw (.duplicateRename old)
  else modify fun s => { s with renamePairs := s.renamePairs.insert old new }

def setRenamePairs (list : String) : Setter Unit := do
  let pairs ← readRenamePairs list
  modify fun s => { s with renamePairs := pairs }

def setNoAutoRename (list : String) : Setter Unit := do
  let names ← readIdentifiers list
  modify fun s => { s with noAutoRename := names }

def setKnownGlobalNames (list : String) : Setter Unit := do
  let names ← readIdentifiers list
  modify fun s => { s with knownGlobalNames := names }

def setDebugLookups (list : String) : Setter Unit := do
  let lookups ← readLookups list
  modify fun s => { s with debugLookups := lookups }

def setPreprocessorDefines (list : String) : Setter Unit := do
  let defines ← readDefines list
  modify fun s => { s with preprocessorDefines := defines }

def addReplacementToken (name value : String) : Setter Unit :=
  modify fun s => { s with replacementTokens := s.replacementTokens.insert (Text.lower name) value }

def addReplacementFallback (name value : String) : Setter Unit :=
  modify fun s => { s with replacementFallbacks := s.replacementFallbacks.insert (Text.lower name) value }

/-- Adds the members of a JSON object as replacements; members that are no strings stand for their
JSON text. -/
def setReplacementTokensJson (text : String) : Setter Unit :=
  match Json.parse? text with
  | none => throw .replacementsUnreadable
  | some (.object members) => members.forM fun (name, value) =>
    match value with
    | .string v => addReplacementToken name v
    | other => addReplacementToken name other.text
  | some _ => throw .replacementsNotAnObject

end Setter

end Condense
