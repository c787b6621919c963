import Condense.Grammar.Statement

/-!
Parsing a whole chunk of source.
-/

namespace Condense

namespace Parse

def rule (rules : Rules) : Rules
  | .item => item rules
  | .statement => statement rules
  | .assignment => assignment rules
  | .binary rank => binary rules rank
  | .unary => unary rules
  | .leftHandSide => leftHandSide rules
  | .newExpression => newExpression rules
  | .bindingTarget => bindingTarget rules

def rulesUpTo : Nat → Rules
  | 0 => fun _ => throw .exhausted
  | depth + 1 => fun goal => rule (rulesUpTo depth) goal

/-- No more than a few rules call each other without taking a token in between. -/
def rulesFor (source : List Char) : Rules :=
  rulesUpTo (4 * source.length + 16)

/-- In JSON output the chunk starts with one expression, so that a brace opens an object. -/
def jsonChunk (rules : Rules) : Parse (List NodeId × Option Failure) := do
  if ← isAtEnd then return ([], none)
  else
    match ← attempt (do
      let value ← expression rules
      consumeSemicolon
      return value) with
    | .ok value => statementList rules none false [value]
    | .error failure => return ([], some failure)

/-- The scope that the statements of a chunk belong to. -/
def programScope (settings : Settings) : Parse ScopeId := do
  if settings.strictMode then
    modifyScopes (·.modifyScope ScopeTree.global fun s => { s with useStrict := true })
  match settings.sourceMode with
  | .script => return ScopeTree.global
  | .module =>
    let scope ← onScopes (·.pushScope .module ScopeTree.global)
    modifyScopes (·.modifyScope scope fun s => { s with useStrict := true })
    return scope

/-- A chunk as a program node, and why it ended early if it did. -/
def programBy (rules : Rules) (settings : Settings) : Parse (NodeId × Option Failure) := do
  let first ← nextSignificant
  modify fun s => { s with current := first }
  let scope ← programScope settings
  modify fun s => { s with context := { s.context with scope } }
  let start ← place
  let (statements, failure) ←
    if settings.outputMode == .json then jsonChunk rules else statementList rules none true
  let statements := statements ++ (← flushComments)
  let span ← spanFrom start
  let root ← alloc (.program statements scope) span
  modifyScopes (·.modifyScope scope fun s =>
    if scope != ScopeTree.global || s.owner.isNone then { s with owner := some root, span } else s)
  let files := (← get).scanner.newFiles
  modifyTree fun t => files.foldl (fun t name => (t.addFile name).2) t
  collectDiagnostics
  return (root, failure)

def program (settings : Settings) : Parse (NodeId × Option Failure) := do
  programBy (rulesFor (← get).scanner.source) settings

end Parse

structure Chunk where
  root : NodeId
  diagnostics : List Diagnostic
  /-- Where the input ended in the middle of a construct. -/
  abortedAt : Option (UInt32 × UInt32)
  /-- Whether the steps that parsing may take ran out before it was done. -/
  isExhausted : Bool

def Failure.place? : Failure → Option (UInt32 × UInt32)
  | .endOfInput line column => some (line, column)
  | _ => none

def Failure.isExhausted : Failure → Bool
  | .exhausted => true
  | _ => false

/-- Parses a chunk into a tree and scopes that may hold earlier chunks. -/
def parseChunk (source fileName : String) (settings : Settings) (tree : Tree) (scopes : ScopeTree) :
    Chunk × Tree × ScopeTree :=
  let (file, tree) := tree.addFile fileName
  let scanner := (Scanner.new source settings).setFile file tree.files.size
  let state : ParseState := { scanner, tree, scopes }
  match Parse.program settings state with
  | .ok (root, failure) s =>
    ({ root
       diagnostics := s.diagnostics
       abortedAt := failure.bind (·.place?)
       isExhausted := failure.any (·.isExhausted) }, s.tree, s.scopes)
  | .error failure s =>
    let (root, tree) := s.tree.alloc (.program [] ScopeTree.global) {}
    ({ root
       diagnostics := s.diagnostics
       abortedAt := failure.place?
       isExhausted := failure.isExhausted }, tree, s.scopes)

end Condense
