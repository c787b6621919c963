import Condense.Minify.Passes
import Condense.Output.Emission
import Condense.Parsed
import Condense.Rename.Basic
import Condense.Scope.Report
import Condense.Settings.Setters

/-!
Compilation of one or more chunks that share one tree and one set of scopes, so that later chunks see the globals of
earlier ones.
-/

namespace Condense

structure Part where
  root : NodeId
  /-- Whether the input ended in the middle of a construct. -/
  isAborted : Bool
  isResolved : Bool := false

structure Compilation where
  settings : Settings
  tree : Tree := {}
  scopes : ScopeTree := {}
  parts : Array Part := #[]
  found : Array Diagnostic := #[]

structure Product where
  code : String
  diagnostics : List Diagnostic
  undefined : List UndefinedReference
  mappings : List Mapping

def Product.hasErrors (p : Product) : Bool :=
  p.diagnostics.any Diagnostic.isError

namespace Compilation

/-- Starts a compilation if the settings are valid. -/
def new (settings : Settings) : Except ConfigurationError Compilation := do
  settings.validate
  return { settings }

/-- Parses a chunk and answers its program node. -/
def add (c : Compilation) (name source : String) : NodeId × Compilation :=
  let (chunk, tree, scopes) := parseChunk source name c.settings c.tree c.scopes
  let part : Part := { root := chunk.root, isAborted := chunk.abortedAt.isSome }
  (chunk.root,
    { c with tree, scopes, parts := c.parts.push part, found := c.found ++ chunk.diagnostics.toArray })

def roots (c : Compilation) : List NodeId :=
  c.parts.toList.map (·.root)

/-- Resolves the names of one chunk, unless that was done before. -/
def resolvePart (c : Compilation) (part : Part) : Compilation :=
  if part.isResolved then { c with parts := c.parts.push part }
  else
    let r := resolveNames c.settings c.tree c.scopes part.root
    { c with
      tree := r.tree
      scopes := r.scopes
      parts := c.parts.push { part with isResolved := true }
      found := c.found ++ r.diagnostics }

def analyze (c : Compilation) : Compilation :=
  c.parts.foldl resolvePart { c with parts := #[] }

/-- Resolves, shortens and renames, and counts the changes. JSON output is left as it is. -/
def minify (c : Compilation) : Nat × Compilation :=
  let c := c.analyze
  let passed : Changed :=
    if c.settings.minifyCode && c.settings.outputMode != .json then
      runAllPasses c.settings c.scopes c.roots c.tree
    else { tree := c.tree }
  let renamed := rename c.settings passed.tree c.scopes c.roots
  (passed.changes + renamed.changes, { c with tree := renamed.tree, scopes := renamed.scopes })

def withFile (c : Compilation) (d : Diagnostic) : Diagnostic :=
  { d with file := d.file <|> c.tree.fileName? d.span.file }

def diagnostics (c : Compilation) : List Diagnostic :=
  c.found.toList.map c.withFile

def undefined (c : Compilation) : List UndefinedReference :=
  UndefinedReference.sorted c.scopes.undefined.toList

def emit (c : Compilation) : Product :=
  let emission := Condense.emit c.tree c.scopes c.settings c.roots
  { code := emission.code
    diagnostics := c.diagnostics ++ emission.diagnostics.map c.withFile
    undefined := c.undefined
    mappings := emission.mappings }

end Compilation

def minify (settings : Settings) (source : String) : Except ConfigurationError Product := do
  let c ← Compilation.new settings
  return ((c.add "input" source).2.minify).2.emit

namespace Product

def diagnosticJson (d : Diagnostic) : Json :=
  .object
    [("code", .string d.code.name),
     ("severity", .ofNat d.severity),
     ("category", .string d.category.name),
     ("file", .ofOption .string d.file),
     ("span", ScopeTree.spanJson d.span),
     ("message", .string d.message)]

def toJson (p : Product) : Json :=
  .object
    [("code", .string p.code),
     ("diagnostics", .array (p.diagnostics.map diagnosticJson)),
     ("undefined", .array (p.undefined.map ScopeTree.undefinedJson)),
     ("mappings", .array (p.mappings.map Mapping.toJson))]

end Product

end Condense
