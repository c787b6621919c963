import Condense.Json.Basic
import Condense.Scope.Basic

/-!
A report on scopes and their names, as text or as JSON.
-/

namespace Condense

/-- The groups of a scope's names, in the order they are listed. -/
inductive FieldGroup where
  | argument | localName | function | outer | global
  deriving DecidableEq

namespace FieldGroup

def rank (g : FieldGroup) : Nat :=
  g.ctorIdx

def name : FieldGroup → String
  | argument => "Argument"
  | localName => "Local"
  | function => "Function"
  | outer => "Outer"
  | global => "Global"

end FieldGroup

def Field.group (f : Field) : FieldGroup :=
  if f.isShim then .outer
  else match f.kind with
    | .withField => .outer
    | .argument | .arguments => .argument
    | .localName | .catchError => if f.isFunction then .function else .localName
    | .global => if f.isFunction then .function else .global
    | .predefined | .super | .ghost => .global

/-- By group, then by name regardless of case, then by name. -/
def Field.compareForReport (a b : Field) : Ordering :=
  (compare a.group.rank b.group.rank).then
    ((compare (Text.lower a.name) (Text.lower b.name)).then (compare a.name b.name))

def Field.isListed (f : Field) : Bool :=
  !f.isPlaceholder && f.kind != .ghost && !(f.kind == .arguments && f.refCount == 0)

namespace ScopeTree

def listedFields (t : ScopeTree) (id : ScopeId) : List FieldId :=
  ((t.scope id).fields.toList.filter fun f => (t.field f).isListed).mergeSort fun a b =>
    (t.field a).compareForReport (t.field b) != .gt

def placeBefore (t : ScopeTree) (a b : ScopeId) : Bool :=
  let p := (t.scope a).span
  let q := (t.scope b).span
  ((compare p.file.index q.file.index).then
    ((compare p.start.line q.start.line).then
      ((compare p.start.column q.start.column).then (compare a.index b.index)))) != .gt

def listedScopes (t : ScopeTree) : List ScopeId :=
  global :: (t.topDown.filter (· != global)).mergeSort t.placeBefore

def placeText (span : Span) : String :=
  toString span.start.line ++ ":" ++ toString span.start.column

def fieldText (t : ScopeTree) (id : FieldId) : String :=
  let f := t.field id
  let renamed := match (t.field (t.outermost id)).crunchedName with
    | some name => " -> " ++ name
    | none => ""
  let place := match f.declarations.head? with
    | some span => " @" ++ placeText span
    | none => ""
  "    " ++ f.group.name ++ " " ++ f.name ++ renamed ++ " (refs: " ++ toString f.refCount ++ ")" ++ place
    ++ "\n"

def scopeText (t : ScopeTree) (id : ScopeId) : String :=
  let s := t.scope id
  let place := if s.owner.isSome then " (" ++ placeText s.span ++ ")" else ""
  let strict := if s.useStrict then " [strict]" else ""
  let unknown := if s.isKnown then "" else " [unknown]"
  s.kind.name ++ " scope" ++ place ++ strict ++ unknown ++ "\n"
    ++ String.join ((t.listedFields id).map t.fieldText)

def undefinedText (ref : UndefinedReference) : String :=
  "    " ++ ref.name ++ " (" ++ ref.type.name ++ ") @" ++ placeText ref.span ++ "\n"

def reportText (t : ScopeTree) : String :=
  let undefined := UndefinedReference.sorted t.undefined.toList
  String.join (t.listedScopes.map t.scopeText)
    ++ (if undefined.isEmpty then "" else "Undefined\n" ++ String.join (undefined.map undefinedText))

def positionJson (p : Position) : Json :=
  .object [("line", .ofNat p.line.toNat), ("column", .ofNat p.column.toNat), ("offset", .ofNat p.offset)]

def spanJson (s : Span) : Json :=
  .object [("file", .ofNat s.file.index), ("start", positionJson s.start), ("end", positionJson s.stop)]

def fieldJson (t : ScopeTree) (id : FieldId) : Json :=
  let f := t.field id
  .object
    [("id", .ofNat id.index),
     ("name", .string f.name),
     ("kind", .string f.kind.name),
     ("category", .string f.group.name),
     ("ref_count", .ofNat f.refCount),
     ("crunched_name", .ofOption .string (t.field (t.outermost id)).crunchedName),
     ("outer_chain", .array ((t.outerChain id).tail.map fun o => .ofNat o.index)),
     ("declared_at", .ofOption spanJson f.declarations.head?),
     ("is_exported", .boolean f.isExported),
     ("is_literal", .boolean f.isLiteral),
     ("is_with_shadowed", .boolean (f.kind == .withField)),
     ("can_crunch", .boolean f.canCrunch)]

def scopeJson (t : ScopeTree) (id : ScopeId) : Json :=
  let s := t.scope id
  .object
    [("id", .ofNat id.index),
     ("kind", .string s.kind.name),
     ("parent", .ofOption (fun p : ScopeId => .ofNat p.index) s.parent),
     ("owner", .ofOption (fun o : NodeId => .ofNat o.index) s.owner),
     ("context", spanJson s.span),
     ("use_strict", .boolean s.useStrict),
     ("known_at_compile_time", .boolean s.isKnown),
     ("fields", .array ((t.listedFields id).map t.fieldJson))]

def undefinedJson (ref : UndefinedReference) : Json :=
  .object
    [("name", .string ref.name), ("span", spanJson ref.span), ("reference_type", .string ref.type.name)]

def reportJson (t : ScopeTree) : Json :=
  .object
    [("scopes", .array (t.listedScopes.map t.scopeJson)),
     ("undefined", .array ((UndefinedReference.sorted t.undefined.toList).map undefinedJson))]

end ScopeTree

end Condense
