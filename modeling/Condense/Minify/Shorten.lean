import Condense.Minify.Basic
import Condense.Scope.Basic
import Condense.Settings.Basic
import Condense.Token.Name

/-!
Shorter forms of single expressions: members by dot, literals for the built-in constructors, the current time by a
unary plus, and keys without quotes.
-/

namespace Condense.Shorten

/-- Whether a callee is the built-in of that name, which nothing has redefined. -/
def isBuiltIn (t : Tree) (scopes : ScopeTree) (callee : NodeId) (name : String) : Bool :=
  match t.form callee with
  | .lookup found (some field) _ =>
    found == name && (scopes.field (scopes.outermost field)).kind == .predefined
  | _ => false

/-- Whether the arguments of `Array` become its elements: a single number is a length. -/
def areElements (t : Tree) (arguments : List NodeId) : Bool :=
  match arguments with
  | [] => true
  | [only] => match t.form only with
    | .constant (.string _) => true
    | _ => false
  | many => many.all fun id => match t.form id with
    | .spread _ => false
    | _ => true

def literalFor? (settings : Settings) (scopes : ScopeTree) (t : Tree) (callee : NodeId)
    (arguments : List NodeId) : Option (Form NodeId) :=
  if settings.allows .newObjectToLiteral && arguments.isEmpty && isBuiltIn t scopes callee "Object" then
    some (.objectLiteral [] false)
  else if settings.allows .newArrayToLiteral && isBuiltIn t scopes callee "Array"
      && areElements t arguments then
    some (.arrayLiteral (arguments.map some))
  else none

/-- The sum for a call of `new Date().getTime`. -/
def currentTime? (scopes : ScopeTree) (t : Tree) (callee : NodeId) : Option (Form NodeId) :=
  match t.form callee with
  | .member object "getTime" false =>
    match t.form object with
    | .call constructor [] true _ =>
      if isBuiltIn t scopes constructor "Date" then some (.unary .plus object) else none
    | _ => none
  | _ => none

def shorter? (settings : Settings) (scopes : ScopeTree) (t : Tree) (id : NodeId) : Option (Form NodeId) :=
  match t.form id with
  | .index object key isOptional =>
    if settings.allows .bracketMemberToDotMember then
      match t.constant? key with
      | some (.string name) =>
        if isValidIdentifier name then some (.member object name isOptional) else none
      | _ => none
    else none
  | .call callee arguments true _ =>
    if settings.collapseToLiteral then literalFor? settings scopes t callee arguments else none
  | .call callee [] false false =>
    if settings.allows .dateGetTimeToUnaryPlus then currentTime? scopes t callee else none
  | _ => none

def shorten (settings : Settings) (scopes : ScopeTree) (t : Tree) (id : NodeId) : Changed :=
  Changed.ofOption t ((shorter? settings scopes t id).map (t.setForm id))

/-- The key of a property or class member that may go without its quotes. -/
def plainKey? (t : Tree) (id : NodeId) : Option NodeId :=
  match t.form id with
  | .property key _ _ false =>
    match (t.parent? id).map t.form with
    | some (.objectLiteral _ true) => none
    | _ => some key
  | .classMember key _ _ _ false => some key
  | _ => none

def unquote (t : Tree) (id : NodeId) : Changed :=
  match (plainKey? t id).map fun key => (key, t.form key) with
  | some (key, .constant (.string name)) =>
    if isValidIdentifier name then { tree := t.setForm key (.propertyName name), changes := 1 }
    else { tree := t }
  | _ => { tree := t }

def run (settings : Settings) (scopes : ScopeTree) (root : NodeId) (t : Tree) : Changed :=
  (Changed.each (t.descendants root) (shorten settings scopes) t).andThen fun t =>
    if settings.allows .removeQuotesFromNames then Changed.each (t.descendants root) unquote t
    else { tree := t }

end Condense.Shorten
