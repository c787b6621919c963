/-!
Dictionaries and sets of texts, kept in ascending order of their keys.
-/

namespace Condense.Text

abbrev Dictionary := List (String × String)

namespace Dictionary

def insert (key value : String) : Dictionary → Dictionary
  | [] => [(key, value)]
  | (k, v) :: rest =>
    if key < k then (key, value) :: (k, v) :: rest
    else if key = k then (key, value) :: rest
    else (k, v) :: insert key value rest

def get? (key : String) (d : Dictionary) : Option String :=
  d.lookup key

def has (key : String) (d : Dictionary) : Bool :=
  (d.get? key).isSome

def keys (d : Dictionary) : List String :=
  d.map (·.1)

end Dictionary

def insertOrdered (name : String) : List String → List String
  | [] => [name]
  | n :: rest =>
    if name < n then name :: n :: rest
    else if name = n then n :: rest
    else n :: insertOrdered name rest

end Condense.Text
