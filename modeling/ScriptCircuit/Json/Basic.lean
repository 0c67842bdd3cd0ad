import ScriptCircuit.Json.Number

/-!
# JSON documents

A document keeps whether a number was written as an integer, and an object keeps its fields sorted by key, each key once.
-/

namespace ScriptCircuit

/-- A JSON document. -/
inductive Json where
  | null
  | bool (b : Bool)
  | number (n : JsonNumber)
  | string (s : String)
  | array (items : List Json)
  | object (fields : List (String × Json))
deriving Inhabited

namespace Json

/-- The document of a natural number. -/
def ofNat (n : Nat) : Json :=
  number (.integer n)

/-- The fields with one more, in the place of a field with the same key. -/
def insertField (key : String) (value : Json) : List (String × Json) → List (String × Json)
  | [] => [(key, value)]
  | (k, v) :: rest =>
    if key = k then (key, value) :: rest
    else if key < k then (key, value) :: (k, v) :: rest
    else (k, v) :: insertField key value rest

/-- The object of a list of fields, in which a later field replaces an earlier one with the same key. -/
def ofFields (fields : List (String × Json)) : Json :=
  object (fields.foldl (fun fields (key, value) => insertField key value fields) [])

/-- The value of a field of an object. -/
def field? (key : String) : Json → Option Json
  | object fields => fields.lookup key
  | _ => none

/-- The text of a string. -/
def string? : Json → Option String
  | string s => some s
  | _ => none

/-- The name of the type of a document. -/
def typeName : Json → String
  | null => "null"
  | bool _ => "boolean"
  | number _ => "number"
  | string _ => "string"
  | array _ => "array"
  | object _ => "object"

/-- What a loop over a document visits: the items of an array, the values of an object by the order of the keys, nothing
for null, and any other document itself. -/
def elements : Json → List Json
  | null => []
  | array items => items
  | object fields => fields.map (·.2)
  | other => [other]

end Json

end ScriptCircuit
