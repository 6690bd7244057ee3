import RowSecurity.Json.Number
import RowSecurity.Text

-- JSON values. The members of an object are a list; one that was read lists its names in ascending
-- order, each once.
namespace RowSecurity

inductive Json where
  | null
  | bool (value : Bool)
  | number (value : Number)
  | string (value : String)
  | array (items : List Json)
  | object (members : List (String × Json))

namespace Json

def put (name : String) (value : Json) : List (String × Json) → List (String × Json)
  | [] => [(name, value)]
  | (other, held) :: rest =>
      if name = other then (name, value) :: rest
      else if name < other then (name, value) :: (other, held) :: rest
      else (other, held) :: put name value rest

def ofMembers (members : List (String × Json)) : Json :=
  .object (members.foldl (fun placed member => put member.1 member.2 placed) [])

def member? (members : List (String × Json)) (name : String) : Option Json :=
  (members.find? (·.1 == name)).map (·.2)

def isNull : Json → Bool
  | .null => true
  | _ => false

def bool? : Json → Option Bool
  | .bool value => some value
  | _ => none

def string? : Json → Option String
  | .string value => some value
  | _ => none

def array? : Json → Option (List Json)
  | .array items => some items
  | _ => none

def listOf? (decode : Json → Option α) (value : Json) : Option (List α) :=
  value.array?.bind fun items => items.mapM decode

-- Equality of JSON values. Inside a value an integer never equals a float, and
-- floats are equal by value.
mutual
def same : Json → Json → Bool
  | .null, .null => true
  | .bool a, .bool b => a == b
  | .number a, .number b => a.same b
  | .string a, .string b => a == b
  | .array a, .array b => sameItems a b
  | .object a, .object b => sameMembers a b
  | _, _ => false
termination_by structural left => left

def sameItems : List Json → List Json → Bool
  | [], [] => true
  | a :: left, b :: right => same a b && sameItems left right
  | _, _ => false
termination_by structural left => left

def sameMembers : List (String × Json) → List (String × Json) → Bool
  | [], [] => true
  | (m, a) :: left, (n, b) :: right => m == n && same a b && sameMembers left right
  | _, _ => false
termination_by structural left => left
end

inductive Record where
  | named (members : List (String × Json))
  | placed (items : List Json)

-- An array with more items than the record has fields is no record; members with
-- names that no field has are passed over.
def record? (size : Nat) : Json → Option Record
  | .object members => some (.named members)
  | .array items => if items.length ≤ size then some (.placed items) else none
  | _ => none

namespace Record

def field? : Record → Nat → String → Option Json
  | .named members, _, name => member? members name
  | .placed items, position, _ => items[position]?

def required (record : Record) (position : Nat) (name : String) (decode : Json → Option α) :
    Option α :=
  (record.field? position name).bind decode

def defaulted (record : Record) (position : Nat) (name : String) (value : α)
    (decode : Json → Option α) : Option α :=
  match record.field? position name with
  | none => some value
  | some found => decode found

def nullable (decode : Json → Option α) (value : Json) : Option (Option α) :=
  if value.isNull then some none else (decode value).map some

-- A field that may be null. By name it may also be left out; by position it may not,
-- since the fields after it keep their places.
def optional (record : Record) (position : Nat) (name : String) (decode : Json → Option α) :
    Option (Option α) :=
  match record, record.field? position name with
  | .named _, none => some none
  | .placed _, none => none
  | _, some found => nullable decode found

end Record

class Stored (α : Type) where
  words : List α
  key : α → String
  find_key : ∀ word, words.find? (fun other => key other == key word) = some word

def key? : Json → Option String
  | .string key => some key
  | .object [(key, .null)] => some key
  | _ => none

def word? [Stored α] (value : Json) : Option α :=
  value.key?.bind fun key => Stored.words.find? fun word => Stored.key word == key

def ofWord [Stored α] (word : α) : Json := .string (Stored.key word)

theorem word?_ofWord [Stored α] (word : α) : word? (ofWord word) = some word := by
  simp [word?, ofWord, key?, Stored.find_key]

def ofOption (encode : α → Json) : Option α → Json
  | none => .null
  | some value => encode value

-- Lines count from one. On line zero no place is known, whatever the column.
structure Fault where
  text : String
  line : Nat
  column : Nat
deriving DecidableEq

namespace Fault

def message (fault : Fault) : String :=
  if fault.line = 0 then fault.text
  else s!"{fault.text} at line {fault.line} column {fault.column}"

def after? : List Char → List Char → Option (List Char)
  | [], text => some text
  | c :: phrase, d :: text => if c = d then after? phrase text else none
  | _ :: _, [] => none

def count? (text : List Char) : Option (Nat × List Char) := do
  let (digits, rest) ← Text.digitRun? text
  let value := Text.digitsValue digits
  if value < Nat.pow 2 64 then some (value, rest) else none

def place? (text : List Char) : Option (Nat × Nat) := do
  let text ← after? " at line ".toList text
  let (line, text) ← count? text
  let text ← after? " column ".toList text
  let (column, text) ← count? text
  if text = [] then some (line, column) else none

-- Takes the place off the end of a text. A place has no other place inside it, so no
-- two ends of one text are places.
def takePlace : List Char → List Char × Option (Nat × Nat)
  | [] => ([], none)
  | c :: rest =>
      match place? (c :: rest) with
      | some place => ([], some place)
      | none =>
          let (before, place) := takePlace rest
          (c :: before, place)

def ofMessage (message : String) : Fault :=
  match takePlace message.toList with
  | (text, some (line, column)) => ⟨String.ofList text, line, column⟩
  | (text, none) => ⟨String.ofList text, 0, 0⟩

end Fault
end Json
end RowSecurity
