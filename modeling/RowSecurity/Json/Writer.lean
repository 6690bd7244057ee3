import RowSecurity.Json.Basic

namespace RowSecurity.Json

def escaped (c : Char) : List Char :=
  if c = '"' then ['\\', '"']
  else if c = '\\' then ['\\', '\\']
  else if c = '\x08' then ['\\', 'b']
  else if c = '\t' then ['\\', 't']
  else if c = '\n' then ['\\', 'n']
  else if c = '\x0c' then ['\\', 'f']
  else if c = '\r' then ['\\', 'r']
  else if c.toNat < 0x20 then
    ['\\', 'u', '0', '0', Nat.digitChar (c.toNat / 16), Nat.digitChar (c.toNat % 16)]
  else [c]

def quoted (text : String) : List Char :=
  '"' :: (text.toList.flatMap escaped ++ ['"'])

def boolChars (value : Bool) : List Char :=
  if value then ['t', 'r', 'u', 'e'] else ['f', 'a', 'l', 's', 'e']

mutual
def chars : Json → List Char
  | .null => ['n', 'u', 'l', 'l']
  | .bool value => boolChars value
  | .number value => value.chars
  | .string value => quoted value
  | .array items => '[' :: (itemChars items ++ [']'])
  | .object members => '{' :: (memberChars members ++ ['}'])
termination_by structural value => value

def itemChars : List Json → List Char
  | [] => []
  | [last] => chars last
  | item :: next :: rest => chars item ++ ',' :: itemChars (next :: rest)
termination_by structural items => items

def memberChars : List (String × Json) → List Char
  | [] => []
  | [(name, value)] => quoted name ++ ':' :: chars value
  | (name, value) :: next :: rest =>
      quoted name ++ ':' :: (chars value ++ ',' :: memberChars (next :: rest))
termination_by structural members => members
end

def render (value : Json) : String := String.ofList (chars value)

end RowSecurity.Json
