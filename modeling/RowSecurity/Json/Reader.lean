import RowSecurity.Json.Basic
import RowSecurity.Json.Number
import RowSecurity.Text

-- Reading JSON text. A reader gives a value with the characters after it; a text is accepted when
-- nothing but blanks is left.
namespace RowSecurity.Json

def isSpace (c : Char) : Bool := c == ' ' || c == '\t' || c == '\n' || c == '\r'

def skipSpace (text : List Char) : List Char := text.dropWhile isSpace

def hexValue? (c : Char) : Option Nat :=
  if c.isDigit then some (Text.digitValue c)
  else if 'a' ≤ c ∧ c ≤ 'f' then some (c.toNat - 'a'.toNat + 10)
  else if 'A' ≤ c ∧ c ≤ 'F' then some (c.toNat - 'A'.toNat + 10)
  else none

def unit? (a b c d : Char) : Option Nat := do
  let a ← hexValue? a
  let b ← hexValue? b
  let c ← hexValue? c
  let d ← hexValue? d
  return ((a * 16 + b) * 16 + c) * 16 + d

def isHighUnit (unit : Nat) : Bool := 0xD800 ≤ unit && unit < 0xDC00

def isLowUnit (unit : Nat) : Bool := 0xDC00 ≤ unit && unit < 0xE000

def letterEscape? (c : Char) : Option Char :=
  if c = '"' ∨ c = '\\' ∨ c = '/' then some c
  else if c = 'b' then some '\x08'
  else if c = 'f' then some '\x0c'
  else if c = 'n' then some '\n'
  else if c = 'r' then some '\r'
  else if c = 't' then some '\t'
  else none

-- The rest of a string after its opening quote. A unit of a surrogate pair counts
-- only together with its other half, and a bare control character is refused.
def stringRest (done : List Char) : List Char → Option (String × List Char)
  | [] => none
  | '"' :: rest => some (String.ofList done.reverse, rest)
  | '\\' :: 'u' :: a :: b :: c :: d :: rest =>
      match unit? a b c d with
      | none => none
      | some unit =>
          if isHighUnit unit then
            match rest with
            | '\\' :: 'u' :: e :: f :: g :: h :: after =>
                match unit? e f g h with
                | none => none
                | some low =>
                    if isLowUnit low then
                      let code := 0x10000 + (unit - 0xD800) * 0x400 + (low - 0xDC00)
                      stringRest (Char.ofNat code :: done) after
                    else none
            | _ => none
          else if isLowUnit unit then none
          else stringRest (Char.ofNat unit :: done) rest
  | '\\' :: c :: rest =>
      match letterEscape? c with
      | none => none
      | some meant => stringRest (meant :: done) rest
  | c :: rest => if c = '\\' ∨ c.toNat < 0x20 then none else stringRest (c :: done) rest
termination_by structural text => text

def fraction? : List Char → Option (Option (List Char) × List Char)
  | '.' :: rest => do
      let (digits, rest) ← Text.digitRun? rest
      return (some digits, rest)
  | rest => some (none, rest)

def signed : List Char → Bool × List Char
  | '-' :: rest => (true, rest)
  | '+' :: rest => (false, rest)
  | rest => (false, rest)

def exponent? : List Char → Option (Option Int × List Char)
  | c :: rest =>
      if c = 'e' ∨ c = 'E' then do
        let (negative, rest) := signed rest
        let (digits, rest) ← Text.digitRun? rest
        let size : Int := Text.digitsValue digits
        return (some (if negative then -size else size), rest)
      else some (none, c :: rest)
  | [] => some (none, [])

def integer? (negative : Bool) (digits : List Char) : Option Number :=
  let size : Int := Text.digitsValue digits
  if negative ∧ size = 0 then none else Number.ofInt? (if negative then -size else size)

def number? (text : List Char) : Option (Number × List Char) := do
  let (negative, text) := match text with
    | '-' :: rest => (true, rest)
    | rest => (false, rest)
  let (whole, text) ← Text.digitRun? text
  if whole.head? = some '0' ∧ 1 < whole.length then none
  let (fraction, text) ← fraction? text
  let (exponent, text) ← exponent? text
  match fraction, exponent, integer? negative whole with
  | none, none, some found => return (found, text)
  | _, _, _ =>
      let places := (fraction.getD []).map Text.digitValue
      let decimal := Decimal.ofDigits (whole.map Text.digitValue) places (exponent.getD 0)
      return (.float (← decimal.toBinary64? negative), text)

-- One value, or the rest of an array or an object after its opening bracket. Each
-- call consumes a character, so the length of the text bounds the depth of calls.
mutual
def valueFrom : Nat → List Char → Option (Json × List Char)
  | 0, _ => none
  | fuel + 1, text =>
      match skipSpace text with
      | 'n' :: 'u' :: 'l' :: 'l' :: rest => some (.null, rest)
      | 't' :: 'r' :: 'u' :: 'e' :: rest => some (.bool true, rest)
      | 'f' :: 'a' :: 'l' :: 's' :: 'e' :: rest => some (.bool false, rest)
      | '"' :: rest => (stringRest [] rest).map fun (text, rest) => (.string text, rest)
      | '[' :: rest =>
          match skipSpace rest with
          | ']' :: rest => some (.array [], rest)
          | rest => (itemsFrom fuel rest).map fun (items, rest) => (.array items, rest)
      | '{' :: rest =>
          match skipSpace rest with
          | '}' :: rest => some (.object [], rest)
          | rest => (membersFrom fuel rest).map fun (members, rest) => (ofMembers members, rest)
      | other => (number? other).map fun (found, rest) => (.number found, rest)

def itemsFrom : Nat → List Char → Option (List Json × List Char)
  | 0, _ => none
  | fuel + 1, text =>
      match valueFrom fuel text with
      | none => none
      | some (item, rest) =>
          match skipSpace rest with
          | ']' :: rest => some ([item], rest)
          | ',' :: rest => (itemsFrom fuel rest).map fun (items, rest) => (item :: items, rest)
          | _ => none

def membersFrom : Nat → List Char → Option (List (String × Json) × List Char)
  | 0, _ => none
  | fuel + 1, text =>
      match skipSpace text with
      | '"' :: rest =>
          match stringRest [] rest with
          | none => none
          | some (name, rest) =>
              match skipSpace rest with
              | ':' :: rest =>
                  match valueFrom fuel rest with
                  | none => none
                  | some (value, rest) =>
                      match skipSpace rest with
                      | '}' :: rest => some ([(name, value)], rest)
                      | ',' :: rest =>
                          (membersFrom fuel rest).map fun (members, rest) =>
                            ((name, value) :: members, rest)
                      | _ => none
              | _ => none
      | _ => none
end

def parse (text : String) : Option Json :=
  let chars := text.toList
  match valueFrom (chars.length + 1) chars with
  | some (value, rest) => if skipSpace rest = [] then some value else none
  | none => none

end RowSecurity.Json
