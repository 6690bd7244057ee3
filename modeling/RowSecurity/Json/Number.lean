-- Numbers of JSON: integers of 64 bits and binary64 numbers, as they are written and read.
namespace RowSecurity

-- The value is mantissa * 2^scale of the smallest positive unit, 2^-1074. Every
-- finite number but zero has exactly one such form: a scaled mantissa is full.
structure Binary64 where
  negative : Bool
  mantissa : Nat
  scale : Nat
  mantissa_lt : mantissa < Nat.pow 2 53
  scale_le : scale ≤ 2045
  full : scale = 0 ∨ Nat.pow 2 52 ≤ mantissa
deriving DecidableEq

namespace Binary64

def make? (negative : Bool) (mantissa scale : Nat) : Option Binary64 :=
  if valid : mantissa < Nat.pow 2 53 ∧ scale ≤ 2045 ∧ (scale = 0 ∨ Nat.pow 2 52 ≤ mantissa) then
    some ⟨negative, mantissa, scale, valid.1, valid.2.1, valid.2.2⟩
  else none

def zero (negative : Bool) : Binary64 :=
  ⟨negative, 0, 0, by decide, by decide, Or.inl rfl⟩

def units (x : Binary64) : Nat := x.mantissa * Nat.pow 2 x.scale

def unitsPerOne : Nat := Nat.pow 2 1074

def same (x y : Binary64) : Bool :=
  x.mantissa == y.mantissa && x.scale == y.scale && (x.negative == y.negative || x.mantissa == 0)

def roundHalfEven (numerator denominator : Nat) : Nat :=
  let whole := numerator / denominator
  let twice := 2 * (numerator % denominator)
  if twice < denominator then whole
  else if denominator < twice then whole + 1
  else whole + whole % 2

-- The scale keeps 53 significant bits; rounding up to 2^53 moves to the next scale. Beyond the
-- largest number there is none.
def nearestUnits? (negative : Bool) (numerator denominator : Nat) : Option Binary64 :=
  let scale := (numerator / denominator).log2 - 52
  let mantissa := roundHalfEven numerator (denominator * Nat.pow 2 scale)
  if mantissa = Nat.pow 2 53 then make? negative (Nat.pow 2 52) (scale + 1)
  else make? negative mantissa scale

def ofNat? (negative : Bool) (magnitude : Nat) : Option Binary64 :=
  nearestUnits? negative (magnitude * unitsPerOne) 1

def ofInt? (value : Int) : Option Binary64 := ofNat? (decide (value < 0)) value.natAbs

def times? (x y : Binary64) : Option Binary64 :=
  nearestUnits? (x.negative != y.negative) (x.units * y.units) unitsPerOne

def over? (x y : Binary64) : Option Binary64 :=
  nearestUnits? (x.negative != y.negative) (x.units * unitsPerOne) y.units

-- An exponent that puts the whole decimal beyond every number, or below half of the smallest one,
-- decides by itself.
def ofDecimal? (negative : Bool) (digits : Nat) (exponent : Int) : Option Binary64 :=
  let top := exponent + (Nat.toDigits 10 digits).length
  if digits = 0 ∨ top < -330 then some (zero negative)
  else if 320 < top then none
  else if 0 ≤ exponent then ofNat? negative (digits * Nat.pow 10 exponent.toNat)
  else nearestUnits? negative (digits * unitsPerOne) (Nat.pow 10 exponent.natAbs)

theorem same_refl (x : Binary64) : same x x = true := by simp [same]

theorem same_symm (x y : Binary64) (equal : same x y = true) : same y x = true := by
  simp only [same, Bool.and_eq_true, Bool.or_eq_true, beq_iff_eq] at equal ⊢
  obtain ⟨⟨mantissa, scale⟩, sign⟩ := equal
  exact ⟨⟨mantissa.symm, scale.symm⟩, sign.imp Eq.symm (fun none => mantissa ▸ none)⟩

theorem same_trans (x y z : Binary64) (left : same x y = true) (right : same y z = true) :
    same x z = true := by
  simp only [same, Bool.and_eq_true, Bool.or_eq_true, beq_iff_eq] at left right ⊢
  obtain ⟨⟨mantissa, scale⟩, sign⟩ := left
  obtain ⟨⟨mantissa', scale'⟩, sign'⟩ := right
  refine ⟨⟨mantissa.trans mantissa', scale.trans scale'⟩, ?_⟩
  rcases sign with sign | none
  · rcases sign' with sign' | none
    · exact Or.inl (sign.trans sign')
    · exact Or.inr (mantissa.trans none)
  · exact Or.inr none

def decimalLength (n : Nat) : Nat := (Nat.toDigits 10 n).length

def leadingExponent (x : Binary64) : Int :=
  if unitsPerOne ≤ x.units then (decimalLength (x.units / unitsPerOne) : Int) - 1
  else - (decimalLength ((unitsPerOne - 1) / x.units) : Int)

def readsBack (x : Binary64) (digits : Nat) (exponent : Int) : Bool :=
  match ofDecimal? x.negative digits exponent with
  | some y => same x y
  | none => false

-- The two decimals around x with the given last place, as quotient and remainder
-- over a common denominator.
def neighbours (x : Binary64) (exponent : Int) : Nat × Nat × Nat :=
  let numerator := if 0 ≤ exponent then x.units else x.units * Nat.pow 10 exponent.natAbs
  let denominator := if 0 ≤ exponent then unitsPerOne * Nat.pow 10 exponent.toNat else unitsPerOne
  (numerator / denominator, numerator % denominator, denominator)

def closest? (x : Binary64) (exponent : Int) : Option Nat :=
  let (below, rest, denominator) := neighbours x exponent
  let belowFirst := 2 * rest < denominator || (2 * rest == denominator && below % 2 == 0)
  let first := if belowFirst then below else below + 1
  let second := if belowFirst then below + 1 else below
  if readsBack x first exponent then some first
  else if readsBack x second exponent then some second
  else none

def shortestFrom (x : Binary64) (exponent : Int) : Nat → Nat × Int
  | 0 => ((neighbours x exponent).1, exponent)
  | more + 1 =>
      match closest? x exponent with
      | some digits => (digits, exponent)
      | none => shortestFrom x (exponent - 1) more

def shortest (x : Binary64) : Nat × Int :=
  shortestFrom x (leadingExponent x) 17

def zeros (n : Int) : List Char := List.replicate n.toNat '0'

-- Plain notation from 10^-5 up to 10^16, and beyond that one digit before the point. A plain number
-- always shows a fraction.
def layout (digits : List Char) (exponent : Int) : List Char :=
  let point := (digits.length : Int) + exponent
  if 0 ≤ exponent ∧ point ≤ 16 then digits ++ zeros exponent ++ ['.', '0']
  else if 0 < point ∧ point ≤ 16 then
    digits.take point.toNat ++ '.' :: digits.drop point.toNat
  else if -5 < point ∧ point ≤ 0 then '0' :: '.' :: zeros (-point) ++ digits
  else
    let power := 'e' :: (toString (point - 1)).toList
    match digits with
    | [] => power
    | [only] => only :: power
    | first :: rest => first :: '.' :: rest ++ power

def chars (x : Binary64) : List Char :=
  let sign := if x.negative then ['-'] else []
  if x.mantissa = 0 then sign ++ ['0', '.', '0']
  else
    let (digits, exponent) := shortest x
    sign ++ layout (Nat.toDigits 10 digits) exponent

end Binary64

inductive Number where
  | integer (value : Int) (fits : -Int.pow 2 63 ≤ value ∧ value < Int.pow 2 64)
  | float (value : Binary64)
deriving DecidableEq

namespace Number

def ofInt? (value : Int) : Option Number :=
  if fits : -Int.pow 2 63 ≤ value ∧ value < Int.pow 2 64 then some (.integer value fits) else none

def same : Number → Number → Bool
  | .integer a _, .integer b _ => a == b
  | .float a, .float b => a.same b
  | _, _ => false

def asSigned? : Number → Option Int
  | .integer value _ => if value < Int.pow 2 63 then some value else none
  | .float _ => none

def asUnsigned? : Number → Option Nat
  | .integer value _ => if 0 ≤ value then some value.toNat else none
  | .float _ => none

def toBinary64? : Number → Option Binary64
  | .integer value _ => Binary64.ofInt? value
  | .float value => some value

def chars : Number → List Char
  | .integer value _ => (toString value).toList
  | .float value => value.chars

theorem same_refl (a : Number) : same a a = true := by
  cases a <;> simp [same, Binary64.same_refl]

theorem same_symm (a b : Number) (equal : same a b = true) : same b a = true := by
  cases a <;> cases b <;> simp only [same, beq_iff_eq, Bool.false_eq_true] at equal ⊢
  · exact equal.symm
  · exact Binary64.same_symm _ _ equal

theorem same_trans (a b c : Number) (left : same a b = true) (right : same b c = true) :
    same a c = true := by
  cases a <;> cases b <;> cases c <;>
    simp only [same, beq_iff_eq, Bool.false_eq_true] at left right ⊢
  · exact left.trans right
  · exact Binary64.same_trans _ _ _ left right

end Number

structure Decimal where
  significand : Nat
  exponent : Int
deriving DecidableEq

namespace Decimal

def append (significand : Nat) : List Nat → Nat × Nat
  | [] => (significand, 0)
  | digit :: rest =>
      if 10 * significand + digit < Nat.pow 2 64 then
        let (longer, count) := append (10 * significand + digit) rest
        (longer, count + 1)
      else (significand, 0)

-- A whole digit that was dropped still counts as a power of ten, and a place only if
-- it was kept. Places are appended anew after whole digits that were dropped.
def ofDigits (whole places : List Nat) (power : Int) : Decimal :=
  let (leading, wholeKept) := append 0 whole
  let (significand, placesKept) := append leading places
  ⟨significand, power + ((whole.length : Int) - (wholeKept : Int)) - (placesKept : Int)⟩

def maxPower : Nat := 308

def tenTo? (power : Nat) : Option Binary64 :=
  if power ≤ maxPower then Binary64.ofNat? false (Nat.pow 10 power) else none

-- Division by a power of ten, in two steps where the power is no number of its own. A
-- significand that is divided by more than two steps hold has become zero.
def lower? (x : Binary64) (power : Nat) : Option Binary64 := do
  if power ≤ maxPower then x.over? (← tenTo? power)
  else if power ≤ 2 * maxPower then
    let first ← x.over? (← tenTo? maxPower)
    first.over? (← tenTo? (power - maxPower))
  else some (.zero x.negative)

def toBinary64? (negative : Bool) (decimal : Decimal) : Option Binary64 :=
  if decimal.significand = 0 then some (.zero negative)
  else do
    let start ← Binary64.ofNat? negative decimal.significand
    if 0 ≤ decimal.exponent then start.times? (← tenTo? decimal.exponent.toNat)
    else lower? start decimal.exponent.natAbs

end Decimal
end RowSecurity
