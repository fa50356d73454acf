/-!
# Reading numbers

* `readNatural?`: digits, with a plus sign or none;
* `readNumber?`: a binary64 number from digits with an optional point and exponent, or the name of
  an infinity or of NaN in upper or lower case.
-/

namespace AlgebraicLoop
set_option autoImplicit false

/-- The value of decimal digits; `none` when there are none, or another character is among them. -/
def digitsValue? (ds : List Char) : Option Nat :=
  if !ds.isEmpty && ds.all Char.isDigit then
    some (ds.foldl (fun k c => 10 * k + (c.toNat - 48)) 0)
  else none

/-- The sign in front of a text, true for a minus, and the text after it. -/
def splitSign : List Char → Bool × List Char
  | '-' :: rest => (true, rest)
  | '+' :: rest => (false, rest)
  | text => (false, text)

/-- A natural number below `limit`, with a plus sign or none. -/
def readNatural? (limit : Nat) (text : String) : Option Nat :=
  match text.toList with
  | '+' :: rest => (digitsValue? rest).filter (· < limit)
  | ds => (digitsValue? ds).filter (· < limit)

/-- An integer with an optional sign. -/
def readInteger? (text : List Char) : Option Int :=
  let (negative, ds) := splitSign text
  (digitsValue? ds).map fun k => if negative then -(k : Int) else k

/-- The nearest binary64 number to `digits · 10^exponent`. -/
def decimalFloat (digits : Nat) (exponent : Int) : Float :=
  let top := exponent + (digits.log2 / 3 : Nat)
  if digits = 0 ∨ top < -400 then 0
  else if exponent > 400 then 1 / 0
  else Float.ofScientific digits (exponent < 0) exponent.natAbs

/-- Digits with a point among them or none: all of them as one number, and how many stand after the
point. -/
def readPlaces? (text : List Char) : Option (Nat × Nat) :=
  let whole := text.takeWhile (· ≠ '.')
  let places := (text.dropWhile (· ≠ '.')).drop 1
  (digitsValue? (whole ++ places)).map (·, places.length)

/-- A decimal without sign. -/
def readMagnitude? (text : List Char) : Option Float := do
  let isMark (c : Char) : Bool := c == 'e' || c == 'E'
  let (digits, places) ← readPlaces? (text.takeWhile fun c => !isMark c)
  match text.dropWhile fun c => !isMark c with
  | [] => some (decimalFloat digits (-places))
  | _ :: exponent => do some (decimalFloat digits ((← readInteger? exponent) - places))

/-- A binary64 number. -/
def readNumber? (text : String) : Option Float :=
  let (negative, rest) := splitSign text.toList
  let size : Option Float :=
    match String.ofList (rest.map Char.toLower) with
    | "inf" | "infinity" => some (1 / 0)
    | "nan" => some (0 / 0)
    | _ => readMagnitude? rest
  size.map fun x => if negative then -x else x

end AlgebraicLoop
