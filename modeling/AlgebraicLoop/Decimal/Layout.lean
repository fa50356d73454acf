import AlgebraicLoop.Decimal.Digits

/-!
# Written numbers

How the digits of a binary64 number are laid out in messages and reports.

* `NumberText.plain`: shortest digits, written out in full without an exponent;
* `NumberText.scientific`: shortest digits with an exponent;
* `NumberText.rounded`: a given number of digits with an exponent;
* `NumberText.fixed`: a given number of places after the point.

An infinity is `inf`, a NaN `NaN`, and a negative zero keeps its sign.
-/

namespace AlgebraicLoop.NumberText
set_option autoImplicit false

/-- The decimal text of a natural number. -/
def natural (k : Nat) : String := String.ofList (Nat.toDigits 10 k)

/-- The decimal text of an integer. -/
def integer (k : Int) : String :=
  if k < 0 then "-" ++ natural k.natAbs else natural k.natAbs

/-- Zeros in front of a text, up to a width. -/
def padZeros (width : Nat) (text : String) : String :=
  String.ofList (List.replicate (width - text.length) '0') ++ text

/-- The digits with a point before the last `places` of them. -/
def withPoint (digits places : Nat) : String :=
  let text := padZeros (places + 1) (natural digits)
  if places = 0 then text
  else
    String.ofList (text.toList.take (text.length - places)) ++ "." ++
      String.ofList (text.toList.drop (text.length - places))

/-- Trailing zeros of the digits moved into the exponent. -/
def trim (d : Decimal) : Decimal :=
  let zeros := ((Nat.toDigits 10 d.digits).reverse.takeWhile (· = '0')).length
  if d.digits = 0 then ⟨0, 0⟩ else ⟨d.digits / Nat.pow 10 zeros, d.exponent + zeros⟩

/-- A decimal written out in full. -/
def layoutPlain (d : Decimal) : String :=
  let d := trim d
  if d.exponent < 0 then withPoint d.digits (-d.exponent).toNat
  else natural (d.digits * Nat.pow 10 d.exponent.toNat)

/-- A decimal with one digit before the point, all others after it, and an exponent. `signed` puts
a sign also before an exponent that is not negative. -/
def layoutScientific (d : Decimal) (signed : Bool) : String :=
  let places := (natural d.digits).length - 1
  let exponent := d.exponent + places
  withPoint d.digits places ++ "e" ++ (if signed ∧ 0 ≤ exponent then "+" else "") ++
    integer exponent

/-- The sign of a number before the text of its absolute value; the special values by name. -/
def signed (x : Float) (text : Dyadic → String) : String :=
  if x.isNaN then "NaN"
  else
    let sign := if x.toBits >>> 63 = 1 then "-" else ""
    sign ++ if x.isInf then "inf" else text (Dyadic.ofBits x.toBits)

/-- The shortest digits that read back, without an exponent. -/
def plain (x : Float) : String := signed x fun d => layoutPlain d.shortest

/-- The shortest digits that read back, with an exponent. -/
def scientific (x : Float) : String := signed x fun d => layoutScientific (trim d.shortest) false

/-- `count` digits with an exponent, correctly rounded; a zero has `count` digits too.
`signedExponent` writes the plus sign of an exponent. -/
def rounded (count : Nat) (signedExponent : Bool) (x : Float) : String :=
  signed x fun d =>
    let r := d.roundTo count
    if r.digits = 0 then
      withPoint 0 (count - 1) ++ (if signedExponent then "e+0" else "e0")
    else
      layoutScientific r signedExponent

/-- `places` digits after the point, correctly rounded. -/
def fixed (places : Nat) (x : Float) : String :=
  signed x fun d => withPoint (d.roundPlaces places) places

end AlgebraicLoop.NumberText
