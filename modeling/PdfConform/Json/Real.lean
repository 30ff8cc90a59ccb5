import PdfConform.Json.Basic

/-! Reading a number literal as a double in two roundings: the significant digits
first, then their product or quotient with a power of ten. The last bit can
differ from the nearest double, and a value too large is refused. -/
namespace PdfConform.Numeral

/-- The digits kept so far and the power of ten that goes with them. -/
structure Approx where
  significand : Nat
  exponent : Int
  /-- Once one more digit does not fit 64 bits, the rest of this part is dropped. -/
  full : Bool

def fits (significand digit : Nat) : Bool := significand * 10 + digit < UInt64.size

/-- A digit of the whole part that does not fit raises the exponent, as do all after it. -/
def Approx.whole (a : Approx) (c : Char) : Approx :=
  let d := c.toNat - 48
  if a.full || !fits a.significand d then { a with exponent := a.exponent + 1, full := true }
  else { a with significand := a.significand * 10 + d }

/-- A digit of the fraction that does not fit is dropped, as are all after it. -/
def Approx.fraction (a : Approx) (c : Char) : Approx :=
  let d := c.toNat - 48
  if a.full || !fits a.significand d then { a with full := true }
  else { a with significand := a.significand * 10 + d, exponent := a.exponent - 1 }

def Approx.of (n : Numeral) : Approx :=
  let whole := n.whole.foldl Approx.whole ⟨0, 0, false⟩
  n.fraction.foldl Approx.fraction { whole with full := false }

def powerOfTen (n : Nat) : Binary64 := .ofRatio false (Nat.pow 10 n) 1

/-- Divide by `10 ^ n` in steps of at most 308, stopping early at zero. -/
def divideByPower : Nat → Binary64 → Nat → Binary64
  | 0, x, _ => x
  | fuel + 1, x, n =>
    if n ≤ 308 then x.div (powerOfTen n)
    else if x.significand = 0 then x
    else divideByPower fuel (x.div (powerOfTen 308)) (n - 308)

/-- The product with a power of ten, unless it leaves the range of doubles. Four
divisions by `10 ^ 308` bring any 64-bit significand to zero. -/
def scale (x : Binary64) (exponent : Int) : Option Binary64 :=
  match exponent with
  | .ofNat n =>
    if n ≤ 308 then
      let y := x.mul (powerOfTen n)
      if y.isInfinite then none else some y
    else if x.significand = 0 then some x else none
  | .negSucc n => some (divideByPower 4 x (n + 1))

def largestExponent : Nat := 0x7FFFFFFF

/-- The double that a literal stands for, unless it is too large. -/
def toReal? (n : Numeral) : Option Binary64 :=
  let a := Approx.of n
  let signed (x : Binary64) := if n.negative then x.neg else x
  let value (e : Int) := (scale (.ofInt a.significand) (a.exponent + e)).map signed
  match n.exponent with
  | none => value 0
  | some (negative, ds) =>
    let e := Number.ofDigits ds
    if largestExponent < e then
      if a.significand ≠ 0 && !negative then none else some (.zero n.negative)
    else value (if negative then -(e : Int) else e)

end PdfConform.Numeral
