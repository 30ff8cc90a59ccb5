/-! Double-precision numbers as their 64 bits. Order, equality and rounding are
exact integer arithmetic on the bits, so every comparison a grammar makes can
be evaluated in a proof. -/
namespace PdfConform

/-- A double-precision number. Equality of this type is equality of the bits. -/
structure Binary64 where
  bits : UInt64
  deriving DecidableEq

namespace Binary64

def negative (x : Binary64) : Bool := 1 <<< 63 ≤ x.bits.toNat

/-- The bits below the sign; they order the absolute values. -/
def magnitude (x : Binary64) : Nat := x.bits.toNat % (1 <<< 63)

def infinityMagnitude : Nat := 0x7FF0000000000000

def isNaN (x : Binary64) : Bool := infinityMagnitude < x.magnitude

def isInfinite (x : Binary64) : Bool := x.magnitude == infinityMagnitude

def isFinite (x : Binary64) : Bool := x.magnitude < infinityMagnitude

def ofMagnitude (negative : Bool) (magnitude : Nat) : Binary64 :=
  ⟨UInt64.ofNat (if negative then (1 <<< 63) + magnitude else magnitude)⟩

def zero (negative : Bool) : Binary64 := ofMagnitude negative 0

def infinity (negative : Bool) : Binary64 := ofMagnitude negative infinityMagnitude

def notANumber (negative : Bool) : Binary64 := ofMagnitude negative 0x7FF8000000000000

def neg (x : Binary64) : Binary64 := ofMagnitude (!x.negative) x.magnitude

/-- Position on the number line, both zeros at 0. -/
def rank (x : Binary64) : Int := if x.negative then -(x.magnitude : Int) else x.magnitude

/-- Numeric equality: a value that is not a number differs from itself, and the zeros agree. -/
def same (x y : Binary64) : Bool := !x.isNaN && !y.isNaN && x.rank == y.rank

def lt (x y : Binary64) : Bool := !x.isNaN && !y.isNaN && x.rank < y.rank

def le (x y : Binary64) : Bool := !x.isNaN && !y.isNaN && x.rank ≤ y.rank

/-- A finite number is `significand * 2 ^ exponent`, its sign apart. -/
def exponent (x : Binary64) : Int := ((max (x.magnitude >>> 52) 1 : Nat) : Int) - 1075

def significand (x : Binary64) : Nat :=
  let fraction := x.magnitude % (1 <<< 52)
  if x.magnitude < 1 <<< 52 then fraction else (1 <<< 52) + fraction

/-- The quotient rounded to the nearest whole number, a half to the even neighbour. -/
def roundDiv (num den : Nat) : Nat :=
  let q := num / den
  let r := num % den
  if den < 2 * r || (2 * r == den && q % 2 == 1) then q + 1 else q

/-- The double nearest to `num / den`, a half to the even neighbour. -/
def ofRatio (negative : Bool) (num den : Nat) : Binary64 :=
  if num = 0 then zero negative else
  let unit : Int := max ((num.log2 : Int) - den.log2 - 53) (-1074)
  let scaled (u : Int) : Nat × Nat := (num <<< (-u).toNat, den <<< u.toNat)
  let fits := let (n, d) := scaled unit; n / d < 1 <<< 53
  let unit := if fits then unit else unit + 1
  let (n, d) := scaled unit
  let magnitude := ((unit + 1074).toNat <<< 52) + roundDiv n d
  if magnitude < infinityMagnitude then ofMagnitude negative magnitude else infinity negative

def ofInt (i : Int) : Binary64 := ofRatio (i < 0) i.natAbs 1

def ratio (significand : Nat) (exponent : Int) : Nat × Nat :=
  (significand <<< exponent.toNat, 1 <<< (-exponent).toNat)

def mul (x y : Binary64) : Binary64 :=
  let (num, den) := ratio (x.significand * y.significand) (x.exponent + y.exponent)
  ofRatio (x.negative != y.negative) num den

def div (x y : Binary64) : Binary64 :=
  let (num, den) := ratio x.significand (x.exponent - y.exponent)
  ofRatio (x.negative != y.negative) num (den * y.significand)

theorem same_comm (x y : Binary64) : x.same y = y.same x := by
  simp only [same, Bool.and_comm (!x.isNaN), BEq.comm (a := x.rank)]

/-- Every number equals itself, and nothing equals what is not a number. -/
theorem same_self (x : Binary64) : x.same x = !x.isNaN := by
  simp [same]

theorem same_trans {x y z : Binary64} (h : x.same y = true) (k : y.same z = true) :
    x.same z = true := by
  simp_all [same]

end Binary64

end PdfConform
