import PdfConform.Number.Binary64
import PdfConform.Number.Whole

/-! The fewest decimal digits that read back as the same double. Grids of 1, 2, …
17 digits are tried in turn; on each the two neighbours of the exact value are
tested in whole-number arithmetic against the interval that rounds to it. -/
namespace PdfConform.Number

/-- Which neighbour wins when both are equally near. -/
inductive Tie
  | up
  | even
  deriving DecidableEq

/-- A positive decimal `digits * 10 ^ exponent`. -/
structure Scaled where
  digits : Nat
  exponent : Int

/-- The positive value `value / unit` with the ends of the interval that rounds to it. -/
structure Interval where
  value : Nat
  low : Nat
  high : Nat
  unit : Nat
  closed : Bool

/-- A power of two lies nearer to its lower neighbour, so its interval is narrower there. -/
def Interval.of (x : Binary64) : Interval :=
  let m := x.significand
  let narrow := m == 1 <<< 52 && 1 <<< 53 ≤ x.magnitude
  let e := x.exponent - 2
  let up := 1 <<< e.toNat
  { value := 4 * m * up
    low := (4 * m - if narrow then 1 else 2) * up
    high := (4 * m + 2) * up
    unit := 1 <<< (-e).toNat
    closed := m % 2 == 0 }

namespace Interval

/-- The number `k` with `10 ^ (k - 1) ≤ value / unit < 10 ^ k`. -/
def point (i : Interval) : Int :=
  if i.unit ≤ i.value then (digits (i.value / i.unit)).length
  else 1 - ((digits ((i.unit - 1) / i.value)).length : Int)

/-- Whether `n / d` lies in the interval, both sides already multiplied by `unit`. -/
def holds (i : Interval) (n d : Nat) : Bool :=
  if i.closed then i.low * d ≤ n && n ≤ i.high * d else i.low * d < n && n < i.high * d

/-- The neighbour of the value with `count` digits that rounds to it, if there is one. -/
def candidate (i : Interval) (tie : Tie) (count : Nat) : Option Scaled :=
  let e := i.point - count
  let up := Nat.pow 10 e.toNat * i.unit
  let down := Nat.pow 10 (-e).toNat
  let below := i.value * down / up
  let hit (n : Nat) := i.holds (n * up) down
  let twice := 2 * i.value * down
  let middle := (2 * below + 1) * up
  let above : Bool :=
    if twice = middle then match tie with
      | .up => true
      | .even => below % 2 == 1
    else middle < twice
  match hit below, hit (below + 1) with
  | true, true => some ⟨if above then below + 1 else below, e⟩
  | true, false => some ⟨below, e⟩
  | false, true => some ⟨below + 1, e⟩
  | false, false => none

end Interval

/-- Digits without trailing zeros and the place of the point: the value is
`0.digits * 10 ^ point`. -/
structure Shortest where
  digits : List Char
  point : Int

def Scaled.shortest (s : Scaled) : Shortest :=
  let ds := Number.digits s.digits
  ⟨(ds.reverse.dropWhile (· == '0')).reverse, ds.length + s.exponent⟩

def shortest (tie : Tie) (x : Binary64) : Shortest :=
  let i := Interval.of x
  let found := (List.range 17).findSome? fun n => i.candidate tie (n + 1)
  (found.getD ⟨x.significand, 0⟩).shortest

end PdfConform.Number
