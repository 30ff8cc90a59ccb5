import PdfConform.Number.Binary64
import PdfConform.Number.Whole

/-! Decimal text read as the nearest double. The text may have a sign, a point
with digits on at least one side, and an exponent; infinities and the value
that is not a number are spelled out in either case of letters. -/
namespace PdfConform.Number

/-- The double nearest to `d * 10 ^ e`. Far outside the range of doubles no power is computed. -/
def ofDecimal (negative : Bool) (d : Nat) (e : Int) : Binary64 :=
  if d = 0 then .zero negative else
  let size := (digits d).length + e
  if 310 < size then .infinity negative
  else if size < -330 then .zero negative
  else .ofRatio negative (d * Nat.pow 10 e.toNat) (Nat.pow 10 (-e).toNat)

def readExponent : List Char → Option Int
  | '-' :: rest => (readDigits rest).map fun n => -(n : Int)
  | '+' :: rest => (readDigits rest).map Int.ofNat
  | rest => (readDigits rest).map Int.ofNat

def readUnsigned (negative : Bool) (cs : List Char) : Option Binary64 :=
  let (whole, rest) := cs.span Char.isDigit
  let (fraction, rest) := match rest with
    | '.' :: tail => tail.span Char.isDigit
    | _ => ([], rest)
  if whole.isEmpty && fraction.isEmpty then none else
  let value (e : Int) := ofDecimal negative (ofDigits (whole ++ fraction)) (e - fraction.length)
  match rest with
  | [] => some (value 0)
  | c :: tail => if c = 'e' || c = 'E' then (readExponent tail).map value else none

def readMagnitude (negative : Bool) (cs : List Char) : Option Binary64 :=
  match String.ofList (cs.map Char.toLower) with
  | "inf" | "infinity" => some (.infinity negative)
  | "nan" => some (.notANumber negative)
  | _ => readUnsigned negative cs

def readReal : List Char → Option Binary64
  | '-' :: rest => readMagnitude true rest
  | '+' :: rest => readMagnitude false rest
  | cs => readMagnitude false cs

end PdfConform.Number
