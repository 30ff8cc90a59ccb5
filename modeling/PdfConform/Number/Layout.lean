import PdfConform.Number.Shortest

/-! How a double is written: in messages always positionally and without a point
when whole; in dumps with a point or an exponent, so that it reads back as a
real. -/
namespace PdfConform.Number

def zeros (n : Int) : List Char := List.replicate n.toNat '0'

/-- Positional form; `whole` is what follows a number without a fraction. -/
def Shortest.positional (s : Shortest) (whole : List Char) : List Char :=
  let n : Int := s.digits.length
  if s.point ≤ 0 then ['0', '.'] ++ zeros (-s.point) ++ s.digits
  else if n ≤ s.point then s.digits ++ zeros (s.point - n) ++ whole
  else s.digits.take s.point.toNat ++ ['.'] ++ s.digits.drop s.point.toNat

/-- The form of messages: never an exponent, ties between equally short digits go up. -/
def showReal (x : Binary64) : String :=
  let sign := if x.negative then ['-'] else []
  if x.isNaN then "NaN"
  else if x.isInfinite then String.ofList (sign ++ ['i', 'n', 'f'])
  else if x.significand = 0 then String.ofList (sign ++ ['0'])
  else String.ofList (sign ++ (shortest .up x).positional [])

/-- The decimal exponents that dumps write positionally. -/
def isPositional (exponent : Int) : Bool := -5 ≤ exponent && exponent < 16

end PdfConform.Number
