import PdfConform.Number.Whole
import PdfConform.Number.Layout

/-! JSON as it is written: numbers keep their digits and objects keep every
member in order, because what a document may hold depends on both. -/
namespace PdfConform

/-- A number literal in parts; an absent fraction has no digits. -/
structure Numeral where
  negative : Bool
  whole : List Char
  fraction : List Char
  /-- Whether the exponent is negative, and its digits. -/
  exponent : Option (Bool × List Char)
  deriving DecidableEq

/-- A text is absent when its escapes leave half of a surrogate pair alone: such a
string has JSON's form and stands for no text. -/
inductive Json
  | null
  | bool (value : Bool)
  | number (value : Numeral)
  | string (text : Option String)
  | array (items : List Json)
  | object (members : List (Option String × Json))

namespace Json

def text (s : String) : Json := .string (some s)

def record (members : List (String × Json)) : Json :=
  .object (members.map fun (key, value) => (some key, value))

/-- The value of a field that may be left out; a repeated field is refused. -/
def field? (name : String) (members : List (Option String × Json)) : Option (Option Json) :=
  match members.filter (·.1 == some name) with
  | [] => some none
  | [(_, value)] => some (some value)
  | _ => none

def hasTextKeys (members : List (Option String × Json)) : Bool := members.all (·.1.isSome)

end Json

namespace Numeral

def ofInt (i : Int) : Numeral := ⟨i < 0, Number.digits i.natAbs, [], none⟩

/-- The literal of a whole number; a negative zero and any point or exponent make it a real. -/
def toInt? (n : Numeral) : Option Int :=
  if !n.fraction.isEmpty || n.exponent.isSome then none
  else if n.negative then
    if n.whole = ['0'] then none else some (-(Number.ofDigits n.whole : Int))
  else some (Number.ofDigits n.whole)

/-- The shortest literal that reads back as a finite double; it always has a point or an
exponent. -/
def ofReal (x : Binary64) : Numeral :=
  if x.significand = 0 then ⟨x.negative, ['0'], ['0'], none⟩ else
  let s := Number.shortest .even x
  if Number.isPositional (s.point - 1) then
    let cs := s.positional ['.', '0']
    ⟨x.negative, cs.takeWhile Char.isDigit, (cs.dropWhile Char.isDigit).drop 1, none⟩
  else
    ⟨x.negative, s.digits.take 1, s.digits.drop 1,
      some (s.point ≤ 0, Number.digits (s.point - 1).natAbs)⟩

end Numeral

def Json.int (i : Int) : Json := .number (.ofInt i)

end PdfConform
