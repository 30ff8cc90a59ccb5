import PdfConform.Document.Object
import PdfConform.Number.Decimal
import PdfConform.Number.Layout
import PdfConform.Text.Blank
import PdfConform.Version

/-! Scalar values, from a grammar or from a document, and what an expression may
ask about the container that holds the value under check. -/
namespace PdfConform

/-- Names and strings are both texts and compare as such. -/
inductive Literal
  | boolean (value : Bool)
  | integer (value : Int64)
  | real (value : Binary64)
  | text (value : String)
  deriving DecidableEq

namespace Literal

def equalsIgnoringCase (s t : String) : Bool :=
  s.toList.map Char.toLower == t.toList.map Char.toLower

/-- A bare word: a truth value in any case, else a number if it reads as one, else a text. -/
def ofWord (word : String) : Literal :=
  if equalsIgnoringCase word "true" then .boolean true
  else if equalsIgnoringCase word "false" then .boolean false
  else match Number.readInt64 word.toList with
    | some i => .integer i
    | none => match Number.readReal word.toList with
      | some x => .real x
      | none => .text word

/-- A value column. Brackets and quotes around the value are stripped; an empty
column holds no value, nor does one with blanks inside unless it is quoted. -/
def parse (field : String) : Option Literal :=
  let cs := Text.trim field.toList
  let cs := ((Text.between '[' ']' cs).map Text.trim).getD cs
  if cs.isEmpty || (cs.any Text.isBlank && cs.head? != some '\'') then none
  else match Text.between '\'' '\'' cs with
    | some inner => some (.text (String.ofList inner))
    | none => some (ofWord (String.ofList cs))

def ofObject? : Object → Option Literal
  | .boolean b => some (.boolean b)
  | .integer i => some (.integer i)
  | .real x => some (.real x)
  | .name s => some (.text s)
  | .string s => some (.text s)
  | _ => none

def toReal? : Literal → Option Binary64
  | .integer i => some (.ofInt i.toInt)
  | .real x => some x
  | _ => none

/-- Equality under which numbers of either kind compare as doubles. -/
def agrees : Literal → Literal → Bool
  | .boolean a, .boolean b => a == b
  | .text a, .text b => a == b
  | a, b => match a.toReal?, b.toReal? with
    | some x, some y => x.same y
    | _, _ => false

/-- Equality of the same kind and value; a real that is not a number differs from itself. -/
def same : Literal → Literal → Bool
  | .boolean a, .boolean b => a == b
  | .integer a, .integer b => a == b
  | .real a, .real b => a.same b
  | .text a, .text b => a == b
  | _, _ => false

/-- The literal as written in an expression or a message; a text stands without quotes. -/
def shown : Literal → String
  | .boolean b => if b then "TRUE" else "FALSE"
  | .integer i => Number.showInt i.toInt
  | .real x => Number.showReal x
  | .text s => s

end Literal

/-- The active version, whether a key has a value, and that value or its declared default. -/
structure Context where
  version : Version
  isPresent : String → Bool
  sibling : String → Option Literal

def Context.ofVersion (v : Version) : Context := ⟨v, fun _ => false, fun _ => none⟩

end PdfConform
