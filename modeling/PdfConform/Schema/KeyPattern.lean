import PdfConform.Number.Whole
import PdfConform.Text.Blank

/-! How a row's key picks values from a container. -/
namespace PdfConform

/-- The wildcard stands for every key or index that no other row names. -/
inductive KeyPattern
  | name (key : String)
  | index (position : Nat)
  | wildcard
  deriving DecidableEq

namespace KeyPattern

/-- A number of 64 bits is an index; blanks around the key are ignored. -/
def parse (s : String) : KeyPattern :=
  let cs := Text.trim s.toList
  if cs = ['*'] then .wildcard
  else match Number.readBelow UInt64.size cs with
    | some n => .index n
    | none => .name (String.ofList cs)

def text : KeyPattern → String
  | .name key => key
  | .index n => Number.showNat n
  | .wildcard => "*"

def isName : KeyPattern → Bool
  | .name _ => true
  | _ => false

def isIndex : KeyPattern → Bool
  | .index _ => true
  | _ => false

end KeyPattern

end PdfConform
