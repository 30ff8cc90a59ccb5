import PdfConform.Json.Basic
import PdfConform.Text.Quoted

/-! Two written forms of JSON: compact on one line, and indented by two spaces. -/
namespace PdfConform.Json

/-- Only the quotation mark, the backslash and control characters are escaped. -/
def escape (c : Char) : List Char :=
  if c = '"' then ['\\', '"']
  else if c = '\\' then ['\\', '\\']
  else if c = '\x08' then ['\\', 'b']
  else if c = '\x0c' then ['\\', 'f']
  else if c = '\n' then ['\\', 'n']
  else if c = '\r' then ['\\', 'r']
  else if c = '\t' then ['\\', 't']
  else if c.toNat < 0x20 then
    ['\\', 'u', '0', '0', Text.hexDigit (c.toNat / 16), Text.hexDigit (c.toNat % 16)]
  else [c]

def writeString (s : String) : List Char := '"' :: s.toList.flatMap escape ++ ['"']

/-- A string that stands for no text has no written form of its own. -/
def writeText (s : Option String) : List Char := writeString (s.getD "")

def writeNumeral (n : Numeral) : List Char :=
  (if n.negative then ['-'] else []) ++ n.whole ++
    (if n.fraction.isEmpty then [] else '.' :: n.fraction) ++
    match n.exponent with
    | none => []
    | some (negative, ds) => 'e' :: (if negative then '-' else '+') :: ds

def writeBool (b : Bool) : List Char :=
  if b then ['t', 'r', 'u', 'e'] else ['f', 'a', 'l', 's', 'e']

mutual

def writeCompact : Json → List Char
  | .null => ['n', 'u', 'l', 'l']
  | .bool b => writeBool b
  | .number n => writeNumeral n
  | .string s => writeText s
  | .array [] => ['[', ']']
  | .array (item :: items) => '[' :: writeCompact item ++ compactItems items ++ [']']
  | .object [] => ['\x7b', '\x7d']
  | .object ((key, value) :: members) =>
    '\x7b' :: writeText key ++ ':' :: writeCompact value ++ compactMembers members ++ ['\x7d']

def compactItems : List Json → List Char
  | [] => []
  | item :: items => ',' :: writeCompact item ++ compactItems items

def compactMembers : List (Option String × Json) → List Char
  | [] => []
  | (key, value) :: members =>
    ',' :: writeText key ++ ':' :: writeCompact value ++ compactMembers members

end

def indent (depth : Nat) : List Char := '\n' :: List.replicate (2 * depth) ' '

mutual

/-- The indented form; an empty array or object stays on its line. -/
def writePretty (depth : Nat) : Json → List Char
  | .null => ['n', 'u', 'l', 'l']
  | .bool b => writeBool b
  | .number n => writeNumeral n
  | .string s => writeText s
  | .array [] => ['[', ']']
  | .array (item :: items) =>
    '[' :: indent (depth + 1) ++ writePretty (depth + 1) item ++ prettyItems (depth + 1) items ++
      indent depth ++ [']']
  | .object [] => ['\x7b', '\x7d']
  | .object ((key, value) :: members) =>
    '\x7b' :: indent (depth + 1) ++ writeText key ++ ':' :: ' ' :: writePretty (depth + 1) value ++
      prettyMembers (depth + 1) members ++ indent depth ++ ['\x7d']

def prettyItems (depth : Nat) : List Json → List Char
  | [] => []
  | item :: items => ',' :: indent depth ++ writePretty depth item ++ prettyItems depth items

def prettyMembers (depth : Nat) : List (Option String × Json) → List Char
  | [] => []
  | (key, value) :: members =>
    ',' :: indent depth ++ writeText key ++ ':' :: ' ' :: writePretty depth value ++
      prettyMembers depth members

end

def compact (j : Json) : String := String.ofList (writeCompact j)

def pretty (j : Json) : String := String.ofList (writePretty 0 j)

end PdfConform.Json
