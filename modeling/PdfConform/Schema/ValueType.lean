import PdfConform.Document.Date
import PdfConform.Document.Store
import PdfConform.Text.Blank

/-! The closed vocabulary of types, and which of a row's types a value has. -/
namespace PdfConform

inductive ValueType
  | boolean
  | number
  | integer
  | name
  | string
  | date
  | stream
  | array
  | dictionary
  | rectangle
  | nameTree
  | numberTree
  deriving DecidableEq

namespace ValueType

def all : List ValueType := [
  .boolean, .number, .integer, .name, .string, .date, .stream, .array, .dictionary, .rectangle,
  .nameTree, .numberTree]

def text : ValueType → String
  | .boolean => "BOOLEAN"
  | .number => "NUMBER"
  | .integer => "INTEGER"
  | .name => "NAME"
  | .string => "STRING"
  | .date => "DATE"
  | .stream => "STREAM"
  | .array => "ARRAY"
  | .dictionary => "DICTIONARY"
  | .rectangle => "RECTANGLE"
  | .nameTree => "NAME-TREE"
  | .numberTree => "NUMBER-TREE"

def isTree : ValueType → Bool
  | .nameTree | .numberTree => true
  | _ => false

/-- A side of a rectangle is a number, direct or one reference away. -/
def isSide (store : Store) (object : Object) : Bool :=
  let direct := match object with
    | .reference id => store.resolve id
    | direct => some direct
  (direct.bind Object.asReal?).isSome

/-- Whether a direct object has this type. Integers are numbers too, a date is a
string that reads as one, and both kinds of tree are dictionaries. -/
def admits (store : Store) : ValueType → Object → Bool
  | .boolean, .boolean _ => true
  | .integer, .integer _ => true
  | .number, .integer _ => true
  | .number, .real _ => true
  | .name, .name _ => true
  | .string, .string _ => true
  | .date, .string s => (Date.parse s).isSome
  | .stream, .stream _ _ => true
  | .array, .array _ => true
  | .rectangle, .array items => items.length == 4 && items.all (isSide store)
  | .dictionary, .dictionary _ => true
  | .nameTree, .dictionary _ => true
  | .numberTree, .dictionary _ => true
  | _, _ => false

end ValueType

/-- An entry of a type column. Unknown names are kept so that the grammar's check
can report them. -/
inductive TypeToken
  | known (type : ValueType)
  | unknown (name : String)
  deriving DecidableEq

namespace TypeToken

/-- Blanks around a name and the case of its letters do not matter. -/
def parse (cs : List Char) : TypeToken :=
  let name := String.ofList ((Text.trim cs).map Char.toUpper)
  match ValueType.all.find? (·.text == name) with
  | some type => .known type
  | none => .unknown name

def known? : TypeToken → Option ValueType
  | .known type => some type
  | .unknown _ => none

def text : TypeToken → String
  | .known type => type.text
  | .unknown name => name

/-- A type column; an empty one declares no type. -/
def parseColumn (field : String) : List TypeToken :=
  let cs := field.toList
  if (Text.trim cs).isEmpty then [] else (cs.splitOn ';').map parse

def admits (store : Store) (object : Object) (token : TypeToken) : Bool :=
  token.known?.any fun type => type.admits store object

/-- Position of the first type that an object has. -/
def select? (store : Store) (object : Object) (types : List TypeToken) : Option Nat :=
  types.findIdx? (admits store object)

end TypeToken

end PdfConform
