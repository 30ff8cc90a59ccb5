import PdfConform.Document.Store
import PdfConform.Json.Reader
import PdfConform.Json.Real
import PdfConform.Json.Writer

/-! The JSON form of a document. An object is a record with the name of its kind
as only key. Reading allows a bounded depth of arrays and records; unknown
fields are passed over unread, whatever they hold. -/
namespace PdfConform

namespace Json

/-- How deeply arrays and records may nest where they are read. -/
def depthLimit : Nat := 127

def toNatBelow? (bound : Nat) : Json → Option Nat
  | .number n => do
    let i ← n.toInt?
    if 0 ≤ i && i < bound then some i.toNat else none
  | _ => none

def toByte? (j : Json) : Option UInt8 := (j.toNatBelow? 256).map UInt8.ofNat

end Json

namespace ObjectId

def ofParts? (number generation : Json) : Option ObjectId := do
  let n ← number.toNatBelow? UInt32.size
  let g ← generation.toNatBelow? UInt16.size
  return ⟨UInt32.ofNat n, UInt16.ofNat g⟩

def ofMembers? (members : List (Option String × Json)) : Option ObjectId := do
  guard (Json.hasTextKeys members)
  let number ← ← Json.field? "number" members
  let generation ← ← Json.field? "generation" members
  ofParts? number generation

def ofItems? : List Json → Option ObjectId
  | [number, generation] => ofParts? number generation
  | _ => none

/-- An id is a record, or its fields in order. -/
def ofJson? : Json → Option ObjectId
  | .object members => ofMembers? members
  | .array items => ofItems? items
  | _ => none

def toJson (id : ObjectId) : Json :=
  .record [("number", .int id.number.toNat), ("generation", .int id.generation.toNat)]

end ObjectId

namespace Object

mutual

/-- The object that a value stands for, with `room` for so many nested arrays and records. -/
def ofJson? (room : Nat) : Json → Option Object
  | .string (some kind) => if kind = "null" then some .null else none
  | .object [(some kind, payload)] => if room = 0 then none else ofPayload? (room - 1) kind payload
  | _ => none

def ofPayload? (room : Nat) (kind : String) : Json → Option Object
  | .null => if kind = "null" then some .null else none
  | .bool b => if kind = "boolean" then some (.boolean b) else none
  | .number n =>
    if kind = "integer" then (n.toInt?.bind Number.toInt64?).map .integer
    else if kind = "real" then n.toReal?.map .real
    else none
  | .string none => none
  | .string (some s) =>
    if kind = "string" then some (.string s) else if kind = "name" then some (.name s) else none
  | .array items =>
    if room = 0 then none
    else if kind = "array" then (itemsOfJson? (room - 1) items).map .array
    else if kind = "ref" then (ObjectId.ofItems? items).map .reference
    else if kind = "stream" then streamOfItems? (room - 1) items
    else none
  | .object members =>
    if room = 0 then none
    else if kind = "dictionary" then (entriesOfJson? (room - 1) [] members).map .dictionary
    else if kind = "ref" then (ObjectId.ofMembers? members).map .reference
    else if kind = "stream" then streamOfMembers? (room - 1) none none members
    else none

def itemsOfJson? (room : Nat) : List Json → Option (List Object)
  | [] => some []
  | item :: items => do
    let object ← ofJson? room item
    return object :: (← itemsOfJson? room items)

/-- Members in their order, the last of several with one key winning. -/
def entriesOfJson? (room : Nat) (soFar : Dictionary) :
    List (Option String × Json) → Option Dictionary
  | [] => some soFar
  | (none, _) :: _ => none
  | (some key, value) :: members => do
    let object ← ofJson? room value
    entriesOfJson? room (soFar.set key object) members

/-- A stream as its fields in order; the data may be left out. -/
def streamOfItems? (room : Nat) : List Json → Option Object
  | [.object members] =>
    if room = 0 then none
    else (entriesOfJson? (room - 1) [] members).map fun entries => .stream entries []
  | [.object members, .array bytes] =>
    if room = 0 then none
    else do return .stream (← entriesOfJson? (room - 1) [] members) (← bytes.mapM Json.toByte?)
  | _ => none

/-- A stream as a record, with the fields found so far. -/
def streamOfMembers? (room : Nat) (entries : Option Dictionary) (data : Option (List UInt8)) :
    List (Option String × Json) → Option Object
  | [] => entries.map fun entries => .stream entries (data.getD [])
  | (none, _) :: _ => none
  | (some key, .object fields) :: members =>
    if key = "dictionary" then
      if room = 0 || entries.isSome then none
      else do streamOfMembers? room (some (← entriesOfJson? (room - 1) [] fields)) data members
    else if key = "data" then none
    else streamOfMembers? room entries data members
  | (some key, .array bytes) :: members =>
    if key = "data" then
      if room = 0 || data.isSome then none
      else do streamOfMembers? room entries (some (← bytes.mapM Json.toByte?)) members
    else if key = "dictionary" then none
    else streamOfMembers? room entries data members
  | (some key, _) :: members =>
    if key = "dictionary" || key = "data" then none
    else streamOfMembers? room entries data members

end

mutual

def toJson : Object → Json
  | .null => .text "null"
  | .boolean b => .record [("boolean", .bool b)]
  | .integer i => .record [("integer", .int i.toInt)]
  | .real x => .record [("real", if x.isFinite then .number (.ofReal x) else .null)]
  | .string s => .record [("string", .text s)]
  | .name s => .record [("name", .text s)]
  | .array items => .record [("array", .array (itemsToJson items))]
  | .dictionary entries => .record [("dictionary", .object (entriesToJson entries))]
  | .stream entries data =>
    .record [("stream", .record [("dictionary", .object (entriesToJson entries)),
      ("data", .array (data.map fun b => .int b.toNat))])]
  | .reference id => .record [("ref", id.toJson)]

def itemsToJson : List Object → List Json
  | [] => []
  | item :: items => toJson item :: itemsToJson items

def entriesToJson : List (String × Object) → List (Option String × Json)
  | [] => []
  | (key, value) :: entries => (some key, toJson value) :: entriesToJson entries

end

end Object

namespace Store

def versionOfJson? : Json → Option (Option Version)
  | .null => some none
  | .string (some s) => (Version.parse s).toOption.map some
  | _ => none

def trailerOfJson? (room : Nat) : Json → Option Dictionary
  | .object members => if room = 0 then none else Object.entriesOfJson? (room - 1) [] members
  | _ => none

/-- An indirect object is a record of id and object, or the two in order. -/
def indirectOfJson? (room : Nat) (j : Json) : Option (ObjectId × Object) := do
  let (id, object) ← match j with
    | .object members => do
      guard (Json.hasTextKeys members)
      pure (← ← Json.field? "id" members, ← ← Json.field? "object" members)
    | .array [id, object] => some (id, object)
    | _ => none
  return (← ObjectId.ofJson? id, ← Object.ofJson? (room - 1) object)

def objectsOfJson? (room : Nat) : Json → Option (List (ObjectId × Object))
  | .array items => (items.mapM (indirectOfJson? (room - 1))).map Ordered.ofList
  | _ => none

/-- The fields of a dump, each of which may be left out. -/
def ofFields? (room : Nat) (version trailer objects : Option Json) : Option Store := do
  return {
    version := ← version.elim (some none) versionOfJson?
    trailer := ← trailer.elim (some []) (trailerOfJson? room)
    objects := ← objects.elim (some []) (objectsOfJson? room) }

/-- A dump is a record, or its fields in order. -/
def ofJson? : Json → Option Store
  | .object members => do
    guard (Json.hasTextKeys members)
    ofFields? (Json.depthLimit - 1) (← Json.field? "version" members)
      (← Json.field? "trailer" members) (← Json.field? "objects" members)
  | .array items =>
    if items.length ≤ 3 then ofFields? (Json.depthLimit - 1) items[0]? items[1]? items[2]?
    else none
  | _ => none

/-- Read a dump; the last of several objects with one id wins. -/
def parse (text : String) : Option Store := (Json.parse text).bind ofJson?

def toJson (s : Store) : Json :=
  .record [
    ("version", s.version.elim .null fun v => .text v.text),
    ("trailer", .object (Object.entriesToJson s.trailer)),
    ("objects", .array (s.objects.map fun (id, object) =>
      .record [("id", id.toJson), ("object", object.toJson)]))]

/-- Write a dump, objects in the order of their ids. -/
def dump (s : Store) : String := s.toJson.pretty

end Store

end PdfConform
