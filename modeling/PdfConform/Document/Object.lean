import PdfConform.Document.Ordered
import PdfConform.Number.Binary64
import PdfConform.Number.Whole

/-! The objects of a document. A stream is its dictionary with its bytes;
a reference names another object and is followed only by a store. -/
namespace PdfConform

structure ObjectId where
  number : UInt32
  generation : UInt16
  deriving DecidableEq

namespace ObjectId

instance : LT ObjectId :=
  ⟨fun a b => a.number < b.number ∨ (a.number = b.number ∧ a.generation < b.generation)⟩

instance : DecidableLT ObjectId := fun a b =>
  inferInstanceAs (Decidable
    (a.number < b.number ∨ (a.number = b.number ∧ a.generation < b.generation)))

theorem lt_trans {a b c : ObjectId} (h : a < b) (k : b < c) : a < c := by
  rcases h with h | ⟨h, h'⟩ <;> rcases k with k | ⟨k, k'⟩
  · exact .inl (UInt32.lt_trans h k)
  · exact .inl (k ▸ h)
  · exact .inl (h ▸ k)
  · exact .inr ⟨h.trans k, UInt16.lt_trans h' k'⟩

theorem lt_asymm {a b : ObjectId} (h : a < b) (k : b < a) : False := by
  rcases lt_trans h k with h | ⟨_, h⟩
  · exact UInt32.lt_irrefl _ h
  · exact UInt16.lt_irrefl _ h

theorem eq_of_not_lt {a b : ObjectId} (h : ¬a < b) (k : ¬b < a) : a = b := by
  obtain ⟨m, g⟩ := a
  obtain ⟨n, f⟩ := b
  simp only [LT.lt, not_or, not_and] at h k
  have hn : m = n := UInt32.le_antisymm (UInt32.not_lt.1 k.1) (UInt32.not_lt.1 h.1)
  subst hn
  exact congrArg _ (UInt16.le_antisymm (UInt16.not_lt.1 (k.2 rfl)) (UInt16.not_lt.1 (h.2 rfl)))

instance : Trans (α := ObjectId) (· < ·) (· < ·) (· < ·) := ⟨lt_trans⟩

instance : Std.Asymm (α := ObjectId) (· < ·) := ⟨fun _ _ => lt_asymm⟩

instance : Std.Trichotomous (α := ObjectId) (· < ·) := ⟨fun _ _ => eq_of_not_lt⟩

def text (id : ObjectId) : String :=
  Number.showNat id.number.toNat ++ " " ++ Number.showNat id.generation.toNat ++ " R"

end ObjectId

/-- Entries are in strictly increasing order of their keys by code point. -/
inductive Object
  | null
  | boolean (value : Bool)
  | integer (value : Int64)
  | real (value : Binary64)
  | string (text : String)
  | name (text : String)
  | array (items : List Object)
  | dictionary (entries : List (String × Object))
  | stream (entries : List (String × Object)) (data : List UInt8)
  | reference (id : ObjectId)

abbrev Dictionary := List (String × Object)

namespace Object

def kind : Object → String
  | .null => "null"
  | .boolean _ => "boolean"
  | .integer _ => "integer"
  | .real _ => "number"
  | .string _ => "string"
  | .name _ => "name"
  | .array _ => "array"
  | .dictionary _ => "dictionary"
  | .stream _ _ => "stream"
  | .reference _ => "reference"

def isNull : Object → Bool
  | .null => true
  | _ => false

def isContainer : Object → Bool
  | .array _ | .dictionary _ | .stream _ _ => true
  | _ => false

def asBool? : Object → Option Bool
  | .boolean b => some b
  | _ => none

def asInteger? : Object → Option Int64
  | .integer i => some i
  | _ => none

/-- The number as a double; integers are rounded to the nearest. -/
def asReal? : Object → Option Binary64
  | .real x => some x
  | .integer i => some (.ofInt i.toInt)
  | _ => none

def asString? : Object → Option String
  | .string s => some s
  | _ => none

def asName? : Object → Option String
  | .name s => some s
  | _ => none

def asArray? : Object → Option (List Object)
  | .array items => some items
  | _ => none

def asDictionary? : Object → Option Dictionary
  | .dictionary entries => some entries
  | _ => none

def entries? : Object → Option Dictionary
  | .dictionary entries => some entries
  | .stream entries _ => some entries
  | _ => none

def asReference? : Object → Option ObjectId
  | .reference id => some id
  | _ => none

mutual

/-- How many objects there are in this one, itself included. -/
def size : Object → Nat
  | .array items => 1 + sizeOfItems items
  | .dictionary entries => 1 + sizeOfEntries entries
  | .stream entries _ => 1 + sizeOfEntries entries
  | _ => 1

def sizeOfItems : List Object → Nat
  | [] => 0
  | item :: items => size item + sizeOfItems items

def sizeOfEntries : List (String × Object) → Nat
  | [] => 0
  | (_, value) :: entries => size value + sizeOfEntries entries

end

end Object

namespace Dictionary

def get? (d : Dictionary) (key : String) : Option Object := Ordered.get? key d

def set (d : Dictionary) (key : String) (value : Object) : Dictionary := Ordered.set key value d

def erase (d : Dictionary) (key : String) : Dictionary := Ordered.erase key d

def contains (d : Dictionary) (key : String) : Bool := (d.get? key).isSome

def keys (d : Dictionary) : List String := d.map (·.1)

def getDictionary? (d : Dictionary) (key : String) : Option Dictionary :=
  (d.get? key).bind Object.asDictionary?

end Dictionary

/-- A stream whose dictionary states the length of the data unless it already has one. -/
def Object.streamOf (d : Dictionary) (data : List UInt8) : Object :=
  if d.contains "Length" then .stream d data
  else .stream (d.set "Length" (.integer (Int64.ofNat data.length))) data

end PdfConform
