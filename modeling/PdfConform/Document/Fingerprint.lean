import PdfConform.Document.Object
import PdfConform.Sha256
import PdfConform.Text.Quoted

/-! What makes two objects the same to the validator: an indirect object is known
by its id, a direct one by the hash of its contents. The bytes that are hashed
carry a tag for the kind and a count before everything of varying length. -/
namespace PdfConform

namespace Object

def tag (c : Char) : UInt8 := UInt8.ofNat c.toNat

def encodeCount (n : Nat) : List UInt8 := Sha256.bigEndian 8 n

def encodeText (s : String) : List UInt8 :=
  let bytes := s.toUTF8.toList
  encodeCount bytes.length ++ bytes

/-- What an object puts out before anything it holds. References are not followed. -/
def lead : Object → List UInt8
  | .null => [tag 'n']
  | .boolean b => [tag (if b then 't' else 'f')]
  | .integer i => tag 'i' :: Sha256.bigEndian 8 i.toUInt64.toNat
  | .real x => tag 'r' :: Sha256.bigEndian 8 x.bits.toNat
  | .string s => tag 's' :: encodeText s
  | .name s => tag '/' :: encodeText s
  | .array items => tag '[' :: encodeCount items.length
  | .dictionary entries => tag '<' :: encodeCount entries.length
  | .stream entries data =>
    tag 'S' :: encodeCount data.length ++ data ++ encodeCount entries.length
  | .reference id =>
    tag 'R' :: Sha256.bigEndian 4 id.number.toNat ++ Sha256.bigEndian 2 id.generation.toNat

inductive Piece
  | object (object : Object)
  | key (key : String)

namespace Piece

def ofEntry (entry : String × Object) : List Piece := [.key entry.1, .object entry.2]

def size : Piece → Nat
  | .object value => value.size
  | .key _ => 0

theorem sum_size_items (items : List Object) :
    ((items.map object).map size).sum = sizeOfItems items := by
  induction items with
  | nil => rfl
  | cons item items ih => rw [List.map_cons, List.map_cons, List.sum_cons, ih]; rfl

theorem sum_size_entries (entries : List (String × Object)) :
    ((entries.flatMap ofEntry).map size).sum = sizeOfEntries entries := by
  induction entries with
  | nil => rfl
  | cons entry entries ih =>
    rw [List.flatMap_cons, List.map_append, List.sum_append, ih]
    simp [ofEntry, size, sizeOfEntries]

end Piece

/-- What an object holds, in the order in which it is to leave the stack. -/
def inside : Object → List Piece
  | .array items => items.map .object
  | .dictionary entries => entries.flatMap Piece.ofEntry
  | .stream entries _ => entries.flatMap Piece.ofEntry
  | _ => []

theorem sum_size_inside (object : Object) :
    (object.inside.map Piece.size).sum < object.size := by
  cases object with
  | array items => rw [inside, Piece.sum_size_items, size]; omega
  | dictionary entries => rw [inside, Piece.sum_size_entries, size]; omega
  | stream entries data => rw [inside, Piece.sum_size_entries, size]; omega
  | _ => exact Nat.one_pos

/-- Take the stack down piece by piece; what an object holds goes on top in its place. -/
def encodePieces : List Piece → List UInt8
  | [] => []
  | .key key :: rest => tag 'k' :: encodeText key ++ encodePieces rest
  | .object object :: rest => object.lead ++ encodePieces (object.inside ++ rest)
termination_by pieces => ((pieces.map Piece.size).sum, pieces.length)
decreasing_by
  · rw [List.map_cons, List.sum_cons, Piece.size, Nat.zero_add]
    exact .right _ (Nat.lt_succ_self _)
  · refine .left _ _ ?_
    have hless := sum_size_inside object
    rw [List.map_append, List.sum_append, List.map_cons, List.sum_cons]
    exact Nat.add_lt_add_right hless _

def bytes (object : Object) : List UInt8 := encodePieces [.object object]

def fingerprint (object : Object) : Sha256.Digest := Sha256.digest object.bytes

end Object

namespace Sha256.Digest

def hexWord (w : UInt32) : List Char :=
  (List.range 8).map fun i => Text.hexDigit ((w.toNat >>> (4 * (7 - i))) % 16)

def hex (d : Digest) : String := String.ofList (d.words.flatMap hexWord)

end Sha256.Digest

inductive Identity
  | indirect (id : ObjectId)
  | direct (digest : Sha256.Digest)
  deriving DecidableEq

namespace Identity

def of (object : Object) : Option ObjectId → Identity
  | some id => .indirect id
  | none => .direct object.fingerprint

/-- An id, or the first eight bytes of the hash. -/
def text : Identity → String
  | .indirect id => id.text
  | .direct d => String.ofList ('#' :: (d.words.take 2).flatMap Sha256.Digest.hexWord)

end Identity

end PdfConform
