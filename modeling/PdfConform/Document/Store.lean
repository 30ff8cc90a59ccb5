import PdfConform.Document.Object
import PdfConform.Version

/-! The indirect objects of a document with its trailer and declared version. -/
namespace PdfConform

/-- Objects are in strictly increasing order of their ids. -/
structure Store where
  version : Option Version
  trailer : Dictionary
  objects : List (ObjectId × Object)

namespace Store

def empty : Store := ⟨none, [], []⟩

/-- A reference to no object means the same as null. -/
def resolve (s : Store) (id : ObjectId) : Option Object := Ordered.get? id s.objects

def insert (s : Store) (id : ObjectId) (object : Object) : Store :=
  { s with objects := Ordered.set id object s.objects }

def nextId (s : Store) : ObjectId :=
  ⟨(s.objects.foldl (fun n e => max n e.1.number) 0) + 1, 0⟩

def add (s : Store) (object : Object) : Store × ObjectId :=
  (s.insert s.nextId object, s.nextId)

/-- How many objects there are in the store, counting each id and all that is nested. -/
def size (s : Store) : Nat := (s.objects.map fun e => 1 + e.2.size).sum

/-- How many references in a row are followed before a chain counts as a loop. -/
def chainLimit : Nat := 32

/-- Follow references from an object reached through `last`. -/
def follow (s : Store) : Nat → Object → Option ObjectId → Option (Object × Option ObjectId)
  | 0, _, _ => none
  | fuel + 1, .reference id, _ => (s.resolve id).bind fun object => s.follow fuel object (some id)
  | _ + 1, object, last => some (object, last)

/-- The object behind a chain of references and the last reference in it; absent
when the chain dangles or is too long. -/
def dereference (s : Store) (object : Object) : Option (Object × Option ObjectId) :=
  s.follow chainLimit object none

/-- The value behind an object, null counting as none. -/
def present (s : Store) (object : Object) : Option (Object × Option ObjectId) :=
  (s.dereference object).filter fun found => !found.1.isNull

@[simp] theorem resolve_insert_self (s : Store) (id : ObjectId) (object : Object) :
    (s.insert id object).resolve id = some object :=
  Ordered.get?_set_self id object s.objects

theorem resolve_insert_of_ne (s : Store) {id other : ObjectId} (h : other ≠ id)
    (object : Object) : (s.insert id object).resolve other = s.resolve other :=
  Ordered.get?_set_of_ne h object s.objects

/-- What a chain of references leads to is no reference. -/
theorem asReference?_of_follow {s : Store} {fuel : Nat} {object found : Object}
    {last reference : Option ObjectId} (h : s.follow fuel object last = some (found, reference)) :
    found.asReference? = none := by
  induction fuel generalizing object last with
  | zero => simp [follow] at h
  | succ fuel ih =>
    cases object with
    | reference id =>
      obtain ⟨next, _, h⟩ := Option.bind_eq_some_iff.1 h
      exact ih h
    | _ => cases h; rfl

theorem follow_of_direct (s : Store) (fuel : Nat) {object : Object} (last : Option ObjectId)
    (h : object.asReference? = none) : s.follow (fuel + 1) object last = some (object, last) := by
  cases object <;> simp_all [follow, Object.asReference?]

theorem dereference_of_direct (s : Store) {object : Object} (h : object.asReference? = none) :
    s.dereference object = some (object, none) :=
  s.follow_of_direct 31 none h

/-- The last reference of a chain names the object at its end. -/
theorem resolve_of_follow {s : Store} {fuel : Nat} {object found : Object}
    {last : Option ObjectId} {id : ObjectId}
    (hlast : ∀ id, last = some id → s.resolve id = some object)
    (h : s.follow fuel object last = some (found, some id)) : s.resolve id = some found := by
  induction fuel generalizing object last with
  | zero => simp [follow] at h
  | succ fuel ih =>
    cases object with
    | reference next =>
      obtain ⟨object, hnext, h⟩ := Option.bind_eq_some_iff.1 h
      exact ih (fun id hid => Option.some.inj hid ▸ hnext) h
    | _ => cases h; exact hlast _ rfl

theorem resolve_of_dereference {s : Store} {object found : Object} {id : ObjectId}
    (h : s.dereference object = some (found, some id)) : s.resolve id = some found :=
  resolve_of_follow (fun _ hid => by cases hid) h

theorem asReference?_of_dereference {s : Store} {object found : Object}
    {reference : Option ObjectId} (h : s.dereference object = some (found, reference)) :
    found.asReference? = none :=
  asReference?_of_follow h

theorem present_eq_some_iff {s : Store} {object found : Object} {reference : Option ObjectId} :
    s.present object = some (found, reference) ↔
      s.dereference object = some (found, reference) ∧ found.isNull = false := by
  simp [present, Option.filter_eq_some_iff]

end Store

end PdfConform
