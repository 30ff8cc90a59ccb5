import PdfConform.Check.Resolution
import PdfConform.Document.Fingerprint

/-! The state of a validation: what is known of the grammar, what was scheduled,
what waits, what was checked and what was found, with a log of how it came about. -/
namespace PdfConform

/-- The pairs of object and link scheduled so far. A link here may also be the
name under which a tree walk records its nodes. -/
structure Record where
  pairs : List (Identity × String)
  suppressed : Nat
  deriving DecidableEq

namespace Record

def empty : Record := ⟨[], 0⟩

def contains (r : Record) (identity : Identity) (link : String) : Bool :=
  r.pairs.any fun p => p.1 = identity && p.2 = link

/-- Record a pair; false, and one more repeat, if it was there. -/
def insert (r : Record) (identity : Identity) (link : String) : Bool × Record :=
  if r.contains identity link then (false, { r with suppressed := r.suppressed + 1 })
  else (true, { r with pairs := r.pairs ++ [(identity, link)] })

def size (r : Record) : Nat := r.pairs.length

theorem contains_iff {r : Record} {identity : Identity} {link : String} :
    r.contains identity link = true ↔ (identity, link) ∈ r.pairs := by
  simp only [contains, List.any_eq_true, Bool.and_eq_true, decide_eq_true_eq]
  constructor
  · rintro ⟨_, hp, rfl, rfl⟩; exact hp
  · exact fun h => ⟨_, h, rfl, rfl⟩

theorem fresh_iff {r : Record} {identity : Identity} {link : String} :
    (r.insert identity link).1 = true ↔ (identity, link) ∉ r.pairs := by
  rw [← contains_iff]
  unfold insert
  split <;> simp_all

theorem pairs_insert (r : Record) (identity : Identity) (link : String) :
    (r.insert identity link).2.pairs =
      if (identity, link) ∈ r.pairs then r.pairs else r.pairs ++ [(identity, link)] := by
  simp only [insert, contains_iff]
  split <;> rfl

theorem mem_pairs_insert {r : Record} {identity : Identity} {link : String}
    {p : Identity × String} :
    p ∈ (r.insert identity link).2.pairs ↔ p ∈ r.pairs ∨ p = (identity, link) := by
  rw [pairs_insert]
  split
  · next h => exact ⟨.inl, fun hp => hp.elim id fun e => e ▸ h⟩
  · simp

end Record

/-- An object, references followed, that waits to be checked against a link's table.
The path is only for findings. -/
structure WorkItem where
  object : Object
  identity : Identity
  link : String
  path : String
  /-- Added from outside rather than met on the way. -/
  seeded : Bool

def WorkItem.pair (item : WorkItem) : Identity × String := (item.identity, item.link)

/-- An entry of the log. -/
inductive Event
  | seeded (item : WorkItem)
  | queued (item : WorkItem)
  /-- Met on the way, but the pair was scheduled before. -/
  | repeated (identity : Identity) (link : String)
  | checked (item : WorkItem)
  /-- Taken from the queue without a table to check it against. -/
  | dropped (item : WorkItem)
  /-- A tree walk came to a node. -/
  | visited (tree path : String)

structure Session where
  version : Version
  budget : Option Nat
  cancelled : Bool
  cache : Cache
  record : Record
  queue : List WorkItem
  checked : List (Identity × String)
  findings : List Finding
  log : List Event

namespace Session

/-- The version asked for, else the document's own, else the latest. -/
def start (store : Store) (cache : Cache) (version : Option Version) (budget : Option Nat) :
    Session where
  version := (version.or store.version).getD .two
  budget := budget
  cancelled := false
  cache := cache
  record := .empty
  queue := []
  checked := []
  findings := []
  log := []

def note (s : Session) (event : Event) : Session := { s with log := s.log ++ [event] }

def report (s : Session) (found : List Finding) : Session :=
  { s with findings := s.findings ++ found }

def table (s : Session) (around : Surroundings) (link : String) :
    Except Unavailable Table × Session :=
  let (result, cache, found) := s.cache.get (around.filesAfter s.findings) link
  (result, { s with cache, findings := s.findings ++ found })

def mark (s : Session) (identity : Identity) (link : String) : Bool × Session :=
  let (fresh, record) := s.record.insert identity link
  (fresh, { s with record })

/-- Add an object from outside; it is queued even when the pair was scheduled before. -/
def seed (s : Session) (store : Store) (object : Object) (link path : String) : Session :=
  let (object, reference) := (store.dereference object).getD (object, object.asReference?)
  let item : WorkItem := ⟨object, .of object reference, link, path, true⟩
  let s := (s.mark item.identity link).2
  { s with queue := s.queue ++ [item], log := s.log ++ [.seeded item] }

/-- Queue an object met on the way unless the pair was scheduled before. -/
def enqueue (s : Session) (object : Object) (reference : Option ObjectId) (link path : String) :
    Session :=
  let item : WorkItem := ⟨object, .of object reference, link, path, false⟩
  let (fresh, s) := s.mark item.identity link
  if fresh then { s with queue := s.queue ++ [item], log := s.log ++ [.queued item] }
  else s.note (.repeated item.identity link)

/-- The link for a container. With several to choose from, ambiguity and failure are
reported against the link and label of the parent. -/
def chooseLink (s : Session) (around : Surroundings) (object : Object) (links : List String)
    (parent label path : String) : Option String × Session :=
  match links with
  | [only] => (some only, s)
  | links =>
    let (resolution, cache, found) :=
      Resolution.resolve around s.version object path s.findings s.cache links
    let s := { s with cache, findings := s.findings ++ found }
    match resolution with
    | .resolved link => (some link, s)
    | .ambiguous chosen matching =>
      (some chosen, s.report [⟨.ambiguousLink, parent, some label, path,
        "[" ++ String.intercalate "," matching ++ "] all fit, using " ++ chosen⟩])
    | .unresolved =>
      (none, s.report [⟨.unresolvedLink, parent, some label, path,
        "no link in [" ++ String.intercalate "," links ++ "] fits this " ++ object.kind⟩])

end Session

end PdfConform
