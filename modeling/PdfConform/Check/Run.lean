import PdfConform.Check.Tree

/-! A run takes waiting objects in the order in which they were queued and checks
each against the table of its link. -/
namespace PdfConform

namespace Session

/-- Go on to what an entry leads to: walk a tree, queue any other container. -/
def descend (s : Session) (around : Surroundings) (scope : Scope) (label : String)
    (child : Child) : Session :=
  match TreeKind.ofType? child.type with
  | some kind => s.walkTree around ⟨kind, child.links⟩ child.object child.reference child.path
  | none =>
    let (chosen, s) :=
      s.chooseLink around child.object child.links scope.table.link label child.path
    match chosen with
    | some link => s.enqueue child.object child.reference link child.path
    | none => s

def checkEntry (around : Surroundings) (scope : Scope) (row : Row) (s : Session)
    (entry : String × Option Object) : Session :=
  let s := s.report (scope.entryFindings row entry.1 entry.2)
  match scope.child? row entry.1 entry.2 with
  | some child => s.descend around scope entry.1 child
  | none => s

def checkRow (around : Surroundings) (scope : Scope) (s : Session) (row : Row) : Session :=
  (scope.entries row).foldl (checkEntry around scope row) s

/-- Check every row of a table in order. Only a seed can be something else than a container. -/
def checkObject (s : Session) (around : Surroundings) (item : WorkItem) (table : Table) : Session :=
  match Container.of? item.object with
  | none => s.report [⟨.typeMismatch, table.link, none, item.path,
      "expected a dictionary, array or stream, found " ++ item.object.kind⟩]
  | some container =>
    let scope : Scope := ⟨around.store, s.version, table, container, item.path⟩
    table.rows.foldl (checkRow around scope) s

def shouldStop (s : Session) (count : Nat) : Bool := s.cancelled || s.budget.any (· ≤ count)

def enter (s : Session) (item : WorkItem) : Session :=
  { s with checked := s.checked ++ [item.pair], log := s.log ++ [.checked item] }

/-- Look up the item's table and check the item, or pass over it when there is none.
Gives whether the item was checked; a seed without a table is an error. -/
def take (s : Session) (around : Surroundings) (item : WorkItem) :
    Except Unavailable Bool × Session :=
  match s.table around item.link with
  | (.ok table, s) => (.ok true, (s.enter item).checkObject around item table)
  | (.error unavailable, s) =>
    let s := s.note (.dropped item)
    if item.seeded then (.error unavailable, s)
    else (.ok false, s.report [⟨.schemaMissing, item.link, none, item.path,
      "cannot load grammar: " ++ unavailable.reason⟩])

/-- How a run ended: with the number of objects it checked and whether it was
stopped, or at a seed without a table. -/
abbrev End := Except Unavailable (Nat × Bool)

/-- Take items until none is left, the run is to stop, or a seed has no table, which
then has left the queue. -/
def drain (around : Surroundings) : Nat → Nat → Session → End × Session
  | fuel, count, s =>
    match s.queue with
    | [] => (.ok (count, false), s)
    | item :: rest =>
      if s.shouldStop count then (.ok (count, true), s) else
      match fuel with
      | 0 => (.ok (count, true), s)
      | fuel + 1 =>
        match take { s with queue := rest } around item with
        | (.ok checked, s) => drain around fuel (if checked then count + 1 else count) s
        | (.error unavailable, s) => (.error unavailable, s)

end Session

/-- A bound on the names under which one object can be recorded because of a table:
its links, and one tree for each set of links. -/
def Table.linkCount (t : Table) : Nat :=
  (t.rows.map fun r => (r.links.map fun links => links.length + 1).sum).sum

/-- Every table that a lookup can give: those already there and those in any file. -/
def Cache.reachable (c : Cache) (fs : Files) : List Table :=
  c.entries.filterMap (fun e => e.2.toOption) ++
  fs.nodes.filterMap fun
    | (_, .file content) => (String.fromUTF8? content).bind fun text =>
      (Table.parse c.folder.delimiter "" "" text).toOption
    | (_, .folder) => none

namespace Session

/-- Every item of the queue and every pair that can still be recorded takes one step. -/
def bound (s : Session) (around : Surroundings) : Nat :=
  let objects := around.store.size + (s.queue.map fun item => item.object.size).sum
  let links := ((s.cache.reachable (around.filesAfter s.findings)).map Table.linkCount).sum
  s.queue.length + objects * links

structure Stats where
  version : Version
  checked : Nat
  suppressed : Nat
  remaining : Nat
  cancelled : Bool
  deriving DecidableEq

def run (s : Session) (around : Surroundings) : Except Unavailable Stats × Session :=
  let (ended, s) := drain around (s.bound around) 0 s
  (ended.map fun (checked, cancelled) => {
    version := s.version
    checked, cancelled
    suppressed := s.record.suppressed
    remaining := s.queue.length }, s)

end Session

def trailerLink : String := "FileTrailer"

def validate (around : Surroundings) (cache : Cache) (link : String) (version : Option Version)
    (budget : Option Nat) : Except Unavailable Session.Stats × Session :=
  ((Session.start around.store cache version budget).seed around.store
    (.dictionary around.store.trailer) link "Trailer").run around

end PdfConform
