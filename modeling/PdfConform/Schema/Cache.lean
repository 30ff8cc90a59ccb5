import PdfConform.Schema.Folder

/-! Tables by link name, each loaded and checked on its first lookup. What a lookup
finds first, a table or a reason for its absence, stays. -/
namespace PdfConform

structure Unavailable where
  link : String
  reason : String
  deriving DecidableEq

def Unavailable.message (u : Unavailable) : String :=
  "Grammar for link " ++ u.link ++ " is unavailable: " ++ u.reason

structure Cache where
  folder : Folder
  /-- A table, or the reason why there is none, for every link looked up so far. -/
  entries : List (String × Except String Table)

namespace Cache

def ofFolder (f : Folder) : Cache := ⟨f, []⟩

def find? (c : Cache) (link : String) : Option (Except String Table) :=
  (c.entries.find? fun e => e.1 = link).map (·.2)

def contains (c : Cache) (link : String) : Bool := (c.find? link).isSome

def size (c : Cache) : Nat := c.entries.length

/-- A file that is missing or unreadable is no defect of a grammar: whoever needs it
reports that. -/
def loadFindings (link : String) : Folder.LoadError → List Finding
  | .io _ => []
  | .header fault => [⟨.malformedHeader, link, none, fault.source, fault.reason⟩]

def load (f : Folder) (fs : Files) (link : String) : Except String Table × List Finding :=
  match f.loadLink fs link with
  | .ok table =>
    let (valid, found) := table.validate
    (if valid then .ok table else .error "grammar file has defects", found)
  | .error e => (.error e.message, loadFindings link e)

theorem load_eq (f : Folder) (fs : Files) (link : String) :
    load f fs link = match f.loadLink fs link with
      | .ok table =>
        if table.findings.isEmpty then (.ok table, [])
        else (.error "grammar file has defects", table.findings)
      | .error e => (.error e.message, loadFindings link e) := by
  unfold load
  split
  · rw [Table.validate_eq]
    dsimp only
    split
    · next hnone => rw [List.isEmpty_iff.1 hnone]
    · rfl
  · rfl

def outcome (link : String) (entry : Except String Table) : Except Unavailable Table :=
  entry.mapError (Unavailable.mk link)

/-- Look up a table, with the findings of a first lookup, which alone reads a file. -/
@[inline] def get (c : Cache) (fs : Files) (link : String) :
    Except Unavailable Table × Cache × List Finding :=
  match c.find? link with
  | some entry => (outcome link entry, c, [])
  | none =>
    let (entry, found) := load c.folder fs link
    (outcome link entry, { c with entries := c.entries ++ [(link, entry)] }, found)

theorem find?_get (c : Cache) (fs : Files) (link other : String) :
    (c.get fs link).2.1.find? other =
      if other = link ∧ c.find? link = none then some (load c.folder fs link).1
      else c.find? other := by
  unfold get
  split
  · next h => simp [h]
  · next h =>
    by_cases hl : other = link
    · subst hl
      simp only [find?, Option.map_eq_none_iff] at h
      simp [find?, h, List.find?_append]
    · have : link ≠ other := Ne.symm hl
      simp [find?, List.find?_append, hl, this]

theorem find?_get_of_some {c : Cache} {link : String} {entry : Except String Table}
    (h : c.find? link = some entry) (fs : Files) (other : String) :
    (c.get fs other).2.1.find? link = some entry := by
  rw [find?_get]
  split
  · next hfirst => simp [← hfirst.1, h] at hfirst
  · exact h

theorem folder_get (c : Cache) (fs : Files) (link : String) :
    (c.get fs link).2.1.folder = c.folder := by
  unfold get
  split <;> rfl

/-- Only a first lookup reports anything. -/
theorem get_of_contains {c : Cache} {link : String} {entry : Except String Table}
    (h : c.find? link = some entry) (fs : Files) :
    c.get fs link = (outcome link entry, c, []) := by
  simp [get, h]

/-- Look up one link after another, keeping those that fail. -/
def getAll (c : Cache) (fs : Files) : List String → List String × Cache × List Finding
  | [] => ([], c, [])
  | link :: links =>
    let (result, c, found) := c.get fs link
    let (failed, c, more) := c.getAll fs links
    let failed := match result with
      | .ok _ => failed
      | .error _ => link :: failed
    (failed, c, found ++ more)

/-- Look up every link that has a file in the folder; gives those that failed. -/
def loadAll (c : Cache) (fs : Files) : Except IoError (List String × Cache × List Finding) := do
  return c.getAll fs (← c.folder.links fs)

end Cache

end PdfConform
