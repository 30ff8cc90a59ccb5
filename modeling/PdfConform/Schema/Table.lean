import PdfConform.Finding
import PdfConform.Schema.Row

/-! A grammar file: its header and one row or one defect for each further line that
is not blank. -/
namespace PdfConform

structure Defect where
  line : Nat
  key : String
  message : String
  deriving DecidableEq

structure Table where
  link : String
  source : String
  header : List String
  rows : List Row
  defects : List Defect
  deriving DecidableEq

namespace Table

/-- A header with too few columns, the only thing that stops a file from being read. -/
structure HeaderFault where
  source : String
  columns : Nat
  deriving DecidableEq

def HeaderFault.reason (f : HeaderFault) : String := Row.tooFewColumns f.columns

def HeaderFault.message (f : HeaderFault) : String :=
  "Malformed header in " ++ f.source ++ ": " ++ f.reason

def dropCarriageReturns (cs : List Char) : List Char :=
  (cs.reverse.dropWhile (· == '\r')).reverse

/-- The lines that are not blank, numbered from 1 in the whole text, each in its columns. -/
def lines (delimiter : Char) (text : String) : List (Nat × List String) :=
  ((text.toList.splitOn '\n').zipIdx 1).filterMap fun (cs, n) =>
    let cs := dropCarriageReturns cs
    if cs.all Text.isBlank then none else some (n, (cs.splitOn delimiter).map String.ofList)

def readLine (line : Nat × List String) : Except Defect Row :=
  (Row.ofFields line.1 line.2).mapError fun fault =>
    ⟨line.1, Text.trimmed (line.2.headD ""), fault.message⟩

def errors {ε α : Type} (results : List (Except ε α)) : List ε :=
  results.filterMap fun
    | .error e => some e
    | .ok _ => none

/-- Read a grammar file; `link` and `source` only name it. -/
def parse (delimiter : Char) (link source text : String) : Except HeaderFault Table :=
  match lines delimiter text with
  | [] => .ok ⟨link, source, [], [], []⟩
  | (_, header) :: body =>
    if header.length < Row.columns.length then .error ⟨source, header.length⟩
    else
      let results := body.map readLine
      .ok {
        link, source
        header := header.map Text.trimmed
        rows := results.filterMap Except.toOption
        defects := errors results }

/-- The file has no line that is not blank. -/
def isEmpty (t : Table) : Bool := t.header.isEmpty && t.rows.isEmpty && t.defects.isEmpty

def row? (t : Table) (key : String) : Option Row := t.rows.find? fun r => r.key = .name key

/-- The row of a label read as a row's own key would be, so that a number finds an
index. No label finds the wildcard. -/
def rowFor? (t : Table) (label : String) : Option Row :=
  match KeyPattern.parse label with
  | .wildcard => none
  | pattern => t.rows.find? fun r => r.key = pattern

def wildcard? (t : Table) : Option Row := t.rows.find? fun r => r.key = .wildcard

def namesKey (t : Table) (key : String) : Bool := (t.row? key).isSome

def namesIndex (t : Table) (n : Nat) : Bool := t.rows.any fun r => r.key = .index n

def hasNamedKeys (t : Table) : Bool := t.rows.any fun r => r.key.isName

/-- A table for arrays has an index and no named key. -/
def isArrayTable (t : Table) : Bool := t.rows.any (fun r => r.key.isIndex) && !t.hasNamedKeys

def finding (t : Table) (kind : Finding.Kind) (key : Option String) (message : String) : Finding :=
  ⟨kind, t.link, key, t.source, message⟩

/-- One finding for each column of the header that has another name than it should. -/
def headerFindings (t : Table) : List Finding :=
  Row.columns.zipIdx.filterMap fun (expected, i) =>
    let found := t.header[i]?
    if found = some expected then none
    else some (t.finding .malformedHeader (some expected)
      ("header column " ++ Number.showNat (i + 1) ++ " should be '" ++ expected ++ "', found '" ++
        found.getD "" ++ "'"))

def defectFinding (t : Table) (d : Defect) : Nat × Finding :=
  (d.line, t.finding .structuralError (some d.key)
    ("line " ++ Number.showNat d.line ++ ": " ++ d.message))

/-- One finding for each type of a row that is not in the vocabulary. -/
def typeFindings (t : Table) (r : Row) : List (Nat × Finding) :=
  r.types.filterMap fun
    | .known _ => none
    | .unknown name => some (r.line, t.finding .structuralError (some r.key.text)
        ("unknown type '" ++ name ++ "' on line " ++ Number.showNat r.line))

/-- The findings on lines after the header, in the order of the lines. -/
def lineFindings (t : Table) : List Finding :=
  let found := t.defects.map t.defectFinding ++ t.rows.flatMap t.typeFindings
  (found.mergeSort fun a b => a.1 ≤ b.1).map (·.2)

def findings (t : Table) : List Finding :=
  if t.isEmpty then [t.finding .structuralError none "empty grammar file"]
  else t.headerFindings ++ t.lineFindings

/-- A report makes the verdict false. -/
def report (verdict : Bool × List Finding) (f : Finding) : Bool × List Finding :=
  (false, verdict.2 ++ [f])

/-- The verdict on a table, with what was reported for it. -/
def validate (t : Table) : Bool × List Finding :=
  if t.isEmpty then report (true, []) (t.finding .structuralError none "empty grammar file")
  else t.lineFindings.foldl report (t.headerFindings.foldl report (true, []))

theorem foldl_report (fs : List Finding) (verdict : Bool × List Finding) :
    fs.foldl report verdict = (verdict.1 && fs.isEmpty, verdict.2 ++ fs) := by
  induction fs generalizing verdict with
  | nil => simp
  | cons f fs ih => simp [ih, report]

theorem validate_eq (t : Table) : t.validate = (t.findings.isEmpty, t.findings) := by
  unfold validate findings
  split
  · rfl
  · rw [foldl_report, foldl_report]
    cases t.headerFindings <;> rfl

end Table

end PdfConform
