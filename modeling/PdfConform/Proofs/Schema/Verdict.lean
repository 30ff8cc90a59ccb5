import Mathlib.Data.List.Perm.Basic
import PdfConform.Proofs.Schema.Lines

/-! What the validation of a grammar file reports: the wrong columns of its header first, then what
is wrong on the lines after it, each once and in the order of the lines. -/
namespace PdfConform

section Sorting

variable {α : Type} (number : α → Nat)

theorem le_trans_number (a b c : α) (hab : decide (number a ≤ number b) = true)
    (hbc : decide (number b ≤ number c) = true) : decide (number a ≤ number c) = true :=
  decide_eq_true (Nat.le_trans (of_decide_eq_true hab) (of_decide_eq_true hbc))

theorem le_total_number (a b : α) :
    (decide (number a ≤ number b) || decide (number b ≤ number a)) = true := by
  simpa using Nat.le_total (number a) (number b)

theorem pairwise_mergeSort (xs : List α) :
    (xs.mergeSort fun a b => number a ≤ number b).Pairwise fun a b => number a ≤ number b :=
  (List.pairwise_mergeSort (le_trans_number number) (le_total_number number) xs).imp
    of_decide_eq_true

/-- Sorting keeps the order of what has the same number. -/
theorem filter_mergeSort (xs : List α) (n : Nat) :
    ((xs.mergeSort fun a b => number a ≤ number b).filter (number · = n)) =
      xs.filter (number · = n) := by
  have hnumber {a : α} (ha : a ∈ xs.filter (number · = n)) : number a = n := by
    simpa using (List.mem_filter.1 ha).2
  have hordered : (xs.filter (number · = n)).Pairwise
      fun a b => decide (number a ≤ number b) = true :=
    List.pairwise_of_forall_mem_list fun a ha b hb =>
      decide_eq_true (Nat.le_of_eq ((hnumber ha).trans (hnumber hb).symm))
  have hsub := (List.sublist_mergeSort (le_trans_number number) (le_total_number number) hordered
    List.filter_sublist).filter (number · = n)
  rw [List.filter_filter] at hsub
  simp only [Bool.and_self] at hsub
  exact (hsub.eq_of_length ((List.mergeSort_perm xs _).filter _).length_eq.symm).symm

end Sorting

namespace Table

/-- The types of a row that are not known, as they are declared. -/
def unknownTypes (r : Row) : List String :=
  r.types.filterMap fun
    | .known _ => none
    | .unknown name => some name

/-- Which of the fixed columns have another name in the header of a file. -/
def wrongColumns (header : List String) : List Nat :=
  (List.range 11).filter fun i => header[i]?.map Text.trimmed ≠ Row.columns[i]?

def columnReport (t : Table) (header : List String) (i : Nat) : Finding :=
  ⟨.malformedHeader, t.link, Row.columns[i]?, t.source,
    "header column " ++ Number.showNat (i + 1) ++ " should be '" ++ Row.columns.getD i "" ++
      "', found '" ++ Text.trimmed (header.getD i "") ++ "'"⟩

/-- A finding on a line, with its number. -/
def lineReport (t : Table) (line : Nat) (key message : String) : Nat × Finding :=
  (line, ⟨.structuralError, t.link, some key, t.source, message⟩)

def defectReport (t : Table) (d : Defect) : Nat × Finding :=
  t.lineReport d.line d.key ("line " ++ Number.showNat d.line ++ ": " ++ d.message)

def typeReports (t : Table) (r : Row) : List (Nat × Finding) :=
  (unknownTypes r).map fun name =>
    t.lineReport r.line r.key.text
      ("unknown type '" ++ name ++ "' on line " ++ Number.showNat r.line)

/-- The wrong columns, then each defect and each unknown type once, by their lines and those of one
row as they are declared. -/
def Reports (t : Table) (header : List String) (found : List Finding) : Prop :=
  ∃ later : List (Nat × Finding),
    found = (wrongColumns header).map (t.columnReport header) ++ later.map (·.2) ∧
    later.Perm (t.defects.map t.defectReport ++ t.rows.flatMap t.typeReports) ∧
    later.Pairwise (fun a b => a.1 ≤ b.1) ∧
    ∀ row ∈ t.rows, later.filter (·.1 = row.line) = t.typeReports row

theorem typeFindings_eq (t : Table) (r : Row) : t.typeFindings r = t.typeReports r := by
  rw [typeReports, unknownTypes, List.map_filterMap, typeFindings]
  refine List.filterMap_congr fun token _ => ?_
  cases token <;> rfl

theorem headerFindings_eq {t : Table} {header : List String}
    (h : t.header = header.map Text.trimmed) :
    t.headerFindings = (wrongColumns header).map (t.columnReport header) := by
  have hcolumns :
      Row.columns.zipIdx = (List.range 11).map fun i => (Row.columns.getD i "", i) := rfl
  rw [headerFindings, hcolumns, List.filterMap_map, wrongColumns, ← List.filterMap_eq_map,
    List.filterMap_filter]
  refine List.filterMap_congr fun i hi => ?_
  have hname : Row.columns[i]? = some (Row.columns.getD i "") := by
    have hlength : i < Row.columns.length := List.mem_range.1 hi
    simp [hlength]
  simp only [Function.comp_apply, h, List.getElem?_map, columnReport, hname, finding]
  have hfound : (header[i]?.map Text.trimmed).getD "" = Text.trimmed (header.getD i "") := by
    rw [List.getD_eq_getElem?_getD]
    cases header[i]? <;> rfl
  by_cases hright : header[i]?.map Text.trimmed = some (Row.columns.getD i "")
  · simp [hright]
  · simp only [hright, hfound, if_false, ne_eq, not_false_eq_true, decide_true, if_true]

theorem header_of_parse {delimiter : Char} {link source text : String} {t : Table}
    (h : parse delimiter link source text = .ok t) {n : Nat} {header : List String}
    (hfirst : IsFirstLine delimiter text n header) : t.header = header.map Text.trimmed := by
  rw [isFirstLine_iff] at hfirst
  unfold parse at h
  split at h
  · next hlines => rw [hlines] at hfirst; cases hfirst
  · next hlines =>
    rw [hlines] at hfirst
    cases hfirst
    split at h <;> cases h
    rfl

/-- A line that gave a row gave no defect. -/
theorem Accounts.filter_defects_line {delimiter : Char} {text : String} {t : Table}
    (h : t.Accounts delimiter text) {row : Row} (hrow : row ∈ t.rows) :
    t.defects.filter (·.line = row.line) = [] := by
  obtain ⟨fields, hline⟩ := h.line_of_row row hrow
  cases hread : Row.ofFields 0 fields with
  | ok read => exact (h.row hline hread).2
  | error fault =>
    have hnone := List.filter_eq_nil_iff.1 (h.defect hline hread).1 row hrow
    exact absurd (decide_eq_true rfl) hnone

theorem filter_reports {delimiter : Char} {text : String} {t : Table}
    (h : t.Accounts delimiter text) {row : Row} (hrow : row ∈ t.rows) :
    (t.defects.map t.defectReport ++ t.rows.flatMap t.typeReports).filter (·.1 = row.line) =
      t.typeReports row := by
  have hdefects : (t.defects.map t.defectReport).filter (·.1 = row.line) = [] := by
    rw [List.filter_map]
    exact List.map_eq_nil_iff.2 (h.filter_defects_line hrow)
  have hline (r : Row) (report : Nat × Finding) (hmem : report ∈ t.typeReports r) :
      report.1 = r.line := by
    obtain ⟨name, _, rfl⟩ := List.mem_map.1 hmem
    rfl
  rw [List.filter_append, hdefects, List.nil_append]
  exact filter_flatMap_of_mem h.rows hline hrow

theorem isEmpty_eq_false_of_parse {delimiter : Char} {link source text : String} {t : Table}
    (h : parse delimiter link source text = .ok t) {n : Nat} {header : List String}
    (hfirst : IsFirstLine delimiter text n header) : t.isEmpty = false := by
  have hlong : ¬header.length < Row.columns.length := fun hshort => by
    obtain ⟨fault, hfault⟩ := parse_eq_error_iff.2 ⟨_, isFirstLine_iff.1 hfirst, hshort⟩
    rw [h] at hfault
    cases hfault
  unfold isEmpty
  rw [header_of_parse h hfirst]
  cases header with
  | nil => exact absurd (by decide) hlong
  | cons _ _ => rfl

theorem reports_of_parse {delimiter : Char} {link source text : String} {t : Table}
    (h : parse delimiter link source text = .ok t) {n : Nat} {header : List String}
    (hfirst : IsFirstLine delimiter text n header) : t.Reports header t.findings := by
  have htypes : t.rows.flatMap t.typeFindings = t.rows.flatMap t.typeReports :=
    congrArg (t.rows.flatMap ·) (funext t.typeFindings_eq)
  have hfindings : t.findings = t.headerFindings ++ t.lineFindings :=
    if_neg (by rw [isEmpty_eq_false_of_parse h hfirst]; exact Bool.false_ne_true)
  rw [hfindings, headerFindings_eq (header_of_parse h hfirst), lineFindings, htypes]
  refine ⟨_, rfl, List.mergeSort_perm _ _, pairwise_mergeSort Prod.fst _, fun row hrow => ?_⟩
  rw [filter_mergeSort Prod.fst]
  exact filter_reports (.of_parse h) hrow

/-- A file without a line that is not blank gets one report. For any other there are those of its
header and, in the order of the lines, one for each defect and each unknown type. A verdict is good
exactly if there are none. -/
theorem validate_of_parse {delimiter : Char} {link source text : String} {t : Table}
    (h : parse delimiter link source text = .ok t) :
    ((∀ n fields, ¬IsLine delimiter text n fields) →
      t.validate.2 = [⟨.structuralError, t.link, none, t.source, "empty grammar file"⟩]) ∧
    (∀ m fields, IsLine delimiter text m fields →
      ∃ n header, IsFirstLine delimiter text n header ∧ t.Reports header t.validate.2) ∧
    (t.validate.1 = true ↔ t.validate.2 = []) := by
  rw [validate_eq]
  refine ⟨fun hnone => ?_, fun m fields hline => ?_, List.isEmpty_iff⟩
  · have hlines : lines delimiter text = [] :=
      List.eq_nil_iff_forall_not_mem.2 fun line hmem => hnone _ _ (mem_lines_iff.1 hmem)
    unfold parse at h
    rw [hlines] at h
    cases h
    rfl
  · obtain ⟨⟨n, header⟩, hfirst⟩ : ∃ first, (lines delimiter text).head? = some first := by
      cases hlines : lines delimiter text with
      | nil => exact absurd (hlines ▸ mem_lines_iff.2 hline) List.not_mem_nil
      | cons first _ => exact ⟨first, rfl⟩
    have hfirst := isFirstLine_iff.2 hfirst
    exact ⟨n, header, hfirst, reports_of_parse h hfirst⟩

/-! A file with two wrong columns, a malformed line between two rows and three unknown types. -/
namespace Faulty

def header : List String :=
  ["Key", "Kind", "SinceVersion", "DeprecatedIn", "REQUIRED", "INDIRECTREFERENCE", "RequiredValue",
    "DefaultValue", "PossibleValues", "SpecialCase", "Target"]

def line (key types : String) : String :=
  "\t".intercalate [key, types, "", "", "", "", "", "", "", "", ""]

def text : String :=
  "\n".intercalate ["\t".intercalate header, line "A" "blob;name;atom", "B", "", line "C" "cell"]

def row (n : Nat) (key : String) (types : List TypeToken) : Row where
  line := n
  key := .name key
  types
  since := none
  deprecated := none
  required := .const false
  indirect := .const false
  requiredValue := none
  defaultText := ""
  possible := types.map fun _ => ⟨[]⟩
  special := none
  links := types.map fun _ => []

def table : Table where
  link := "Test"
  source := "Test.tsv"
  header
  rows := [row 2 "A" [.unknown "BLOB", .known .name, .unknown "ATOM"], row 5 "C" [.unknown "CELL"]]
  defects := [⟨3, "B", "expected 11 columns, found 1"⟩]

theorem parse_text : parse '\t' "Test" "Test.tsv" text = .ok table := by decide +kernel

theorem isLine_header : IsLine '\t' text 1 header := mem_lines_iff.1 (by decide +kernel)

end Faulty

theorem validate_of_parse_faulty :
    (∃ n header, IsFirstLine '\t' Faulty.text n header ∧
      Faulty.table.Reports header Faulty.table.validate.2) ∧
    (Faulty.table.validate.1 = true ↔ Faulty.table.validate.2 = []) ∧
    wrongColumns Faulty.header = [1, 10] ∧
    Faulty.table.rows.flatMap unknownTypes = ["BLOB", "ATOM", "CELL"] := by
  obtain ⟨_, hreports, hvalid⟩ := validate_of_parse Faulty.parse_text
  exact ⟨hreports 1 Faulty.header Faulty.isLine_header, hvalid, by decide +kernel, by decide⟩

end Table

end PdfConform
