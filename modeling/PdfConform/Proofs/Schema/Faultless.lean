import Mathlib.Data.List.Basic
import PdfConform.Proofs.Schema.WellFormed

/-! Which tables are found in order. Nothing is found on a table exactly if its header is the one
it should have, every line was read as a row and every type is known. -/
namespace PdfConform

/-- A table whose checks need no way out. -/
structure Table.WellFormed (t : Table) : Prop where
  header : Row.columns <+: t.header
  defects : t.defects = []
  known : ∀ row ∈ t.rows, ∀ token ∈ row.types, ∃ type, token = .known type
  rows : ∀ row ∈ t.rows, row.WellFormed

namespace Table

theorem headerFindings_eq_nil_iff (t : Table) :
    t.headerFindings = [] ↔ Row.columns <+: t.header := by
  rw [List.prefix_iff_getElem?, headerFindings, List.filterMap_eq_nil_iff]
  constructor
  · intro h i hi
    have hcolumn := h (Row.columns[i], i) (List.mk_mem_zipIdx_iff_getElem?.2 (by simp [hi]))
    by_contra hdiffers
    simp [hdiffers] at hcolumn
  · rintro h ⟨expected, i⟩ hcolumn
    obtain ⟨hi, rfl⟩ := List.getElem?_eq_some_iff.1 (List.mk_mem_zipIdx_iff_getElem?.1 hcolumn)
    simp [h i hi]

theorem typeFindings_eq_nil_iff (t : Table) (row : Row) :
    t.typeFindings row = [] ↔ ∀ token ∈ row.types, ∃ type, token = .known type := by
  rw [typeFindings, List.filterMap_eq_nil_iff]
  refine forall₂_congr fun token _ => ?_
  cases token <;> simp

theorem lineFindings_eq_nil_iff (t : Table) :
    t.lineFindings = [] ↔
      t.defects = [] ∧ ∀ row ∈ t.rows, ∀ token ∈ row.types, ∃ type, token = .known type := by
  have hsorted : t.lineFindings = [] ↔
      t.defects.map t.defectFinding ++ t.rows.flatMap t.typeFindings = [] := by
    rw [lineFindings, List.map_eq_nil_iff, ← List.length_eq_zero_iff, List.length_mergeSort,
      List.length_eq_zero_iff]
  rw [hsorted, List.append_eq_nil_iff, List.map_eq_nil_iff, List.flatMap_eq_nil_iff]
  exact and_congr_right fun _ => forall₂_congr fun row _ => t.typeFindings_eq_nil_iff row

/-- Nothing is found on a table. -/
theorem findings_eq_nil_iff (t : Table) :
    t.findings = [] ↔ Row.columns <+: t.header ∧ t.defects = [] ∧
      ∀ row ∈ t.rows, ∀ token ∈ row.types, ∃ type, token = .known type := by
  rw [← lineFindings_eq_nil_iff, ← headerFindings_eq_nil_iff, ← List.append_eq_nil_iff, findings]
  split
  · next hempty =>
    have hheader : t.header = [] := by
      simp only [isEmpty, Bool.and_eq_true, List.isEmpty_iff] at hempty
      exact hempty.1.1
    refine iff_of_false (by simp) fun hnone => ?_
    have hcolumns := t.headerFindings_eq_nil_iff.1 (List.append_eq_nil_iff.1 hnone).1
    rw [hheader] at hcolumns
    exact absurd (List.prefix_nil.1 hcolumns) (by decide)
  · rfl

/-- The type, the values and the links of the first type that a value has are there. -/
theorem WellFormed.aligned {t : Table} (h : t.WellFormed) {row : Row} (hrow : row ∈ t.rows)
    {store : Store} {object : Object} {index : Nat}
    (hindex : TypeToken.select? store object row.types = some index) :
    ∃ type possible links, row.types[index]? = some (.known type) ∧
      type.admits store object = true ∧
      row.possible[index]? = some possible ∧ row.possibleFor? index = some possible ∧
      row.links[index]? = some links ∧ row.linksFor index = links := by
  obtain ⟨hlt, hadmits, _⟩ := List.findIdx?_eq_some_iff_getElem.1 hindex
  obtain ⟨type, htype⟩ := h.known row hrow row.types[index] (List.getElem_mem hlt)
  have hpossible : index < row.possible.length := (h.rows row hrow).possible ▸ hlt
  have hlinks : index < row.links.length := (h.rows row hrow).links ▸ hlt
  rw [htype] at hadmits
  refine ⟨type, row.possible[index], row.links[index], ?_, ?_, ?_, ?_, ?_, ?_⟩
  · rw [List.getElem?_eq_getElem hlt, htype]
  · simpa [TypeToken.admits, TypeToken.known?] using hadmits
  · exact List.getElem?_eq_getElem hpossible
  · exact List.getElem?_eq_getElem hpossible
  · exact List.getElem?_eq_getElem hlinks
  · rw [Row.linksFor, List.getElem?_eq_getElem hlinks, Option.getD_some]

end Table

namespace Cache

/-- A table that was loaded is a well-formed one in which nothing was found. -/
theorem wellFormed_table_of_load {folder : Folder} {fs : Files} {link : String} {table : Table}
    (h : (load folder fs link).1 = .ok table) : table.WellFormed := by
  have hrows := wellFormed_of_load h
  rw [load_eq] at h
  split at h
  · split at h
    · next hclean =>
      cases h
      obtain ⟨hheader, hdefects, hknown⟩ :=
        (Table.findings_eq_nil_iff table).1 (List.isEmpty_iff.1 hclean)
      exact ⟨hheader, hdefects, hknown, hrows⟩
    · cases h
  · cases h

theorem Reached.wellFormed_table {folder : Folder} {c : Cache} (h : c.Reached folder)
    {link : String} {table : Table} (hfind : c.find? link = some (.ok table)) :
    table.WellFormed := by
  induction h with
  | empty => simp [ofFolder, find?] at hfind
  | get fs other _ ih =>
    rw [find?_get] at hfind
    split at hfind
    · exact wellFormed_table_of_load (Option.some.inj hfind)
    · exact ih hfind

end Cache

end PdfConform
