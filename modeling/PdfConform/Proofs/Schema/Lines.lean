import Mathlib.Data.List.Basic
import PdfConform.Proofs.Schema.WellFormed

/-! Every line of a grammar file is accounted for. The first that is not blank is the header; each
later one gives one row or one defect, by its own columns. -/
namespace PdfConform

/-! What is kept of a list with increasing numbers, when it keeps its number -/
section Numbered

variable {α β : Type} {before : α → Nat} {after : β → Nat} {xs : List α}
  (hxs : xs.Pairwise fun a b => before a < before b)
include hxs

theorem filter_flatMap_of_mem {f : α → List β} (hf : ∀ x, ∀ y ∈ f x, after y = before x) {x : α}
    (hx : x ∈ xs) : ((xs.flatMap f).filter fun y => after y = before x) = f x := by
  obtain ⟨earlier, later, rfl⟩ := List.append_of_mem hx
  obtain ⟨_, hlater, hearlier⟩ := List.pairwise_append.1 hxs
  have hnone (ys : List α) (hne : ∀ y ∈ ys, before y ≠ before x) :
      ((ys.flatMap f).filter fun y => after y = before x) = [] := by
    rw [List.filter_eq_nil_iff]
    intro b hb
    obtain ⟨y, hy, hby⟩ := List.mem_flatMap.1 hb
    simpa [hf y b hby] using hne y hy
  have hself : ((f x).filter fun y => after y = before x) = f x :=
    List.filter_eq_self.2 fun y hy => decide_eq_true (hf x y hy)
  rw [List.flatMap_append, List.flatMap_cons, List.filter_append, List.filter_append,
    hnone earlier fun y hy => Nat.ne_of_lt (hearlier y hy x List.mem_cons_self), hself,
    hnone later fun y hy => Nat.ne_of_gt ((List.pairwise_cons.1 hlater).1 y hy),
    List.nil_append, List.append_nil]

variable {f : α → Option β} (hf : ∀ x y, f x = some y → after y = before x)
include hf

theorem pairwise_filterMap : (xs.filterMap f).Pairwise fun a b => after a < after b := by
  refine hxs.filterMap f fun a a' hlt b hb b' hb' => ?_
  rw [hf a b hb, hf a' b' hb']
  exact hlt

theorem filter_filterMap_of_mem {x : α} (hx : x ∈ xs) :
    ((xs.filterMap f).filter fun y => after y = before x) = (f x).toList := by
  rw [List.filterMap_eq_flatMap_toList]
  exact filter_flatMap_of_mem hxs (fun x y hy => hf x y (Option.mem_toList.1 hy)) hx

end Numbered

namespace Row

/-- The number of a line only goes into the row. -/
theorem ofFields_eq_map (line : Nat) (fields : List String) :
    ofFields line fields = (fun row => { row with line }) <$> ofFields 0 fields := by
  unfold ofFields
  split
  · dsimp only
    split
    · rfl
    · simp only [map_bind, map_pure]
  · rfl

end Row

namespace Table

/-- Line `n` of a text, counted from 1, is not blank and has these columns. -/
def IsLine (delimiter : Char) (text : String) (n : Nat) (fields : List String) : Prop :=
  ∃ i cs, n = i + 1 ∧ (text.toList.splitOn '\n')[i]? = some cs ∧
    (∃ c ∈ cs, Text.isBlank c = false) ∧
    fields = ((dropCarriageReturns cs).splitOn delimiter).map String.ofList

/-- The header of a text: no line before it has anything on it. -/
def IsFirstLine (delimiter : Char) (text : String) (n : Nat) (fields : List String) : Prop :=
  IsLine delimiter text n fields ∧ ∀ m others, IsLine delimiter text m others → n ≤ m

def IsLaterLine (delimiter : Char) (text : String) (n : Nat) (fields : List String) : Prop :=
  IsLine delimiter text n fields ∧ ∃ m others, IsLine delimiter text m others ∧ m < n

theorem all_isBlank_dropCarriageReturns (cs : List Char) :
    (dropCarriageReturns cs).all Text.isBlank = cs.all Text.isBlank := by
  have drop (xs : List Char) :
      (xs.dropWhile (· == '\r')).all Text.isBlank = xs.all Text.isBlank := by
    induction xs with
    | nil => rfl
    | cons x xs ih =>
      rw [List.dropWhile_cons, List.all_cons]
      split
      · next hx =>
        obtain rfl : x = '\r' := by simpa using hx
        rw [ih]
        rfl
      · rfl
  rw [dropCarriageReturns, List.all_reverse, drop, List.all_reverse]

theorem mem_lines_iff {delimiter : Char} {text : String} {n : Nat} {fields : List String} :
    (n, fields) ∈ lines delimiter text ↔ IsLine delimiter text n fields := by
  unfold lines
  simp only [List.mem_filterMap, Prod.exists, List.mk_mem_zipIdx_iff_le_and_getElem?_sub,
    all_isBlank_dropCarriageReturns]
  constructor
  · rintro ⟨cs, m, ⟨hm, hcs⟩, hline⟩
    split at hline
    · cases hline
    · next hblank =>
      cases hline
      refine ⟨n - 1, cs, by omega, hcs, ?_, rfl⟩
      simpa using hblank
  · rintro ⟨i, cs, rfl, hcs, ⟨c, hc, hblank⟩, rfl⟩
    refine ⟨cs, i + 1, ⟨by omega, hcs⟩, if_neg ?_⟩
    rw [List.all_eq_true]
    intro hall
    rw [hall c hc] at hblank
    cases hblank

theorem lines_pairwise (delimiter : Char) (text : String) :
    (lines delimiter text).Pairwise fun a b => a.1 < b.1 := by
  have hnumbers : ((text.toList.splitOn '\n').zipIdx 1).Pairwise fun a b => a.2 < b.2 := by
    rw [← List.pairwise_map, List.zipIdx_map_snd]
    exact List.pairwise_lt_range'
  refine pairwise_filterMap hnumbers ?_
  rintro ⟨cs, n⟩ line hline
  dsimp only at hline
  split at hline
  · cases hline
  · cases hline
    rfl

theorem isFirstLine_iff {delimiter : Char} {text : String} {n : Nat} {fields : List String} :
    IsFirstLine delimiter text n fields ↔ (lines delimiter text).head? = some (n, fields) := by
  simp only [IsFirstLine, ← mem_lines_iff]
  have hlines := lines_pairwise delimiter text
  generalize lines delimiter text = found at hlines
  cases found with
  | nil => simp
  | cons first rest =>
    obtain ⟨hfirst, _⟩ := List.pairwise_cons.1 hlines
    simp only [List.head?_cons, Option.some.injEq]
    constructor
    · rintro ⟨hmem, hleast⟩
      cases hmem with
      | head => rfl
      | tail _ hmem =>
        have := hfirst _ hmem
        have := hleast _ _ List.mem_cons_self
        omega
    · rintro rfl
      refine ⟨List.mem_cons_self, fun m others hother => ?_⟩
      cases hother with
      | head => exact Nat.le_refl n
      | tail _ hother => exact Nat.le_of_lt (hfirst _ hother)

theorem isLaterLine_iff {delimiter : Char} {text : String} {n : Nat} {fields : List String} :
    IsLaterLine delimiter text n fields ↔ (n, fields) ∈ (lines delimiter text).tail := by
  simp only [IsLaterLine, ← mem_lines_iff]
  have hlines := lines_pairwise delimiter text
  generalize lines delimiter text = found at hlines
  cases found with
  | nil => simp
  | cons first rest =>
    obtain ⟨hfirst, _⟩ := List.pairwise_cons.1 hlines
    rw [List.tail_cons]
    constructor
    · rintro ⟨hmem, m, others, hother, hlt⟩
      cases hmem with
      | head =>
        cases hother with
        | head => exact absurd hlt (Nat.lt_irrefl n)
        | tail _ hother => exact absurd hlt (Nat.lt_asymm (hfirst _ hother))
      | tail _ hmem => exact hmem
    · intro hmem
      exact ⟨List.mem_cons_of_mem _ hmem, _, _, List.mem_cons_self, hfirst _ hmem⟩

def rowOf? (line : Nat × List String) : Option Row := (readLine line).toOption

def defectOf? (line : Nat × List String) : Option Defect :=
  match readLine line with
  | .error defect => some defect
  | .ok _ => none

theorem errors_map_readLine (body : List (Nat × List String)) :
    errors (body.map readLine) = body.filterMap defectOf? := by
  rw [errors, List.filterMap_map]
  refine List.filterMap_congr fun line _ => ?_
  rw [Function.comp_apply, defectOf?]
  cases readLine line <;> rfl

/-- Only a header can stop a file from being read. -/
theorem parse_eq_error_iff {delimiter : Char} {link source text : String} :
    (∃ fault, parse delimiter link source text = .error fault) ↔
      ∃ line, (lines delimiter text).head? = some line ∧
        line.2.length < Row.columns.length := by
  unfold parse
  cases lines delimiter text with
  | nil => simp
  | cons header body =>
    by_cases hshort : header.2.length < Row.columns.length <;> simp [hshort]

theorem rows_of_parse {delimiter : Char} {link source text : String} {t : Table}
    (h : parse delimiter link source text = .ok t) :
    t.rows = (lines delimiter text).tail.filterMap rowOf? := by
  unfold parse at h
  split at h
  · next hlines => cases h; rw [hlines]; rfl
  · next hlines =>
    split at h
    · cases h
    · cases h
      rw [hlines, List.tail_cons, List.filterMap_map]
      rfl

theorem defects_of_parse {delimiter : Char} {link source text : String} {t : Table}
    (h : parse delimiter link source text = .ok t) :
    t.defects = (lines delimiter text).tail.filterMap defectOf? := by
  unfold parse at h
  split at h
  · next hlines => cases h; rw [hlines]; rfl
  · next hlines =>
    split at h
    · cases h
    · cases h
      rw [hlines]
      exact errors_map_readLine _

theorem rowOf?_eq (line : Nat × List String) :
    rowOf? line = (Row.ofFields 0 line.2).toOption.map fun row => { row with line := line.1 } := by
  rw [rowOf?, readLine, Row.ofFields_eq_map]
  cases Row.ofFields 0 line.2 <;> rfl

theorem defectOf?_eq (line : Nat × List String) :
    defectOf? line = match Row.ofFields 0 line.2 with
      | .ok _ => none
      | .error fault => some ⟨line.1, Text.trimmed (line.2.headD ""), fault.message⟩ := by
  rw [defectOf?, readLine, Row.ofFields_eq_map]
  cases Row.ofFields 0 line.2 <;> rfl

theorem line_of_rowOf? {line : Nat × List String} {row : Row} (h : rowOf? line = some row) :
    row.line = line.1 := by
  rw [rowOf?_eq] at h
  obtain ⟨_, _, rfl⟩ := Option.map_eq_some_iff.1 h
  rfl

theorem line_of_defectOf? {line : Nat × List String} {defect : Defect}
    (h : defectOf? line = some defect) : defect.line = line.1 := by
  rw [defectOf?_eq] at h
  split at h <;> cases h
  rfl

/-- The rows and the defects of a table are what its later lines give. -/
structure Accounts (delimiter : Char) (text : String) (t : Table) : Prop where
  row {n : Nat} {fields : List String} {row : Row} :
    IsLaterLine delimiter text n fields → Row.ofFields 0 fields = .ok row →
      (t.rows.filter (·.line = n)) = [{ row with line := n }] ∧ (t.defects.filter (·.line = n)) = []
  defect {n : Nat} {fields : List String} {fault : Row.Fault} :
    IsLaterLine delimiter text n fields → Row.ofFields 0 fields = .error fault →
      (t.rows.filter (·.line = n)) = [] ∧
        (t.defects.filter (·.line = n)) = [⟨n, Text.trimmed (fields.headD ""), fault.message⟩]
  line_of_row : ∀ row ∈ t.rows, ∃ fields, IsLaterLine delimiter text row.line fields
  line_of_defect : ∀ defect ∈ t.defects, ∃ fields, IsLaterLine delimiter text defect.line fields
  rows : t.rows.Pairwise fun a b => a.line < b.line
  defects : t.defects.Pairwise fun a b => a.line < b.line

theorem Accounts.of_parse {delimiter : Char} {link source text : String} {t : Table}
    (h : parse delimiter link source text = .ok t) : t.Accounts delimiter text := by
  have hlines := (lines_pairwise delimiter text).tail
  have hrow {n : Nat} {fields : List String} (hline : IsLaterLine delimiter text n fields) :
      (t.rows.filter (·.line = n)) = (rowOf? (n, fields)).toList := by
    rw [rows_of_parse h]
    exact filter_filterMap_of_mem hlines (fun _ _ => line_of_rowOf?) (isLaterLine_iff.1 hline)
  have hdefect {n : Nat} {fields : List String} (hline : IsLaterLine delimiter text n fields) :
      (t.defects.filter (·.line = n)) = (defectOf? (n, fields)).toList := by
    rw [defects_of_parse h]
    exact filter_filterMap_of_mem hlines (fun _ _ => line_of_defectOf?) (isLaterLine_iff.1 hline)
  constructor
  case row =>
    intro n fields row hline hread
    rw [hrow hline, hdefect hline, rowOf?_eq, defectOf?_eq, hread]
    exact ⟨rfl, rfl⟩
  case defect =>
    intro n fields fault hline hread
    rw [hrow hline, hdefect hline, rowOf?_eq, defectOf?_eq, hread]
    exact ⟨rfl, rfl⟩
  case line_of_row =>
    intro row hmem
    rw [rows_of_parse h] at hmem
    obtain ⟨⟨n, fields⟩, hline, hrow⟩ := List.mem_filterMap.1 hmem
    exact ⟨fields, line_of_rowOf? hrow ▸ isLaterLine_iff.2 hline⟩
  case line_of_defect =>
    intro defect hmem
    rw [defects_of_parse h] at hmem
    obtain ⟨⟨n, fields⟩, hline, hdefect⟩ := List.mem_filterMap.1 hmem
    exact ⟨fields, line_of_defectOf? hdefect ▸ isLaterLine_iff.2 hline⟩
  case rows =>
    rw [rows_of_parse h]
    exact pairwise_filterMap hlines fun _ _ => line_of_rowOf?
  case defects =>
    rw [defects_of_parse h]
    exact pairwise_filterMap hlines fun _ _ => line_of_defectOf?

/-- A file is not read exactly if the first of its lines that are not blank has too few columns.
Each later one is a row or a defect of the table, whatever the other lines are, and there is
nothing else in it. -/
theorem parse_accounts (delimiter : Char) (link source text : String) :
    ((∃ fault, parse delimiter link source text = .error fault) ↔
      ∃ n fields, IsFirstLine delimiter text n fields ∧ fields.length < 11) ∧
    ∀ t, parse delimiter link source text = .ok t → t.Accounts delimiter text := by
  refine ⟨?_, fun t => Accounts.of_parse⟩
  rw [parse_eq_error_iff]
  simp only [isFirstLine_iff, Prod.exists]
  rfl

/-! A file with a blank line before the header and one after it, ends of lines of both kinds, a row
and a defect. -/
namespace Sample

def text : String :=
  "\n".intercalate ["\r", "\t".intercalate Row.columns ++ "\r", " \t",
    "Type\tname\t1.2\t\tTRUE\t\tCatalog\t\t\t\t\r", "Kids \tarray"]

def table : Table where
  link := "Test"
  source := "Test.tsv"
  header := Row.columns
  rows := [{
    line := 4, key := .name "Type", types := [.known .name], since := some ⟨1, 2⟩
    deprecated := none, required := .const true, indirect := .const false
    requiredValue := some (.text "Catalog"), defaultText := "", possible := [⟨[]⟩]
    special := none, links := [[]] }]
  defects := [⟨5, "Kids", "expected 11 columns, found 2"⟩]

theorem parse_text : parse '\t' "Test" "Test.tsv" text = .ok table := by decide +kernel

end Sample

theorem parse_accounts_sample :
    Sample.table.Accounts '\t' Sample.text ∧
      ∀ n fields, IsFirstLine '\t' Sample.text n fields → 11 ≤ fields.length := by
  obtain ⟨hfails, haccounts⟩ := parse_accounts '\t' "Test" "Test.tsv" Sample.text
  refine ⟨haccounts _ Sample.parse_text, fun n fields hfirst => Nat.le_of_not_lt fun hshort => ?_⟩
  obtain ⟨fault, hfault⟩ := hfails.2 ⟨n, fields, hfirst, hshort⟩
  rw [Sample.parse_text] at hfault
  cases hfault

end Table

end PdfConform
