import Mathlib.Tactic.SplitIfs
import PdfConform.Proofs.Json.Written
import PdfConform.Proofs.Report.Replies

/-! The lines of a report whose writer takes everything. Each finding ends one line, and it is that
line alone exactly if no text that the format shows as it is breaks it; in the lines of JSON no text
is shown as it is. -/
namespace PdfConform

/-! Characters of compact JSON -/

namespace Json

theorem newline_not_mem_escape (c : Char) : '\n' ∉ escape c := by
  by_cases hcontrol : c.toNat < 0x20
  · have hlow : ∀ k : Fin 32, '\n' ∉ escape (Char.ofNat k) := by decide
    have := hlow ⟨c.toNat, hcontrol⟩
    rwa [Char.ofNat_toNat] at this
  · have hne : c ≠ '\n' := by
      rintro rfl
      exact hcontrol (by decide)
    unfold escape
    split_ifs <;> first | decide | simpa using hne.symm

theorem newline_not_mem_writeString (s : String) : '\n' ∉ writeString s := by
  have hescape : '\n' ∉ s.toList.flatMap escape := by
    rw [List.mem_flatMap]
    rintro ⟨c, _, hc⟩
    exact newline_not_mem_escape c hc
  simpa [writeString] using hescape

/-- A record is on one line if its values are. -/
theorem newline_not_mem_record {members : List (String × Json)}
    (h : ∀ m ∈ members, '\n' ∉ writeCompact m.2) : '\n' ∉ writeCompact (.record members) := by
  have hmember {mark : Char} (hmark : '\n' ≠ mark) (m : String × Json) (hm : m ∈ members) :
      '\n' ∉ mark :: writeString m.1 ++ ':' :: writeCompact m.2 := by
    simpa [hmark] using ⟨newline_not_mem_writeString m.1, h m hm⟩
  cases members with
  | nil => decide
  | cons first members =>
    have hmore : '\n' ∉ members.flatMap fun m =>
        ',' :: writeString m.1 ++ ':' :: writeCompact m.2 := by
      rw [List.mem_flatMap]
      rintro ⟨m, hm, hc⟩
      exact hmember (by decide) m (List.mem_cons_of_mem first hm) hc
    change '\n' ∉ '\x7b' :: writeString first.1 ++ ':' :: writeCompact first.2 ++
      compactMembers _ ++ ['\x7d']
    rw [compactMembers_eq, List.mem_append, List.mem_append, not_or, not_or]
    exact ⟨⟨hmember (by decide) first List.mem_cons_self, hmore⟩, by decide⟩

end Json

namespace Finding

theorem newline_not_mem_jsonLine (f : Finding) : '\n' ∉ f.jsonLine.toList := by
  have htext (s : String) : '\n' ∉ Json.writeCompact (.text s) := Json.newline_not_mem_writeString s
  have hkey : '\n' ∉ Json.writeCompact (f.key.elim .null .text) := by
    cases f.key with
    | none => decide
    | some key => exact htext key
  rw [jsonLine, Json.compact, String.toList_ofList]
  refine Json.newline_not_mem_record ?_
  simp only [List.forall_mem_cons]
  exact ⟨htext _, htext _, hkey, htext _, htext _, List.forall_mem_nil _⟩

theorem count_kind (k : Kind) : k.text.toList.count '\n' = 0 := by
  cases k <;> decide

end Finding

namespace Report

/-- The texts of a finding that a line shows as they are. -/
def Format.shown : Format → Finding → List String
  | .terse, f => f.link :: (f.key.toList ++ [f.message])
  | .verbose, f => f.link :: (f.key.toList ++ [f.message]) ++ [f.context]
  | .jsonLines, _ => []

/-- The newlines in the texts that a line shows as they are. -/
def Format.breaks (format : Format) (f : Finding) : Nat :=
  ((format.shown f).map fun s => s.toList.count '\n').sum

theorem count_terseLine (f : Finding) :
    f.terseLine.toList.count '\n' = Format.terse.breaks f := by
  obtain ⟨kind, link, key, context, message⟩ := f
  have hkind := Finding.count_kind kind
  cases key <;> simp [Finding.terseLine, Format.breaks, Format.shown, hkind]

theorem Format.count_line (format : Format) (f : Finding) :
    (format.line f).toList.count '\n' = format.breaks f := by
  cases format with
  | terse => exact count_terseLine f
  | verbose =>
    have hterse := count_terseLine f
    have hsplit : Format.verbose.breaks f =
        Format.terse.breaks f + f.context.toList.count '\n' := by
      simp [Format.breaks, Format.shown, Nat.add_assoc]
    simp [Format.line, Finding.verboseLine, hterse, hsplit]
  | jsonLines => exact List.count_eq_zero.2 f.newline_not_mem_jsonLine

theorem Format.breaks_eq_zero {format : Format} {f : Finding} :
    format.breaks f = 0 ↔ ∀ s ∈ format.shown f, '\n' ∉ s.toList := by
  rw [breaks, List.sum_eq_zero_iff_forall_eq_nat, List.forall_mem_map]
  simp only [List.count_eq_zero]

theorem toList_render (format : Format) (found : List Finding) :
    (render format found).toList =
      (found.map fun f => (format.line f).toList).flatMap (· ++ ['\n']) := by
  rw [render_eq, Format.texts, String.toList_join, List.flatMap_assoc, List.flatMap_map]
  simp

/-! Lines -/

theorem count_lines (lines : List (List Char)) :
    (lines.flatMap (· ++ ['\n'])).count '\n' =
      lines.length + (lines.map (List.count '\n')).sum := by
  induction lines with
  | nil => rfl
  | cons line lines ih =>
    rw [List.flatMap_cons, List.count_append, List.count_append, ih, List.map_cons, List.sum_cons,
      List.length_cons, List.count_singleton_self]
    omega

theorem splitOn_lines {lines : List (List Char)} (h : ∀ line ∈ lines, '\n' ∉ line) :
    (lines.flatMap (· ++ ['\n'])).splitOn '\n' = lines ++ [[]] := by
  have hends : lines.flatMap (· ++ ['\n']) = ['\n'].intercalate (lines ++ [[]]) := by
    clear h
    induction lines with
    | nil => rfl
    | cons line lines ih =>
      obtain ⟨next, rest, hrest⟩ := List.exists_cons_of_ne_nil (List.append_ne_nil_of_right_ne_nil
        lines (List.cons_ne_nil ([] : List Char) []))
      rw [List.flatMap_cons, ih, List.cons_append, hrest, List.intercalate_cons_cons]
  rw [hends]
  refine List.splitOn_intercalate '\n' (fun line hline => ?_) (by simp)
  rcases List.mem_append.1 hline with hline | hline
  · exact h line hline
  · rw [List.mem_singleton.1 hline]
    exact List.not_mem_nil

/-- No text that the format shows as it is has a newline. -/
def Unbroken (format : Format) (found : List Finding) : Prop :=
  ∀ f ∈ found, ∀ s ∈ format.shown f, '\n' ∉ s.toList

theorem unbroken_jsonLines (found : List Finding) : Unbroken .jsonLines found := fun _ _ => nofun

theorem sum_breaks_eq_zero {format : Format} {found : List Finding} :
    (found.map format.breaks).sum = 0 ↔ Unbroken format found := by
  rw [List.sum_eq_zero_iff_forall_eq_nat, List.forall_mem_map]
  exact forall₂_congr fun _ _ => Format.breaks_eq_zero

theorem splitOn_render {format : Format} {found : List Finding} (h : Unbroken format found) :
    (render format found).toList.splitOn '\n' =
      (found.map fun f => (format.line f).toList) ++ [[]] := by
  rw [toList_render]
  refine splitOn_lines fun line hline => ?_
  obtain ⟨f, hf, rfl⟩ := List.mem_map.1 hline
  rw [← List.count_eq_zero, format.count_line, Format.breaks_eq_zero]
  exact h f hf

/-- Each finding ends a line of the report, and besides only newlines in texts that are shown as
they are break lines. There is one line for each finding, and then it is the line of that finding,
exactly if no such text has a newline. -/
theorem lines_of_render (format : Format) (found : List Finding) :
    (found ≠ [] → (render format found).toList.getLast? = some '\n') ∧
      (render format found).toList.count '\n' =
        (ofFindings format found).reported + (found.map format.breaks).sum ∧
      ((render format found).toList.count '\n' = (ofFindings format found).reported ↔
        Unbroken format found) ∧
      (Unbroken format found → (render format found).toList.splitOn '\n' =
        (found.map fun f => (format.line f).toList) ++ [[]]) := by
  have hreported : (ofFindings format found).reported = found.length := by
    rw [ofFindings, reported_addAll]
    exact Nat.zero_add _
  have htotal : ((found.map fun f => (format.line f).toList).map (List.count '\n')).sum =
      (found.map format.breaks).sum := by
    rw [List.map_map]
    exact congrArg List.sum (List.map_congr_left fun f _ => format.count_line f)
  have hcount : (render format found).toList.count '\n' =
      (ofFindings format found).reported + (found.map format.breaks).sum := by
    rw [toList_render, count_lines, List.length_map, htotal, hreported]
  refine ⟨fun hne => ?_, hcount, ?_, splitOn_render⟩
  · obtain ⟨before, last, rfl⟩ := (List.eq_nil_or_concat found).resolve_left hne
    rw [toList_render, List.concat_eq_append, List.map_append, List.flatMap_append,
      List.map_singleton, List.flatMap_singleton, ← List.append_assoc, List.getLast?_append]
    rfl
  · rw [hcount, Nat.add_eq_left, sum_breaks_eq_zero]

end Report

/-! A key that holds a newline, as a key of a document may. -/
namespace Broken

def finding : Finding where
  kind := .missingRequiredKey
  link := "Catalog"
  key := some "a\nb"
  context := "Trailer/Root"
  message := "required key is missing"

end Broken

theorem Report.two_lines_of_broken_key :
    (ofFindings .terse [Broken.finding]).reported = 1 ∧
      (render .terse [Broken.finding]).toList.count '\n' = 2 := by
  decide +kernel

end PdfConform
