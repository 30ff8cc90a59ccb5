import Mathlib.Data.List.Forall2
import PdfConform.Schema.Table

/-! The two ways to end a line. Carriage returns at the end of a line never count, however many
there are, so a file reads the same with either. -/
namespace PdfConform.Table

/-- Every line ended by a carriage return and a newline. -/
def withCarriageReturns (text : String) : String :=
  String.ofList (text.toList.flatMap fun c => if c = '\n' then ['\r', '\n'] else [c])

/-- A carriage return that already stands before a newline stays. -/
example : withCarriageReturns "a\n\r\nb" = "a\r\n\r\r\nb" := by decide

/-- A line, and the line with or without one more carriage return at its end. -/
def Ended (line : List Char) (other : List Char) : Prop := other = line ∨ other = line ++ ['\r']

theorem Ended.cons {line other : List Char} (h : Ended line other) (c : Char) :
    Ended (c :: line) (c :: other) :=
  h.imp (congrArg (c :: ·)) (congrArg (c :: ·))

theorem Ended.dropCarriageReturns_eq {line other : List Char} (h : Ended line other) :
    dropCarriageReturns line = dropCarriageReturns other := by
  rcases h with rfl | rfl
  · rfl
  · rw [dropCarriageReturns, dropCarriageReturns, List.reverse_append]
    rfl

theorem forall₂_modifyHead {α : Type} {R : α → α → Prop} {f : α → α}
    (hf : ∀ {a b}, R a b → R (f a) (f b)) {as bs : List α} (h : List.Forall₂ R as bs) :
    List.Forall₂ R (as.modifyHead f) (bs.modifyHead f) := by
  cases h with
  | nil => exact .nil
  | cons hhead htail => exact .cons (hf hhead) htail

/-- Newlines stay where they are, and so do the lines between them and their numbers. -/
theorem ended_splitOn (cs : List Char) :
    List.Forall₂ Ended (cs.splitOn '\n')
      ((cs.flatMap fun c => if c = '\n' then ['\r', '\n'] else [c]).splitOn '\n') := by
  unfold List.splitOn
  induction cs with
  | nil => exact .cons (.inl rfl) .nil
  | cons c cs ih =>
    rw [List.flatMap_cons]
    by_cases hc : c = '\n'
    · subst hc
      exact .cons (.inr rfl) (by simpa using ih)
    · have hmark : ¬(c == '\n') := by simpa using hc
      rw [if_neg hc, List.singleton_append, List.splitOnP_cons_eq_if_modifyHead,
        List.splitOnP_cons_eq_if_modifyHead, if_neg hmark, if_neg hmark]
      exact forall₂_modifyHead (fun h => h.cons c) ih

/-- The lines that are read depend on what is left of each line without carriage returns. -/
theorem lines_congr {text other : String}
    (h : (text.toList.splitOn '\n').map dropCarriageReturns =
      (other.toList.splitOn '\n').map dropCarriageReturns) (delimiter : Char) :
    lines delimiter text = lines delimiter other := by
  have hread (text : String) : lines delimiter text =
      (((text.toList.splitOn '\n').map dropCarriageReturns).zipIdx 1).filterMap fun line =>
        if line.1.all Text.isBlank then none
        else some (line.2, (line.1.splitOn delimiter).map String.ofList) := by
    rw [List.zipIdx_map, List.filterMap_map]
    rfl
  rw [hread text, hread other, h]

/-- A grammar file reads the same with carriage returns before all of its newlines: the same fault
of its header, or the same header, rows and defects on the same lines. -/
theorem parse_withCarriageReturns (delimiter : Char) (link source text : String) :
    parse delimiter link source (withCarriageReturns text) = parse delimiter link source text := by
  have hpieces : (text.toList.splitOn '\n').map dropCarriageReturns =
      ((withCarriageReturns text).toList.splitOn '\n').map dropCarriageReturns := by
    rw [withCarriageReturns, String.toList_ofList, ← List.forall₂_eq_eq_eq,
      List.forall₂_map_left_iff, List.forall₂_map_right_iff]
    exact (ended_splitOn text.toList).imp fun _ _ h => h.dropCarriageReturns_eq
  rw [parse, parse, lines_congr hpieces]

end PdfConform.Table
