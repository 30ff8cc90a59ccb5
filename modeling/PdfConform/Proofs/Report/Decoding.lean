import PdfConform.Proofs.Report.Lines

/-! A report in lines of JSON read back. Whatever the texts of its findings hold, no line breaks
inside of them, and each line stands for one finding alone. -/
namespace PdfConform

namespace Finding

theorem Kind.ofText?_text (k : Kind) : ofText? k.text = some k := by
  cases k <;> decide +kernel

theorem keyOfJson?_elim (key : Option String) :
    keyOfJson? (key.elim .null .text) = some key := by
  cases key <;> rfl

theorem wellFormed_toJson (f : Finding) : f.toJson.WellFormed := by
  have hkey : Json.WellFormed (f.key.elim .null .text) := by
    cases f.key with
    | none => exact .null
    | some key => exact .text key
  refine .record ?_
  simp only [List.forall_mem_cons]
  exact ⟨.text _, .text _, hkey, .text _, .text _, List.forall_mem_nil _⟩

theorem ofJson?_toJson (f : Finding) : ofJson? f.toJson = some f := by
  have hparts : ofParts? (.text f.kind.text) (.text f.link) (f.key.elim .null .text)
      (.text f.context) (.text f.message) = some f := by
    have hkind : Kind.ofJson? (.text f.kind.text) = some f.kind := Kind.ofText?_text f.kind
    rw [ofParts?, hkind, keyOfJson?_elim]
    rfl
  rw [← hparts]
  rfl

theorem parse_jsonLine (f : Finding) : parse f.jsonLine = some f := by
  rw [parse, jsonLine, Json.parse_compact f.wellFormed_toJson, Option.bind_some, ofJson?_toJson]

end Finding

namespace Report

/-- The lines of a text, of which each must be ended. -/
def lines? (text : String) : Option (List String) :=
  let pieces := text.toList.splitOn '\n'
  if pieces.getLast? = some [] then some (pieces.dropLast.map String.ofList) else none

/-- A report in lines of JSON, read one line after the other. -/
def decode (text : String) : Option (List Finding) := do
  (← lines? text).mapM Finding.parse

theorem lines?_render (found : List Finding) :
    lines? (render .jsonLines found) = some (found.map (·.jsonLine)) := by
  rw [lines?, splitOn_render (unbroken_jsonLines found)]
  simp [Function.comp_def, Format.line]

theorem mapM_parse_jsonLine (found : List Finding) :
    (found.map (·.jsonLine)).mapM Finding.parse = some found := by
  induction found with
  | nil => rfl
  | cons f found ih =>
    rw [List.map_cons, List.mapM_cons, f.parse_jsonLine, ih]
    rfl

/-- A report in lines of JSON that was written out reads as the findings that it was made of. -/
theorem decode_finish (found : List Finding) :
    ∃ text, (ofFindings .jsonLines found).finish none = .ok text ∧
      text.toList.splitOn '\n' = (found.map fun f => f.jsonLine.toList) ++ [[]] ∧
      (∀ f ∈ found, Finding.parse f.jsonLine = some f) ∧
      decode text = some found := by
  have herror : (ofFindings .jsonLines found).error = none := by
    rw [ofFindings, addAll_new, Writer.replies_always]
    exact firstError_taken _
  have hfinish : (ofFindings .jsonLines found).finish none = .ok (render .jsonLines found) := by
    rw [finish, herror]
    rfl
  refine ⟨_, hfinish, splitOn_render (unbroken_jsonLines found), fun f _ => f.parse_jsonLine, ?_⟩
  rw [decode, lines?_render]
  exact mapM_parse_jsonLine found

end Report

end PdfConform
