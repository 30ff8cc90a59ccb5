import PdfConform.Proofs.Report.Replies

/-! A writer that fails spoils nothing: what it accepted begins the report, nothing is asked of it
after its first refusal, and the error of that refusal is given in the end. -/
namespace PdfConform.Report

/-- The bytes of a text that a writer accepted. -/
def Reply.accepted (text : String) : Reply → List UInt8
  | .taken => text.toUTF8.toList
  | .refused _ bytes => text.toUTF8.toList.take bytes

def accepted (r : Report) : List UInt8 := r.writes.flatMap fun (text, reply) => reply.accepted text

theorem toList_toUTF8_join (texts : List String) :
    (String.join texts).toUTF8.toList = texts.flatMap (·.toUTF8.toList) := by
  induction texts with
  | nil => exact Text.toList_toUTF8 ""
  | cons text rest ih =>
    rw [String.join_cons, Text.toList_toUTF8_append, ih, List.flatMap_cons]

theorem flatMap_accepted_taken (texts : List String) :
    (texts.map (·, Reply.taken)).flatMap (fun (text, reply) => reply.accepted text) =
      (String.join texts).toUTF8.toList := by
  rw [toList_toUTF8_join, List.flatMap_map]
  rfl

theorem map_fst_taken (texts : List String) :
    (texts.map (·, Reply.taken)).map (·.1) = texts := by
  rw [List.map_map]
  exact List.map_id texts

namespace Writer

variable (writer : Writer)

theorem map_fst_replies_prefix (asked texts : List String) :
    (writer.replies asked texts).map (·.1) <+: texts := by
  rcases writer.replies_cases asked texts with
    htaken | ⟨before, text, after, error, bytes, rfl, hrefused⟩
  · exact ⟨[], by rw [List.append_nil, htaken, map_fst_taken]⟩
  · rw [hrefused, List.map_append, map_fst_taken]
    exact (List.prefix_append_right_inj before).2 ⟨after, rfl⟩

/-- Of the refused text, too, only the first bytes were accepted. -/
theorem accepted_replies_prefix (asked texts : List String) :
    (writer.replies asked texts).flatMap (fun (text, reply) => reply.accepted text) <+:
      (String.join texts).toUTF8.toList := by
  rcases writer.replies_cases asked texts with
    htaken | ⟨before, text, after, error, bytes, rfl, hrefused⟩
  · exact ⟨[], by rw [List.append_nil, htaken, flatMap_accepted_taken]⟩
  · rw [hrefused, List.flatMap_append, flatMap_accepted_taken, List.flatMap_singleton,
      String.join_append, String.join_cons, Text.toList_toUTF8_append, Text.toList_toUTF8_append]
    refine (List.prefix_append_right_inj _).2 ?_
    exact (List.take_prefix bytes _).trans (List.prefix_append _ _)

theorem replies_of_all_taken {asked texts : List String}
    (h : ∀ write ∈ writer.replies asked texts, write.2 = .taken) :
    writer.replies asked texts = texts.map (·, .taken) := by
  refine (writer.replies_cases asked texts).resolve_right ?_
  rintro ⟨before, text, after, error, bytes, _, hrefused⟩
  have hlast := h (text, .refused error bytes) (by rw [hrefused]; simp)
  cases hlast

end Writer

/-- A report that was given findings, over a writer that may refuse what it is asked to write. -/
structure Sound (format : Format) (writer : Writer) (found : List Finding) (r : Report) :
    Prop where
  reported : r.reported = found.length
  asked : r.asked <+: format.texts found
  replied {earlier later : List (String × Reply)} {text : String} {reply : Reply} :
    r.writes = earlier ++ (text, reply) :: later → reply = writer (earlier.map (·.1)) text
  accepted : r.accepted <+: (String.join (format.texts found)).toUTF8.toList
  refused {earlier later : List (String × Reply)} {text error : String} {bytes : Nat} :
    r.writes = earlier ++ (text, .refused error bytes) :: later →
      later = [] ∧ ∀ flush, r.finish flush = .error error
  complete : (∀ write ∈ r.writes, write.2 = .taken) →
    r.accepted = (String.join (format.texts found)).toUTF8.toList ∧
      ∀ flush, r.finish flush = flush.elim (.ok (String.join (format.texts found))) .error

/-- Whatever the writer refuses, each finding is counted, the writer is asked for the texts of the
report in their order up to the first that it refuses, and the bytes that it accepted begin the
report. The error of the first refusal is given in the end; without one the report is complete. -/
theorem sound_of_addAll (format : Format) (writer : Writer) (found : List Finding) :
    ((new format).addAll writer found).Sound format writer found := by
  rw [addAll_new]
  constructor
  case reported => rfl
  case asked => exact writer.map_fst_replies_prefix [] _
  case replied =>
    intro earlier later text reply h
    exact writer.reply_eq rfl h
  case accepted => exact writer.accepted_replies_prefix [] _
  case refused =>
    intro earlier later text error bytes h
    obtain ⟨hlater, herror⟩ := writer.refused_last h
    refine ⟨hlater, fun flush => ?_⟩
    rw [finish, herror]
    rfl
  case complete =>
    intro h
    have htaken := writer.replies_of_all_taken h
    refine ⟨?_, fun flush => ?_⟩
    · rw [accepted, htaken, flatMap_accepted_taken]
    · rw [finish, text_of_taken htaken, htaken, firstError_taken]
      cases flush <;> rfl

/-! A disk that is full between a line and its newline. -/
namespace Full

def writer : Writer := fun asked _ => if asked.length < 3 then .taken else .refused "disk full" 0

def finding (key : String) : Finding :=
  ⟨.missingRequiredKey, "Catalog", some key, "Trailer/Root", "required key is missing"⟩

end Full

theorem sound_of_addAll_full :
    let found := ["Pages", "Type", "Kids"].map Full.finding
    let r := (new .terse).addAll Full.writer found
    r.reported = 3 ∧ r.asked.length = 4 ∧
      r.text = "MissingRequiredKey: Catalog::Pages: required key is missing\n" ++
        "MissingRequiredKey: Catalog::Type: required key is missing" ∧
      r.finish none = .error "disk full" ∧ r.Sound .terse Full.writer found := by
  intro found r
  have hasked : r.asked.length = 4 := by decide +kernel
  have htext : r.text = "MissingRequiredKey: Catalog::Pages: required key is missing\n" ++
      "MissingRequiredKey: Catalog::Type: required key is missing" := by decide +kernel
  have hlast : r.writes = r.writes.take 3 ++ [("\n", .refused "disk full" 0)] := by decide +kernel
  have hsound := sound_of_addAll .terse Full.writer found
  exact ⟨hsound.reported, hasked, htext, (hsound.refused hlast).2 none, hsound⟩

end PdfConform.Report
