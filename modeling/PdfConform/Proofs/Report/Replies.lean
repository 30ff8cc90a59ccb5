import PdfConform.Proofs.Text.Utf8
import PdfConform.Report

/-! What a writer is asked while findings are reported: the texts of the report one after the other,
until it refuses one. That error is kept, whatever is reported later. -/
namespace PdfConform.Report

/-- What is to be written for findings, each text a write of its own. -/
def Format.texts (format : Format) (found : List Finding) : List String :=
  found.flatMap fun f => [format.line f, "\n"]

def Reply.error? : Reply → Option String
  | .taken => none
  | .refused error _ => some error

def firstError (writes : List (String × Reply)) : Option String := writes.findSome? (·.2.error?)

/-- Texts put to a writer in turn, with its replies, up to the first that it refuses. -/
def Writer.replies (writer : Writer) (asked : List String) : List String → List (String × Reply)
  | [] => []
  | text :: rest => (text, writer asked text) ::
      if writer asked text = .taken then replies writer (asked ++ [text]) rest else []

namespace Writer

variable (writer : Writer)

theorem replies_of_taken {asked : List String} {text : String} (h : writer asked text = .taken)
    (rest : List String) :
    writer.replies asked (text :: rest) =
      (text, .taken) :: writer.replies (asked ++ [text]) rest := by
  rw [replies, if_pos h, h]

theorem replies_of_refused {asked : List String} {text error : String} {bytes : Nat}
    (h : writer asked text = .refused error bytes) (rest : List String) :
    writer.replies asked (text :: rest) = [(text, .refused error bytes)] := by
  rw [replies, h, if_neg (by simp)]

theorem replies_always (asked texts : List String) :
    replies always asked texts = texts.map (·, .taken) := by
  induction texts generalizing asked with
  | nil => rfl
  | cons text rest ih => rw [replies_of_taken always rfl, ih, List.map_cons]

/-- Either all is taken, or a refusal ends it. -/
theorem replies_cases (asked texts : List String) :
    writer.replies asked texts = texts.map (·, .taken) ∨
      ∃ before text after error bytes, texts = before ++ text :: after ∧
        writer.replies asked texts = before.map (·, .taken) ++ [(text, .refused error bytes)] := by
  induction texts generalizing asked with
  | nil => exact .inl rfl
  | cons text rest ih =>
    cases hreply : writer asked text with
    | taken =>
      rw [writer.replies_of_taken hreply]
      refine (ih (asked ++ [text])).imp (fun h => by rw [h, List.map_cons]) ?_
      rintro ⟨before, last, after, error, bytes, rfl, h⟩
      exact ⟨text :: before, last, after, error, bytes, rfl, by rw [h]; rfl⟩
    | refused error bytes =>
      exact .inr ⟨[], text, rest, error, bytes, rfl, writer.replies_of_refused hreply rest⟩

/-- Each reply is the writer's own. -/
theorem reply_eq {asked texts before : List String} {text : String} {reply : Reply}
    {earlier later : List (String × Reply)} (hbefore : before = earlier.map (·.1))
    (h : writer.replies asked texts = earlier ++ (text, reply) :: later) :
    reply = writer (asked ++ before) text := by
  subst hbefore
  induction texts generalizing asked earlier with
  | nil => simp [replies] at h
  | cons first rest ih =>
    cases earlier with
    | nil =>
      obtain ⟨hfirst, _⟩ := List.cons.inj h
      obtain ⟨rfl, rfl⟩ := Prod.mk.inj hfirst
      rw [List.map_nil, List.append_nil]
    | cons write earlier =>
      obtain ⟨rfl, hrest⟩ := List.cons.inj h
      split at hrest
      · rw [ih hrest, List.map_cons, List.append_assoc]
        rfl
      · simp at hrest

/-- Nothing is asked after a refusal, so that its error is the first. -/
theorem refused_last {asked texts : List String} {text error : String} {bytes : Nat}
    {earlier later : List (String × Reply)}
    (h : writer.replies asked texts = earlier ++ (text, .refused error bytes) :: later) :
    later = [] ∧ firstError (writer.replies asked texts) = some error := by
  induction texts generalizing asked earlier with
  | nil => simp [replies] at h
  | cons first rest ih =>
    cases hreply : writer asked first with
    | taken =>
      rw [writer.replies_of_taken hreply] at h ⊢
      cases earlier with
      | nil => simp at h
      | cons write earlier => exact ih (List.cons.inj h).2
    | refused error' bytes' =>
      rw [writer.replies_of_refused hreply] at h ⊢
      cases earlier with
      | nil =>
        obtain ⟨hfirst, hlater⟩ := List.cons.inj h
        cases hfirst
        exact ⟨hlater.symm, rfl⟩
      | cons write earlier => simp at h

end Writer

/-! The report and what its writer was asked -/

def writeAll (r : Report) (writer : Writer) (texts : List String) : Report :=
  texts.foldl (fun r text => r.write writer text) r

variable (writer : Writer)

theorem write_of_error {r : Report} (h : r.error.isSome) (text : String) :
    r.write writer text = r :=
  if_pos h

theorem write_of_taken {r : Report} (h : r.error = none) {text : String}
    (hreply : writer r.asked text = .taken) :
    r.write writer text = { r with writes := r.writes ++ [(text, .taken)] } := by
  rw [write, if_neg (by simp [h]), hreply]

theorem write_of_refused {r : Report} (h : r.error = none) {text error : String} {bytes : Nat}
    (hreply : writer r.asked text = .refused error bytes) :
    r.write writer text = { r with
      writes := r.writes ++ [(text, .refused error bytes)]
      error := some error } := by
  rw [write, if_neg (by simp [h]), hreply]

theorem writeAll_of_error {r : Report} (h : r.error.isSome) (texts : List String) :
    r.writeAll writer texts = r := by
  induction texts with
  | nil => rfl
  | cons text rest ih =>
    rw [writeAll, List.foldl_cons, write_of_error writer h]
    exact ih

theorem writeAll_eq {r : Report} (h : r.error = none) (texts : List String) :
    r.writeAll writer texts = { r with
      writes := r.writes ++ writer.replies r.asked texts
      error := firstError (writer.replies r.asked texts) } := by
  induction texts generalizing r with
  | nil =>
    rw [Writer.replies, List.append_nil]
    change r = { r with error := none }
    rw [← h]
  | cons text rest ih =>
    rw [writeAll, List.foldl_cons, ← writeAll]
    cases hreply : writer r.asked text with
    | taken =>
      have hwrite := write_of_taken writer h hreply
      have hasked : (r.write writer text).asked = r.asked ++ [text] := by
        rw [hwrite, asked, List.map_append]
        rfl
      rw [ih (by rw [hwrite]; exact h), hasked, writer.replies_of_taken hreply, hwrite,
        List.append_assoc]
      rfl
    | refused error bytes =>
      have hwrite := write_of_refused writer h hreply
      have herror : (r.write writer text).error.isSome := by
        rw [hwrite]
        rfl
      rw [writeAll_of_error writer herror, writer.replies_of_refused hreply, hwrite]
      rfl

theorem write_reported (r : Report) (text : String) (n : Nat) :
    write { r with reported := n } writer text = { r.write writer text with reported := n } := by
  have hasked : asked { r with reported := n } = r.asked := rfl
  unfold write
  rw [hasked]
  by_cases h : r.error.isSome
  · rw [if_pos h, if_pos h]
  · rw [if_neg h, if_neg h]
    cases writer r.asked text <;> rfl

theorem writeAll_reported (r : Report) (texts : List String) (n : Nat) :
    writeAll { r with reported := n } writer texts =
      { r.writeAll writer texts with reported := n } := by
  induction texts generalizing r with
  | nil => rfl
  | cons text rest ih =>
    rw [writeAll, writeAll, List.foldl_cons, List.foldl_cons, write_reported]
    exact ih (r.write writer text)

theorem add_eq (r : Report) (f : Finding) :
    r.add writer f =
      { r.writeAll writer [r.format.line f, "\n"] with reported := r.reported + 1 } :=
  writeAll_reported writer r [r.format.line f, "\n"] (r.reported + 1)

theorem format_writeAll (r : Report) (texts : List String) :
    (r.writeAll writer texts).format = r.format := by
  cases h : r.error with
  | none => rw [writeAll_eq writer h]
  | some error => rw [writeAll_of_error writer (by rw [h]; rfl)]

theorem addAll_eq (r : Report) (found : List Finding) :
    r.addAll writer found =
      { r.writeAll writer (r.format.texts found) with reported := r.reported + found.length } := by
  induction found generalizing r with
  | nil => rfl
  | cons f found ih =>
    have hrest := ih (r.add writer f)
    have hformat : (r.add writer f).format = r.format := by
      rw [add_eq, format_writeAll]
    rw [addAll] at hrest
    rw [addAll, List.foldl_cons, hrest, hformat, add_eq, writeAll_reported]
    simp only [Format.texts, List.flatMap_cons, writeAll, List.foldl_append, List.length_cons]
    rw [Nat.add_right_comm, Nat.add_assoc]

/-- A report is what its writer replies to the texts of its lines. -/
theorem addAll_new (format : Format) (found : List Finding) :
    let writes := writer.replies [] (format.texts found)
    (new format).addAll writer found = ⟨format, writes, found.length, firstError writes⟩ := by
  intro writes
  rw [addAll_eq, writeAll_eq writer rfl]
  simp only [new, List.nil_append, Nat.zero_add]
  rfl

theorem firstError_taken (texts : List String) : firstError (texts.map (·, .taken)) = none := by
  rw [firstError, List.findSome?_eq_none_iff]
  intro write hwrite
  obtain ⟨text, _, rfl⟩ := List.mem_map.1 hwrite
  rfl

theorem text_of_taken {r : Report} {texts : List String} (h : r.writes = texts.map (·, .taken)) :
    r.text = String.join texts := by
  rw [text, written, h, List.filterMap_map]
  exact congrArg String.join List.filterMap_some

theorem render_eq (format : Format) (found : List Finding) :
    render format found = String.join (format.texts found) := by
  rw [render, ofFindings, addAll_new]
  exact text_of_taken (Writer.replies_always [] _)

end PdfConform.Report
