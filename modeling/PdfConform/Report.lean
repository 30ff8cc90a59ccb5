import PdfConform.Buffer
import PdfConform.Finding

/-! A report holds one line for each finding. Its writer may refuse: from the first
refusal on nothing more is asked of it, while findings are still counted. -/
namespace PdfConform

inductive Report.Format
  | terse
  | verbose
  | jsonLines
  deriving DecidableEq

def Report.Format.line : Report.Format → Finding → String
  | .terse, f => f.terseLine
  | .verbose, f => f.verboseLine
  | .jsonLines, f => f.jsonLine

/-- A write is taken whole, or refused with an error once so many of its bytes were taken. -/
inductive Report.Reply
  | taken
  | refused (error : String) (bytes : Nat)
  deriving DecidableEq

structure Report where
  format : Report.Format
  /-- What was asked of the writer, in order, and what it replied. -/
  writes : List (String × Report.Reply)
  reported : Nat
  /-- The error of the first refusal. -/
  error : Option String

namespace Report

/-- What a writer replies to a text, after all that was asked of it before. -/
abbrev Writer := List String → String → Reply

def always : Writer := fun _ _ => .taken

/-- A writer that is full once it was given so many newlines. -/
def lineLimit (limit : Nat) : Writer := fun asked _ =>
  if (asked.map fun s => s.toList.count '\n').sum < limit then .taken
  else .refused "writer is full" 0

def new (format : Format) : Report := ⟨format, [], 0, none⟩

def asked (r : Report) : List String := r.writes.map (·.1)

def write (r : Report) (writer : Writer) (text : String) : Report :=
  if r.error.isSome then r
  else match writer r.asked text with
    | .taken => { r with writes := r.writes ++ [(text, .taken)] }
    | .refused error bytes =>
      { r with writes := r.writes ++ [(text, .refused error bytes)], error := some error }

/-- A line and its end are two writes. -/
def add (writer : Writer) (r : Report) (f : Finding) : Report :=
  let r := { r with reported := r.reported + 1 }
  (r.write writer (r.format.line f)).write writer "\n"

def addAll (r : Report) (writer : Writer) (found : List Finding) : Report :=
  found.foldl (add writer) r

theorem reported_write (r : Report) (w : Writer) (s : String) :
    (r.write w s).reported = r.reported := by
  unfold write
  split
  · rfl
  · split <;> rfl

theorem reported_addAll (r : Report) (w : Writer) (found : List Finding) :
    (r.addAll w found).reported = r.reported + found.length := by
  induction found generalizing r with
  | nil => rfl
  | cons f found ih =>
    rw [addAll, List.foldl_cons]
    have h := ih (r.add w f)
    rw [addAll] at h
    rw [h, add, reported_write, reported_write, List.length_cons]
    exact Nat.add_right_comm ..

/-- The texts that were taken whole. -/
def written (r : Report) : List String :=
  r.writes.filterMap fun (text, reply) => if reply = .taken then some text else none

def text (r : Report) : String := String.join r.written

/-- The part that a file holds before the report is finished. -/
def sent (r : Report) : String := (r.written.foldl Buffer.write .empty).sent

/-- The whole report, unless something failed. Of several errors the first is given; the last thing
that can fail is to flush the writer. -/
def finish (r : Report) (flush : Option String) : Except String String :=
  match r.error.or flush with
  | some error => .error error
  | none => .ok r.text

def finish? (r : Report) : Option String := (r.finish none).toOption

def ofFindings (format : Format) (found : List Finding) : Report :=
  (new format).addAll always found

def render (format : Format) (found : List Finding) : String := (ofFindings format found).text

end Report

end PdfConform
