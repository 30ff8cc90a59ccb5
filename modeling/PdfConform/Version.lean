import PdfConform.Number.Whole
import PdfConform.Text.Blank

/-! Versions of PDF. Any two bytes make a version, but texts name only those that are known. -/
namespace PdfConform

structure Version where
  first : UInt8
  second : UInt8
  deriving DecidableEq

namespace Version

def two : Version := ⟨2, 0⟩

def major (v : Version) : Nat := v.first.toNat

def minor (v : Version) : Nat := v.second.toNat

instance : LE Version :=
  ⟨fun v w => v.major < w.major ∨ v.major = w.major ∧ v.minor ≤ w.minor⟩

instance : LT Version :=
  ⟨fun v w => v.major < w.major ∨ v.major = w.major ∧ v.minor < w.minor⟩

instance (v w : Version) : Decidable (v ≤ w) :=
  inferInstanceAs (Decidable (v.major < w.major ∨ v.major = w.major ∧ v.minor ≤ w.minor))

instance (v w : Version) : Decidable (v < w) :=
  inferInstanceAs (Decidable (v.major < w.major ∨ v.major = w.major ∧ v.minor < w.minor))

theorem not_le {v w : Version} : ¬v ≤ w ↔ w < v := by
  change ¬(v.major < w.major ∨ v.major = w.major ∧ v.minor ≤ w.minor) ↔
    (w.major < v.major ∨ w.major = v.major ∧ w.minor < v.minor)
  omega

/-- In use from the version of introduction on and before the version of deprecation. -/
def isWithin (v : Version) (since deprecated : Option Version) : Bool :=
  since.all (· ≤ v) && deprecated.all (v < ·)

def text (v : Version) : String :=
  Number.showNat v.major ++ "." ++ Number.showNat v.minor

/-- Why a text is no version; both hold the text without blanks around it. -/
inductive Fault
  | malformed (text : String)
  | unknown (text : String)
  deriving DecidableEq

def Fault.message : Fault → String
  | .malformed text => "invalid PDF version '" ++ text ++ "'"
  | .unknown text => "unknown PDF version '" ++ text ++ "'"

/-- 1.0 to 1.7, and 2.0. -/
def isKnown (v : Version) : Bool := (v.major = 1 && v.minor ≤ 7) || v = two

/-- Two numbers below 256 around the first point; blanks around the whole are ignored. -/
def parse (s : String) : Except Fault Version :=
  let cs := Text.trim s.toList
  let text := String.ofList cs
  match cs.span (· != '.') with
  | (major, _ :: minor) =>
    match Number.readBelow 256 major, Number.readBelow 256 minor with
    | some m, some n =>
      let v : Version := ⟨.ofNat m, .ofNat n⟩
      if v.isKnown then .ok v else .error (.unknown text)
    | _, _ => .error (.malformed text)
  | (_, []) => .error (.malformed text)

theorem isKnown_of_parse {s : String} {v : Version} (h : parse s = .ok v) : v.isKnown = true := by
  unfold parse at h
  dsimp only at h
  split at h
  · split at h
    · split at h
      · next hknown =>
        cases h
        exact hknown
      · cases h
    · cases h
  · cases h

/-- A column that may be left blank. -/
def parseOptional (s : String) : Except Fault (Option Version) :=
  if (Text.trim s.toList).isEmpty then .ok none else (parse s).map some

end Version

end PdfConform
