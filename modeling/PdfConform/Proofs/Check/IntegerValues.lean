import PdfConform.Proofs.Check.Conformance
import PdfConform.Proofs.Number.Integers

/-! Integers of a document beside integers of a grammar. They compare as doubles, so an integer is
told apart from all others exactly if no other has the same nearest double. -/
namespace PdfConform

namespace Literal

/-- Two integers agree if one double is nearest to both. -/
theorem agrees_integer_iff (a b : Int64) :
    (integer b).agrees (integer a) = true ↔ b.toInt.sign = a.toInt.sign ∧
      Binary64.nearest b.toInt.natAbs = Binary64.nearest a.toInt.natAbs := by
  have hbound (i : Int64) : i.toInt.natAbs ≤ 2 ^ 63 := by
    have hlow := i.le_toInt
    have hhigh := i.toInt_lt
    omega
  exact Binary64.same_ofInt_iff (hbound b) (hbound a)

theorem agrees_integer_self (b : Int64) : (integer b).agrees (integer b) = true :=
  (agrees_integer_iff b b).2 ⟨rfl, rfl⟩

theorem eq_of_agrees_integer {a b : Int64} (halone : Binary64.StandsAlone b.toInt.natAbs)
    (h : (integer b).agrees (integer a) = true) : a = b := by
  obtain ⟨hsign, hnearest⟩ := (agrees_integer_iff a b).1 h
  have habs : a.toInt.natAbs = b.toInt.natAbs := halone.eq_of_nearest_eq hnearest.symm
  rw [← Int64.toInt_inj, ← Int.sign_mul_natAbs a.toInt, ← Int.sign_mul_natAbs b.toInt, hsign, habs]

/-- An integer that does not stand alone agrees with another one of 64 bits. -/
theorem exists_agrees_integer {b : Int64} (halone : ¬Binary64.StandsAlone b.toInt.natAbs) :
    ∃ a : Int64, a ≠ b ∧ (integer b).agrees (integer a) = true := by
  have hlarge : b.toInt ≠ 0 := by
    intro hzero
    rw [hzero] at halone
    exact halone (by decide)
  have hlow := b.le_toInt
  have hhigh := b.toInt_lt
  obtain ⟨k, hk, hne, hnearest⟩ := Binary64.exists_nearest_eq halone (by omega)
  have hkpos : k ≠ 0 := by
    rintro rfl
    exact (Binary64.nearest_pos (Int.natAbs_ne_zero.2 hlarge)).ne hnearest
  obtain ⟨i, hi, hsign, habs⟩ : ∃ i : Int, (-2 ^ 63 ≤ i ∧ i < 2 ^ 63) ∧ i.sign = b.toInt.sign ∧
      i.natAbs = k := by
    rcases lt_or_gt_of_ne hlarge with hneg | hpos
    · refine ⟨-k, by omega, ?_, by omega⟩
      rw [Int.sign_eq_neg_one_of_neg hneg, Int.sign_eq_neg_one_of_neg (by omega)]
    · refine ⟨k, by omega, ?_, by omega⟩
      rw [Int.sign_eq_one_of_pos hpos, Int.sign_eq_one_of_pos (by omega)]
  have htoInt : (Int64.ofInt i).toInt = i := Int64.toInt_ofInt_of_le hi.1 hi.2
  refine ⟨Int64.ofInt i, ?_, (agrees_integer_iff _ b).2 ?_⟩
  · rintro rfl
    rw [htoInt] at hne
    exact hne habs.symm
  · rw [htoInt, hsign, habs]
    exact ⟨rfl, hnearest.symm⟩

end Literal

/-- Wherever an integer is compared with this one, it passes for no other. -/
structure Literal.Exact (b : Int64) : Prop where
  literal (a : Int64) : (integer b).agrees (integer a) = true ↔ a = b
  listed (c : Context) (a : Int64) :
    PossibleValues.allows ⟨[.literal (integer b)]⟩ c (integer a) = true ↔ a = b
  required {s : Scope} {row : Row} {label : String} {value : Option Object}
    {reference : Option ObjectId} {index : Nat} (a : Int64) :
    row.requiredValue = some (integer b) →
    value.bind s.store.present = some (.integer a, reference) →
    TypeToken.select? s.store (.integer a) row.types = some index →
    (row.possibleFor? index).all (·.allows s.context (integer a)) = true →
    ((∀ f ∈ s.entryFindings row label value, f.kind ≠ .possibleValueViolation) ↔ a = b)

namespace Literal

theorem exact_iff (b : Int64) : Exact b ↔ Binary64.StandsAlone b.toInt.natAbs := by
  constructor
  · intro h
    by_contra halone
    obtain ⟨a, hne, hagrees⟩ := exists_agrees_integer halone
    exact hne ((h.literal a).1 hagrees)
  · intro halone
    have hliteral (a : Int64) : (integer b).agrees (integer a) = true ↔ a = b :=
      ⟨eq_of_agrees_integer halone, fun h => h ▸ agrees_integer_self b⟩
    refine ⟨hliteral, fun c a => ?_, fun a hrequired hpresent hindex hpossible => ?_⟩
    · rw [← hliteral a]
      simp [PossibleValues.allows, PossibleValues.isUnconstrained, ValueItem.allows]
    · rw [Scope.no_violation_iff hpresent hindex rfl, hrequired, ← hliteral a]
      exact and_iff_left hpossible

/-- An integer is told apart from all others if it has 53 bits, or 54 and is twice an odd number,
and from those with another sign or another nearest double in any case. -/
theorem integer_told_apart (b : Int64) :
    (Exact b ↔ b.toInt.natAbs < 2 ^ 53 ∨ b.toInt.natAbs < 2 ^ 54 ∧ b.toInt.natAbs % 4 = 2) ∧
      ∀ a, (integer b).agrees (integer a) = true ↔ b.toInt.sign = a.toInt.sign ∧
        Binary64.nearest b.toInt.natAbs = Binary64.nearest a.toInt.natAbs :=
  ⟨exact_iff b, fun a => agrees_integer_iff a b⟩

/-- The first integer of 54 bits passes for the second. -/
theorem neighbours_agree :
    (9007199254740993 : Int64) ≠ 9007199254740992 ∧
      (integer 9007199254740992).agrees (integer 9007199254740993) = true ∧
      PossibleValues.allows ⟨[.literal (integer 9007199254740992)]⟩ (.ofVersion .two)
        (integer 9007199254740993) = true := by
  decide +kernel

end Literal

end PdfConform
