import Mathlib.Algebra.Order.Field.Power
import Mathlib.Data.List.DropRight
import PdfConform.Proofs.Number.Rounding

/-! The digits that are written for a double. Seventeen digits place a grid point in the interval
of every double, so the search always ends on a number that rounds to it. -/
namespace PdfConform.Number

open Binary64

/-! Lengths and values of digits -/

theorem lt_pow_length_digits (n : Nat) : n < 10 ^ (digits n).length := by
  fun_induction digits n with
  | case1 n h => simpa using h
  | case2 n _ ih =>
    rw [List.length_append, List.length_singleton, Nat.pow_succ]
    omega

theorem pow_length_digits_le {n : Nat} (h : n ≠ 0) : 10 ^ (digits n).length ≤ 10 * n := by
  fun_induction digits n with
  | case1 n _ => simp; omega
  | case2 n hn ih =>
    have := ih (by omega)
    rw [List.length_append, List.length_singleton, Nat.pow_succ]
    omega

theorem ofDigits_replicate (cs : List Char) (k : Nat) :
    ofDigits (cs ++ List.replicate k '0') = ofDigits cs * 10 ^ k := by
  induction k with
  | zero => simp
  | succ k ih =>
    rw [List.replicate_succ', ← List.append_assoc, ofDigits_append_singleton, ih, Nat.pow_succ]
    change 10 * _ + 0 = _
    ring

/-- A whole number times a power of ten, as the quotient that is computed. -/
theorem ratio_eq (n : Nat) (e : Int) :
    ((n * Nat.pow 10 e.toNat : Nat) : ℚ) / (Nat.pow 10 (-e).toNat : Nat) = n * 10 ^ e := by
  have hten : (10 : ℚ) ≠ 0 := by norm_num
  have hpow : (10 : ℚ) ^ e = 10 ^ e.toNat / 10 ^ (-e).toNat := by
    rw [← zpow_natCast, ← zpow_natCast, ← zpow_sub₀ hten]
    congr 1
    omega
  rw [hpow, Nat.cast_mul, Nat.pow_eq, Nat.pow_eq, Nat.cast_pow, Nat.cast_pow, Nat.cast_ofNat]
  ring

namespace Scaled

def toRat (s : Scaled) : ℚ := s.digits * 10 ^ s.exponent

end Scaled

namespace Shortest

/-- What the digits and the place of the point stand for. -/
def toRat (s : Shortest) : ℚ := ofDigits s.digits * 10 ^ (s.point - s.digits.length)

end Shortest

/-- Trailing zeros do not count. -/
theorem Scaled.toRat_shortest (s : Scaled) : s.shortest.toRat = s.toRat := by
  obtain ⟨k, hk⟩ : ∃ k, Number.digits s.digits = s.shortest.digits ++ List.replicate k '0' := by
    refine ⟨((Number.digits s.digits).rtakeWhile (· == '0')).length, ?_⟩
    have hzeros : (Number.digits s.digits).rtakeWhile (· == '0') = List.replicate _ '0' :=
      List.eq_replicate_of_mem fun c hc => by simpa using List.mem_rtakeWhile_imp hc
    rw [← hzeros]
    exact List.rdropWhile_append_rtakeWhile.symm
  have hlength := congrArg List.length hk
  have hvalue := congrArg ofDigits hk
  rw [List.length_append, List.length_replicate] at hlength
  rw [ofDigits_digits, ofDigits_replicate] at hvalue
  have hten : (10 : ℚ) ≠ 0 := by norm_num
  have hpoint : s.shortest.point = (Number.digits s.digits).length + s.exponent := rfl
  unfold Shortest.toRat toRat
  rw [hpoint, hlength, hvalue, Nat.cast_mul, Nat.cast_pow, Nat.cast_ofNat, mul_assoc,
    ← zpow_natCast, ← zpow_add₀ hten]
  congr 2
  push_cast
  ring

theorem Scaled.isDigit_of_mem_shortest (s : Scaled) {c : Char} (hc : c ∈ s.shortest.digits) :
    c.isDigit = true :=
  List.all_eq_true.1 (all_isDigit_digits s.digits) c
    ((List.rdropWhile_prefix (· == '0') (l := Number.digits s.digits)).subset hc)

/-! The search -/

namespace Interval

variable {i : Interval}

def toRat (i : Interval) : ℚ := i.value / i.unit

/-- The interval reaches as far beyond its value as half a unit in 54 bits. -/
structure Wide (i : Interval) : Prop where
  unit : 0 < i.unit
  value : 0 < i.value
  low : i.low * 2 ^ 54 ≤ i.value * (2 ^ 54 - 1)
  high : i.value * (2 ^ 54 + 1) ≤ i.high * 2 ^ 54

theorem Wide.toRat_pos (h : i.Wide) : 0 < i.toRat :=
  div_pos (Nat.cast_pos.2 h.value) (Nat.cast_pos.2 h.unit)

theorem Wide.contains (h : i.Wide) {r : ℚ} (hr : |r - i.toRat| * 2 ^ 54 < i.toRat) :
    i.Contains r := by
  have hunit : (0 : ℚ) < i.unit := Nat.cast_pos.2 h.unit
  have hvalue : i.toRat * i.unit = i.value := div_mul_cancel₀ _ hunit.ne'
  have hlow : (i.low : ℚ) * 2 ^ 54 ≤ i.value * (2 ^ 54 - 1) := by
    have := h.low
    have hcast : ((i.low * 2 ^ 54 : Nat) : ℚ) ≤ (i.value * (2 ^ 54 - 1) : Nat) :=
      Nat.cast_le.2 this
    push_cast at hcast
    norm_num at hcast ⊢
    linarith
  have hhigh : (i.value : ℚ) * (2 ^ 54 + 1) ≤ i.high * 2 ^ 54 := by
    have := h.high
    exact_mod_cast this
  have hbelow : (i.low : ℚ) < r * i.unit := by
    have := (abs_lt.1 (lt_div_iff₀ (by norm_num) |>.2 hr)).1
    have := mul_lt_mul_of_pos_right this hunit
    rw [sub_mul, hvalue, neg_mul, div_mul_eq_mul_div, hvalue] at this
    linarith
  have habove : r * i.unit < i.high := by
    have := (abs_lt.1 (lt_div_iff₀ (by norm_num) |>.2 hr)).2
    have := mul_lt_mul_of_pos_right this hunit
    rw [sub_mul, hvalue, div_mul_eq_mul_div, hvalue] at this
    linarith
  exact ⟨hbelow.le, habove.le, fun _ => ⟨hbelow, habove⟩⟩

theorem wide_of {x : Binary64} (hx : x.magnitude ≠ 0) : (of x).Wide := by
  have hsignificand := Nat.pos_of_ne_zero (significand_ne_zero hx)
  have hsmall := significand_lt x
  have hup : 0 < 1 <<< (x.exponent - 2).toNat := by
    rw [Nat.one_shiftLeft]
    exact Nat.two_pow_pos _
  have hlow : (4 * x.significand - if isNarrow x then 1 else 2) * 2 ^ 54 ≤
      4 * x.significand * (2 ^ 54 - 1) := by
    split
    · next hnarrow =>
      simp only [isNarrow, Nat.one_shiftLeft, Bool.and_eq_true, beq_iff_eq] at hnarrow
      omega
    · omega
  refine ⟨?_, ?_, ?_, ?_⟩
  · change 0 < 1 <<< _
    rw [Nat.one_shiftLeft]
    exact Nat.two_pow_pos _
  · exact Nat.mul_pos (by omega) hup
  · have := Nat.mul_le_mul_right (1 <<< (x.exponent - 2).toNat) hlow
    rw [Nat.mul_right_comm, Nat.mul_right_comm _ (2 ^ 54 - 1)] at this
    exact this
  · have hgrow (k w : Nat) (h : k ≤ 2 * w) : k * (w + 1) ≤ (k + 2) * w := by
      rw [Nat.mul_add_one, Nat.add_mul]
      omega
    have hhigh := hgrow (4 * x.significand) (2 ^ 54) (by omega)
    have := Nat.mul_le_mul_right (1 <<< (x.exponent - 2).toNat) hhigh
    rw [Nat.mul_right_comm, Nat.mul_right_comm _ (2 ^ 54)] at this
    exact this

/-- The point is not placed too far to the right. -/
theorem Wide.pow_point_le (h : i.Wide) : (10 : ℚ) ^ (i.point - 1) ≤ i.toRat := by
  have hunit : (0 : ℚ) < i.unit := Nat.cast_pos.2 h.unit
  have hten : (10 : ℚ) ≠ 0 := by norm_num
  unfold toRat point
  rw [le_div_iff₀ hunit]
  split
  · next hle =>
    have hquot : i.value / i.unit ≠ 0 := (Nat.div_pos hle h.unit).ne'
    have hpow : (10 : ℚ) ^ (digits (i.value / i.unit)).length ≤ 10 * (i.value / i.unit : Nat) := by
      exact_mod_cast pow_length_digits_le hquot
    have hdiv : ((i.value / i.unit : Nat) : ℚ) * i.unit ≤ i.value := by
      exact_mod_cast Nat.div_mul_le_self i.value i.unit
    rw [zpow_sub_one₀ hten, zpow_natCast]
    nlinarith
  · have hpow : i.unit ≤ 10 ^ (digits ((i.unit - 1) / i.value)).length * i.value := by
      have := lt_pow_length_digits ((i.unit - 1) / i.value)
      rw [Nat.div_lt_iff_lt_mul h.value] at this
      omega
    have hpow : (i.unit : ℚ) ≤ 10 ^ (digits ((i.unit - 1) / i.value)).length * i.value := by
      exact_mod_cast hpow
    rw [sub_right_comm, sub_self, zero_sub, zpow_neg, zpow_natCast, inv_mul_le_iff₀ (by positivity)]
    exact hpow

/-- A grid point is tested against the interval. -/
theorem holds_grid (i : Interval) (n : Nat) (e : Int) :
    i.holds (n * (Nat.pow 10 e.toNat * i.unit)) (Nat.pow 10 (-e).toNat) = true ↔
      i.Contains (n * 10 ^ e) := by
  have hiff := i.contains_iff (n * Nat.pow 10 e.toNat)
    (show 0 < Nat.pow 10 (-e).toNat from Nat.pow_pos (by decide))
  rw [ratio_eq, Nat.mul_assoc] at hiff
  exact hiff.symm

/-- The grid point below the value. -/
def below (i : Interval) (e : Int) : Nat :=
  i.value * Nat.pow 10 (-e).toNat / (Nat.pow 10 e.toNat * i.unit)

/-- One of the two grid points beside the value, if either holds it. -/
def choose (n : Nat) (e : Int) (upper : Bool) : Bool → Bool → Option Scaled
  | true, true => some ⟨if upper then n + 1 else n, e⟩
  | true, false => some ⟨n, e⟩
  | false, true => some ⟨n + 1, e⟩
  | false, false => none

theorem candidate_eq_choose (i : Interval) (tie : Tie) (count : Nat) {e : Int}
    (he : i.point - count = e) : ∃ upper, i.candidate tie count =
      choose (i.below e) e upper
        (i.holds (i.below e * (Nat.pow 10 e.toNat * i.unit)) (Nat.pow 10 (-e).toNat))
        (i.holds ((i.below e + 1) * (Nat.pow 10 e.toNat * i.unit)) (Nat.pow 10 (-e).toNat)) := by
  subst he
  exact ⟨_, rfl⟩

variable {tie : Tie} {count : Nat}

/-- A candidate rounds to the value. -/
theorem contains_of_candidate {s : Scaled} (h : i.candidate tie count = some s) :
    i.Contains s.toRat := by
  obtain ⟨upper, heq⟩ := i.candidate_eq_choose tie count rfl
  rw [heq] at h
  have hbelow := i.holds_grid (i.below (i.point - count)) (i.point - count)
  have habove := i.holds_grid (i.below (i.point - count) + 1) (i.point - count)
  unfold choose at h
  split at h
  · next hfirst hsecond =>
    cases h
    cases upper with
    | true => exact habove.1 hsecond
    | false => exact hbelow.1 hfirst
  · next hfirst _ => cases h; exact hbelow.1 hfirst
  · next _ hsecond => cases h; exact habove.1 hsecond
  · cases h

theorem not_contains_of_candidate {e : Int} (he : i.point - count = e)
    (h : i.candidate tie count = none) :
    ¬i.Contains (i.below e * 10 ^ e) ∧ ¬i.Contains ((i.below e + 1 : Nat) * 10 ^ e) := by
  obtain ⟨upper, heq⟩ := i.candidate_eq_choose tie count he
  rw [heq] at h
  rw [← holds_grid, ← holds_grid]
  unfold choose at h
  split at h
  · cases h
  · cases h
  · cases h
  · next hfirst hsecond =>
    rw [hfirst, hsecond]
    exact ⟨Bool.false_ne_true, Bool.false_ne_true⟩

theorem below_le (h : i.Wide) (e : Int) :
    (i.below e : ℚ) * 10 ^ e ≤ i.toRat ∧ i.toRat < (i.below e + 1 : Nat) * 10 ^ e := by
  have hunit : (0 : ℚ) < i.unit := Nat.cast_pos.2 h.unit
  have hup : 0 < Nat.pow 10 e.toNat * i.unit := Nat.mul_pos (Nat.pow_pos (by decide)) h.unit
  have hdown : 0 < Nat.pow 10 (-e).toNat := Nat.pow_pos (by decide)
  have hpos : (0 : ℚ) < (Nat.pow 10 (-e).toNat : Nat) := Nat.cast_pos.2 hdown
  have hlow : i.below e * (Nat.pow 10 e.toNat * i.unit) ≤ i.value * Nat.pow 10 (-e).toNat :=
    Nat.div_mul_le_self _ _
  have hhigh : i.value * Nat.pow 10 (-e).toNat <
      (i.below e + 1) * (Nat.pow 10 e.toNat * i.unit) := by
    rw [Nat.mul_comm (i.below e + 1)]
    exact Nat.lt_mul_div_succ _ hup
  rw [← ratio_eq, ← ratio_eq]
  unfold toRat
  rw [div_le_div_iff₀ hpos hunit, div_lt_div_iff₀ hunit hpos]
  constructor
  · rw [← Nat.mul_assoc] at hlow
    exact_mod_cast hlow
  · rw [← Nat.mul_assoc] at hhigh
    exact_mod_cast hhigh

/-- Seventeen digits place a grid point in the interval. -/
theorem Wide.exists_candidate (h : i.Wide) (tie : Tie) : ∃ s, i.candidate tie 17 = some s := by
  rw [← Option.isSome_iff_exists]
  by_contra hnone
  rw [Option.not_isSome_iff_eq_none] at hnone
  obtain ⟨hbelow, habove⟩ := not_contains_of_candidate rfl hnone
  obtain ⟨hlow, hhigh⟩ := below_le h (i.point - (17 : Nat))
  have hpos := h.toRat_pos
  have hgrid : (10 : ℚ) ^ (i.point - (17 : Nat)) * 10 ^ 16 ≤ i.toRat := by
    have hten : (10 : ℚ) ≠ 0 := by norm_num
    refine le_of_eq_of_le ?_ h.pow_point_le
    rw [← zpow_natCast, ← zpow_add₀ hten]
    congr 1
    push_cast
    ring
  have hfirst := mt h.contains hbelow
  have hsecond := mt h.contains habove
  rw [abs_of_nonpos (by linarith), not_lt] at hfirst
  rw [abs_of_pos (by linarith), not_lt] at hsecond
  rw [Nat.cast_add_one] at hsecond
  generalize (10 : ℚ) ^ (i.point - (17 : Nat)) = g at *
  linarith

end Interval

/-- The digits that are written for a double stand for a number that rounds to it. -/
theorem contains_shortest (tie : Tie) {x : Binary64} (hx : x.magnitude ≠ 0) :
    (Interval.of x).Contains (shortest tie x).toRat := by
  have hfound : ((List.range 17).findSome? fun n =>
      (Interval.of x).candidate tie (n + 1)).isSome = true := by
    obtain ⟨s, hs⟩ := (Interval.wide_of hx).exists_candidate tie
    rw [List.findSome?_isSome_iff]
    exact ⟨16, by decide, by rw [hs]; rfl⟩
  obtain ⟨s, hs⟩ := Option.isSome_iff_exists.1 hfound
  have hshortest : shortest tie x = s.shortest := by
    unfold shortest
    dsimp only
    rw [hs]
    rfl
  obtain ⟨n, _, hcandidate⟩ := List.exists_of_findSome?_eq_some hs
  rw [hshortest, Scaled.toRat_shortest]
  exact Interval.contains_of_candidate hcandidate

theorem isDigit_of_mem_shortest {tie : Tie} {x : Binary64} {c : Char}
    (hc : c ∈ (shortest tie x).digits) : c.isDigit = true :=
  Scaled.isDigit_of_mem_shortest _ hc

end PdfConform.Number
