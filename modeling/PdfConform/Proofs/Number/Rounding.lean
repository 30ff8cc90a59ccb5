import Mathlib.Algebra.Order.Field.Basic
import Mathlib.Data.Rat.Cast.Order
import Mathlib.Tactic.FieldSimp
import Mathlib.Tactic.Linarith
import Mathlib.Tactic.Positivity
import Mathlib.Tactic.Ring
import PdfConform.Number.Shortest

/-! Rounding a quotient to a double. The unit of the last place is the only one in which the
quotient takes 53 bits, or the least one there is, so a quotient that lies nearer to a double than
to its neighbours is rounded to it. -/
namespace PdfConform.Binary64

theorem roundDiv_mul_right (n d : Nat) {c : Nat} (hc : 0 < c) :
    roundDiv (n * c) (d * c) = roundDiv n d := by
  have hless : d * c < 2 * (n % d * c) ↔ d < 2 * (n % d) := by
    rw [← Nat.mul_assoc, Nat.mul_lt_mul_right hc]
  have hsame : 2 * (n % d * c) = d * c ↔ 2 * (n % d) = d := by
    rw [← Nat.mul_assoc, Nat.mul_left_inj hc.ne']
  simp only [roundDiv, Nat.mul_div_mul_right n d hc, Nat.mul_mod_mul_right, Bool.or_eq_true,
    Bool.and_eq_true, decide_eq_true_eq, beq_iff_eq, hless, hsame]

/-- A number at most a half away from the quotient is the rounded quotient, unless it is odd and
just a half away. -/
theorem roundDiv_eq {n d m : Nat} (hd : 0 < d) (hlow : 2 * (m * d) ≤ 2 * n + d)
    (hhigh : 2 * n ≤ 2 * (m * d) + d)
    (hodd : m % 2 = 1 → 2 * (m * d) < 2 * n + d ∧ 2 * n < 2 * (m * d) + d) :
    roundDiv n d = m := by
  have hn := Nat.div_add_mod' n d
  have hr := Nat.mod_lt n hd
  have hle : n / d ≤ m := by
    by_contra hlt
    have := Nat.mul_le_mul_right d (show m + 1 ≤ n / d by omega)
    rw [Nat.add_mul, Nat.one_mul] at this
    omega
  have hge : m ≤ n / d + 1 := by
    by_contra hlt
    have := Nat.mul_le_mul_right d (show n / d + 2 ≤ m by omega)
    rw [Nat.add_mul] at this
    omega
  unfold roundDiv
  simp only [Bool.or_eq_true, Bool.and_eq_true, decide_eq_true_eq, beq_iff_eq]
  rcases Nat.lt_or_ge m (n / d + 1) with hm | hm
  · obtain rfl : m = n / d := by omega
    rw [if_neg (by omega)]
  · obtain rfl : m = n / d + 1 := by omega
    rw [Nat.add_mul, Nat.one_mul] at hlow hhigh hodd
    rw [if_pos (by omega)]

/-! The unit of the last place -/

section unit

variable {num den : Nat}

theorem scaled_pos (hden : den ≠ 0) (unit : Nat) : 0 < den * 2 ^ unit :=
  Nat.mul_pos (Nat.pos_of_ne_zero hden) (Nat.two_pow_pos _)

/-- In units of `2 ^ (unit - 1074)` the quotient takes 53 bits, or fewer if no unit is less. -/
structure Binade (num den unit : Nat) : Prop where
  low : unit = 0 ∨ 2 ^ 52 * (den * 2 ^ unit) ≤ num * 2 ^ 1074
  high : num * 2 ^ 1074 < 2 ^ 53 * (den * 2 ^ unit)

theorem Binade.le {u w : Nat} (h : Binade num den u) (k : Binade num den w) : u ≤ w := by
  by_contra hlt
  obtain ⟨d, rfl⟩ := Nat.exists_eq_add_of_lt (Nat.lt_of_not_le hlt)
  rcases h.low with hzero | hlow
  · omega
  · have hpow : 2 ^ 53 * (den * 2 ^ w) ≤ 2 ^ 52 * (den * 2 ^ (w + d + 1)) := by
      calc 2 ^ 53 * (den * 2 ^ w) = 2 ^ 52 * (den * 2 ^ (w + 1)) := by ring
        _ ≤ 2 ^ 52 * (den * 2 ^ (w + d + 1)) := by gcongr <;> omega
    exact absurd k.high (Nat.not_lt.2 (hpow.trans hlow))

theorem Binade.unique {u w : Nat} (h : Binade num den u) (k : Binade num den w) : u = w :=
  Nat.le_antisymm (h.le k) (k.le h)

/-- The unit that the lengths of the two numbers suggest. -/
def guess (num den : Nat) : Nat := num.log2 + 1021 - den.log2

theorem guess_low (hnum : num ≠ 0) :
    guess num den = 0 ∨ 2 ^ 52 * (den * 2 ^ guess num den) ≤ num * 2 ^ 1074 := by
  have hnumlow : 2 ^ num.log2 ≤ num := Nat.log2_self_le hnum
  have hdenhigh : den < 2 ^ (den.log2 + 1) := Nat.lt_log2_self
  rcases Nat.eq_zero_or_pos (guess num den) with hzero | hpos
  · exact .inl hzero
  · right
    calc 2 ^ 52 * (den * 2 ^ guess num den)
        ≤ 2 ^ 52 * (2 ^ (den.log2 + 1) * 2 ^ guess num den) := by gcongr
      _ = 2 ^ num.log2 * 2 ^ 1074 := by
        rw [← Nat.pow_add, ← Nat.pow_add, ← Nat.pow_add]
        congr 1
        unfold guess at hpos ⊢
        omega
      _ ≤ num * 2 ^ 1074 := by gcongr

theorem guess_high (hden : den ≠ 0) :
    num * 2 ^ 1074 < 2 ^ 54 * (den * 2 ^ guess num den) := by
  have hnumhigh : num < 2 ^ (num.log2 + 1) := Nat.lt_log2_self
  have hdenlow : 2 ^ den.log2 ≤ den := Nat.log2_self_le hden
  calc num * 2 ^ 1074 < 2 ^ (num.log2 + 1) * 2 ^ 1074 := by gcongr
    _ ≤ 2 ^ 54 * (2 ^ den.log2 * 2 ^ guess num den) := by
      rw [← Nat.pow_add, ← Nat.pow_add, ← Nat.pow_add]
      refine Nat.pow_le_pow_right (by decide) ?_
      unfold guess
      omega
    _ ≤ 2 ^ 54 * (den * 2 ^ guess num den) := by gcongr

/-- The suggested unit or the next one is that of the binade. -/
theorem Binade.of_guess (hnum : num ≠ 0) (hden : den ≠ 0) :
    Binade num den (if num * 2 ^ 1074 < 2 ^ 53 * (den * 2 ^ guess num den) then guess num den
      else guess num den + 1) := by
  split
  · next hfits => exact ⟨guess_low hnum, hfits⟩
  · next hfits =>
    refine ⟨.inr ?_, ?_⟩
    · calc 2 ^ 52 * (den * 2 ^ (guess num den + 1)) = 2 ^ 53 * (den * 2 ^ guess num den) := by ring
        _ ≤ num * 2 ^ 1074 := Nat.not_lt.1 hfits
    · calc num * 2 ^ 1074 < 2 ^ 54 * (den * 2 ^ guess num den) := guess_high hden
        _ = 2 ^ 53 * (den * 2 ^ (guess num den + 1)) := by ring

/-- Two numbers shifted apart for a unit, by one factor from where both are whole. -/
theorem exists_scale (num den : Nat) {least place : Nat} {unit : Int}
    (h : unit = (place : Int) - least) :
    ∃ c, 0 < c ∧ num <<< (-unit).toNat * c = num * 2 ^ least ∧
      den <<< unit.toNat * c = den * 2 ^ place := by
  refine ⟨2 ^ (least - (-unit).toNat), Nat.two_pow_pos _, ?_, ?_⟩
  · rw [Nat.shiftLeft_eq, Nat.mul_assoc, ← Nat.pow_add]
    congr 2
    omega
  · rw [Nat.shiftLeft_eq, Nat.mul_assoc, ← Nat.pow_add]
    congr 2
    omega

theorem shifted_fits (hden : den ≠ 0) {place : Nat} {unit : Int}
    (h : unit = (place : Int) - (1074 : Nat)) :
    num <<< (-unit).toNat / den <<< unit.toNat < 1 <<< 53 ↔
      num * 2 ^ 1074 < 2 ^ 53 * (den * 2 ^ place) := by
  obtain ⟨c, hc, hnum, hplace⟩ := exists_scale num den h
  have hpos : 0 < den <<< unit.toNat := by
    rw [Nat.shiftLeft_eq]
    exact scaled_pos hden _
  rw [Nat.div_lt_iff_lt_mul hpos, ← hnum, ← hplace, ← Nat.mul_assoc, Nat.mul_lt_mul_right hc,
    Nat.one_shiftLeft]

theorem shifted_roundDiv (num den : Nat) {place : Nat} {unit : Int}
    (h : unit = (place : Int) - (1074 : Nat)) :
    roundDiv (num <<< (-unit).toNat) (den <<< unit.toNat) =
      roundDiv (num * 2 ^ 1074) (den * 2 ^ place) := by
  obtain ⟨c, hc, hnum, hden⟩ := exists_scale num den h
  rw [← hnum, ← hden, roundDiv_mul_right _ _ hc]

/-- The double nearest to a quotient, rounded in the unit of its binade. -/
theorem ofRatio_eq (hnum : num ≠ 0) (hden : den ≠ 0) {unit : Nat} (h : Binade num den unit)
    (negative : Bool) :
    ofRatio negative num den =
      if unit * 2 ^ 52 + roundDiv (num * 2 ^ 1074) (den * 2 ^ unit) < infinityMagnitude then
        ofMagnitude negative (unit * 2 ^ 52 + roundDiv (num * 2 ^ 1074) (den * 2 ^ unit))
      else infinity negative := by
  have hguess : max ((num.log2 : Int) - den.log2 - 53) (-1074) =
      (guess num den : Int) - (1074 : Nat) := by
    unfold guess
    omega
  have hchosen := h.unique (.of_guess hnum hden)
  have hunit : (if num * 2 ^ 1074 < 2 ^ 53 * (den * 2 ^ guess num den) then
      (guess num den : Int) - (1074 : Nat) else (guess num den : Int) - (1074 : Nat) + 1) =
        (unit : Int) - (1074 : Nat) := by
    rw [hchosen]
    split <;> omega
  have hplace : ((unit : Int) - (1074 : Nat) + 1074).toNat = unit := by omega
  unfold ofRatio
  rw [if_neg hnum, hguess]
  simp only [shifted_fits hden rfl, hunit, shifted_roundDiv num den rfl, hplace]
  simp only [Nat.shiftLeft_eq]

end unit

/-! A double between its neighbours -/

/-- The unit of the last place, with the least one at 0. -/
def unit (x : Binary64) : Nat := max (x.magnitude >>> 52) 1 - 1

theorem exponent_eq (x : Binary64) : x.exponent = (x.unit : Int) - 1074 := by
  unfold exponent unit
  omega

theorem significand_lt (x : Binary64) : x.significand < 2 ^ 53 := by
  simp only [significand, Nat.one_shiftLeft]
  split <;> omega

theorem magnitude_eq (x : Binary64) : x.magnitude = x.unit * 2 ^ 52 + x.significand := by
  simp only [unit, significand, Nat.one_shiftLeft, Nat.shiftRight_eq_div_pow]
  split <;> omega

theorem unit_eq_zero_or (x : Binary64) : x.unit = 0 ∨ 2 ^ 52 ≤ x.significand := by
  simp only [unit, significand, Nat.one_shiftLeft, Nat.shiftRight_eq_div_pow]
  split <;> omega

theorem ofMagnitude_self (x : Binary64) : ofMagnitude x.negative x.magnitude = x := by
  have hbits : x.bits.toNat < 2 ^ 64 := x.bits.toNat_lt
  unfold ofMagnitude
  congr 1
  rw [← UInt64.toNat_inj, UInt64.toNat_ofNat']
  simp only [negative, magnitude, Nat.one_shiftLeft, decide_eq_true_eq]
  split <;> omega

end PdfConform.Binary64

namespace PdfConform.Number

open Binary64

namespace Interval

theorem holds_iff (i : Interval) (n d : Nat) :
    i.holds n d = true ↔ i.low * d ≤ n ∧ n ≤ i.high * d ∧
      (i.closed = false → i.low * d < n ∧ n < i.high * d) := by
  unfold holds
  cases i.closed with
  | true => simp
  | false =>
    simp only [Bool.false_eq_true, if_false, Bool.and_eq_true, decide_eq_true_eq, forall_const]
    omega

/-- The numbers that round to the value: those between the ends, and the ends if it is even. -/
structure Contains (i : Interval) (r : ℚ) : Prop where
  low : i.low ≤ r * i.unit
  high : r * i.unit ≤ i.high
  inside : i.closed = false → i.low < r * i.unit ∧ r * i.unit < i.high

theorem contains_iff (i : Interval) (num : Nat) {den : Nat} (hden : 0 < den) :
    i.Contains (num / den) ↔ i.holds (num * i.unit) den = true := by
  have hpos : (0 : ℚ) < den := Nat.cast_pos.2 hden
  have hplace : (num / den : ℚ) * i.unit = (num * i.unit : Nat) / den := by
    rw [Nat.cast_mul]
    ring
  have hlow : (i.low : ℚ) ≤ num / den * i.unit ↔ i.low * den ≤ num * i.unit := by
    rw [hplace, le_div_iff₀ hpos]
    norm_cast
  have hhigh : (num / den * i.unit : ℚ) ≤ i.high ↔ num * i.unit ≤ i.high * den := by
    rw [hplace, div_le_iff₀ hpos]
    norm_cast
  have hlow' : (i.low : ℚ) < num / den * i.unit ↔ i.low * den < num * i.unit := by
    rw [hplace, lt_div_iff₀ hpos]
    norm_cast
  have hhigh' : (num / den * i.unit : ℚ) < i.high ↔ num * i.unit < i.high * den := by
    rw [hplace, div_lt_iff₀ hpos]
    norm_cast
  rw [holds_iff, ← hlow, ← hhigh, ← hlow', ← hhigh']
  exact ⟨fun h => ⟨h.low, h.high, h.inside⟩, fun h => ⟨h.1, h.2.1, h.2.2⟩⟩

end Interval

/-- A power of two that is nearer to its lower neighbour. -/
def isNarrow (x : Binary64) : Bool := x.significand == 1 <<< 52 && 1 <<< 53 ≤ x.magnitude

/-- The numbers that round to a double, measured in units of its last place. -/
structure RoundsTo (x : Binary64) (num den : Nat) : Prop where
  low : (4 * x.significand - if isNarrow x then 1 else 2) * (den * 2 ^ x.unit) ≤
    4 * (num * 2 ^ 1074)
  high : 4 * (num * 2 ^ 1074) ≤ (4 * x.significand + 2) * (den * 2 ^ x.unit)
  inside : x.significand % 2 = 1 →
    (4 * x.significand - if isNarrow x then 1 else 2) * (den * 2 ^ x.unit) <
        4 * (num * 2 ^ 1074) ∧
      4 * (num * 2 ^ 1074) < (4 * x.significand + 2) * (den * 2 ^ x.unit)

theorem roundsTo_of_holds {x : Binary64} {num den : Nat}
    (h : (Interval.of x).holds (num * (Interval.of x).unit) den = true) : RoundsTo x num den := by
  have hexponent : x.exponent - 2 = (x.unit : Int) - (1076 : Nat) := by
    rw [exponent_eq]
    omega
  obtain ⟨c, hc, hunit, hup⟩ := exists_scale 1 1 hexponent
  rw [Nat.one_mul] at hunit hup
  have hright : num * (Interval.of x).unit * c = 4 * (num * 2 ^ 1074) := by
    change num * 1 <<< (-(x.exponent - 2)).toNat * c = _
    have hpow {k m : Nat} (h : m = k + 2) : num * 2 ^ m = 4 * (num * 2 ^ k) := by
      subst h
      ring
    rw [Nat.mul_assoc, hunit]
    exact hpow rfl
  have hleft (k : Nat) : k * 1 <<< (x.exponent - 2).toNat * den * c = k * (den * 2 ^ x.unit) := by
    rw [← hup]
    ring
  have hlow : (Interval.of x).low * den * c =
      (4 * x.significand - if isNarrow x then 1 else 2) * (den * 2 ^ x.unit) := hleft _
  have hhigh : (Interval.of x).high * den * c = (4 * x.significand + 2) * (den * 2 ^ x.unit) :=
    hleft _
  obtain ⟨h, k, hinside⟩ := (Interval.holds_iff _ _ _).1 h
  constructor
  · rw [← hlow, ← hright]
    exact Nat.mul_le_mul_right c h
  · rw [← hhigh, ← hright]
    exact Nat.mul_le_mul_right c k
  · intro hodd
    have hopen : (Interval.of x).closed = false := by
      change (x.significand % 2 == 0) = false
      rw [hodd]
      rfl
    obtain ⟨h, k⟩ := hinside hopen
    rw [← hlow, ← hhigh, ← hright]
    exact ⟨Nat.mul_lt_mul_of_pos_right h hc, Nat.mul_lt_mul_of_pos_right k hc⟩

theorem significand_ne_zero {x : Binary64} (hx : x.magnitude ≠ 0) : x.significand ≠ 0 := by
  have hplace := magnitude_eq x
  rcases unit_eq_zero_or x with hunit | hlarge
  · rw [hunit] at hplace
    omega
  · omega

namespace RoundsTo

variable {x : Binary64} {num den : Nat}

theorem num_ne_zero (h : RoundsTo x num den) (hden : den ≠ 0) (hx : x.magnitude ≠ 0) :
    num ≠ 0 := by
  have hpos := scaled_pos hden x.unit
  have hleast : 0 < 4 * x.significand - if isNarrow x then 1 else 2 := by
    have := significand_ne_zero hx
    split <;> omega
  have hlow := (Nat.mul_pos hleast hpos).trans_le h.low
  rintro rfl
  rw [Nat.zero_mul] at hlow
  exact absurd hlow (by decide)

theorem le_of_low (h : RoundsTo x num den) :
    2 * (x.significand * (den * 2 ^ x.unit)) ≤ 2 * (num * 2 ^ 1074) + den * 2 ^ x.unit := by
  have hlow := h.low
  generalize num * 2 ^ 1074 = r at *
  generalize den * 2 ^ x.unit = d at *
  rw [Nat.sub_mul, Nat.mul_assoc] at hlow
  split at hlow <;> omega

theorem lt_of_high (h : RoundsTo x num den) (hden : den ≠ 0) :
    num * 2 ^ 1074 < 2 ^ 53 * (den * 2 ^ x.unit) := by
  have hpos := scaled_pos hden x.unit
  have hhigh := h.high
  generalize num * 2 ^ 1074 = r at *
  generalize den * 2 ^ x.unit = d at *
  have hlast : (4 * x.significand + 2) * d ≤ (2 ^ 55 - 2) * d :=
    Nat.mul_le_mul_right d (by have := significand_lt x; omega)
  omega

/-- A quotient in the binade of the double rounds to its significand. -/
theorem roundDiv_eq (h : RoundsTo x num den) (hden : den ≠ 0) :
    roundDiv (num * 2 ^ 1074) (den * 2 ^ x.unit) = x.significand := by
  have hpos := scaled_pos hden x.unit
  have hlow := h.le_of_low
  have hhigh := h.high
  have hinside := h.inside
  generalize num * 2 ^ 1074 = r at *
  generalize den * 2 ^ x.unit = d at *
  rw [Nat.add_mul, Nat.mul_assoc] at hhigh hinside
  refine Binary64.roundDiv_eq hpos hlow (by omega) fun hodd => ?_
  obtain ⟨hless, hmore⟩ := hinside hodd
  rw [Nat.sub_mul, Nat.mul_assoc] at hless
  constructor
  · split at hless <;> omega
  · omega

/-- One more in the significand would put the quotient above the power of two. -/
theorem significand_eq (h : RoundsTo x num den) (hden : den ≠ 0) (hunit : x.unit ≠ 0)
    (hbelow : num * 2 ^ 1074 < 2 ^ 52 * (den * 2 ^ x.unit)) : x.significand = 2 ^ 52 := by
  by_contra hne
  have hpos := scaled_pos hden x.unit
  have hlow := h.le_of_low
  have hlarge : 2 ^ 52 ≤ x.significand := (unit_eq_zero_or x).resolve_left hunit
  have hmore := Nat.mul_le_mul_right (den * 2 ^ x.unit)
    (show 2 ^ 52 + 1 ≤ x.significand by omega)
  generalize num * 2 ^ 1074 = r at *
  generalize den * 2 ^ x.unit = d at *
  rw [Nat.add_mul] at hmore
  omega

/-- A quotient below the binade of the double lies under a power of two, in the binade of the lower
neighbour, and rounds up to that power there. -/
theorem below (h : RoundsTo x num den) (hden : den ≠ 0) (hunit : x.unit ≠ 0)
    (hbelow : num * 2 ^ 1074 < 2 ^ 52 * (den * 2 ^ x.unit)) :
    x.significand = 2 ^ 52 ∧ Binade num den (x.unit - 1) ∧
      roundDiv (num * 2 ^ 1074) (den * 2 ^ (x.unit - 1)) = 2 ^ 53 := by
  have hsignificand := h.significand_eq hden hunit hbelow
  have hnarrow := h.low
  have hpos := scaled_pos hden (x.unit - 1)
  have hdouble : den * 2 ^ x.unit = 2 * (den * 2 ^ (x.unit - 1)) := by
    rw [Nat.mul_left_comm, ← Nat.pow_add_one']
    congr 2
    omega
  have hpower : isNarrow x = true := by
    have := magnitude_eq x
    simp only [isNarrow, Nat.one_shiftLeft, Bool.and_eq_true, beq_iff_eq, decide_eq_true_eq]
    omega
  rw [hdouble] at hbelow hnarrow
  rw [hsignificand, hpower, if_pos rfl] at hnarrow
  generalize hnum : num * 2 ^ 1074 = r at *
  generalize hlast : den * 2 ^ (x.unit - 1) = d at *
  refine ⟨hsignificand, ⟨.inr ?_, ?_⟩, Binary64.roundDiv_eq hpos ?_ ?_ ?_⟩
  · rw [hnum, hlast]
    omega
  · rw [hnum, hlast]
    omega
  · omega
  · omega
  · exact fun hodd => absurd hodd (by decide)

/-- What rounds to a double is rounded to it. -/
theorem ofRatio_eq (h : RoundsTo x num den) (hden : den ≠ 0) (hx : x.magnitude ≠ 0)
    (hfinite : x.isFinite = true) (negative : Bool) :
    ofRatio negative num den = ofMagnitude negative x.magnitude := by
  have hnum := h.num_ne_zero hden hx
  have hplace := magnitude_eq x
  have hfinite : x.magnitude < infinityMagnitude := of_decide_eq_true hfinite
  by_cases hbinade : x.unit = 0 ∨ 2 ^ 52 * (den * 2 ^ x.unit) ≤ num * 2 ^ 1074
  · rw [Binary64.ofRatio_eq hnum hden ⟨hbinade, h.lt_of_high hden⟩, h.roundDiv_eq hden, ← hplace,
      if_pos hfinite]
  · rw [not_or, Nat.not_le] at hbinade
    obtain ⟨hsignificand, hbelow, hround⟩ := h.below hden hbinade.1 hbinade.2
    have hnext : (x.unit - 1) * 2 ^ 52 + 2 ^ 53 = x.magnitude := by
      have := hbinade.1
      omega
    rw [Binary64.ofRatio_eq hnum hden hbelow, hround, hnext, if_pos hfinite]

end RoundsTo

end PdfConform.Number
