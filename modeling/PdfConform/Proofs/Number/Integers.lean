import PdfConform.Proofs.Number.ShownReal

/-! Whole numbers as doubles. With more than 53 bits a whole number shares its double with a
neighbour, unless it has 54 bits and is twice an odd number. -/
namespace PdfConform.Binary64

open Number (magnitude_ofMagnitude isNaN_ofMagnitude)

/-- The unit of the last of 53 bits. -/
def lastPlace (n : Nat) : Nat := 2 ^ (n.log2 - 52)

/-- The whole number that the nearest double stands for. -/
def nearest (n : Nat) : Nat := roundDiv n (lastPlace n) * lastPlace n

theorem roundDiv_mul_add {q d r : Nat} (h : r < d) :
    roundDiv (q * d + r) d = if d < 2 * r ∨ 2 * r = d ∧ q % 2 = 1 then q + 1 else q := by
  have hpos : 0 < d := Nat.zero_lt_of_lt h
  have hdiv : (q * d + r) / d = q := by
    rw [Nat.add_comm, Nat.add_mul_div_right r q hpos, Nat.div_eq_of_lt h, Nat.zero_add]
  have hmod : (q * d + r) % d = r := by
    rw [Nat.mul_add_mod', Nat.mod_eq_of_lt h]
  simp only [roundDiv, hdiv, hmod, Bool.or_eq_true, Bool.and_eq_true, decide_eq_true_eq, beq_iff_eq]

theorem roundDiv_mul (q : Nat) {d : Nat} (h : 0 < d) : roundDiv (q * d) d = q := by
  have hround := roundDiv_mul_add (q := q) h
  rw [Nat.add_zero] at hround
  rw [hround, if_neg (by omega)]

theorem nearest_of_lt {n : Nat} (h : n < 2 ^ 53) : nearest n = n := by
  have hlast : lastPlace n = 1 := by
    rcases Nat.eq_zero_or_pos n with rfl | hpos
    · decide
    · have hlog : n.log2 < 53 := (Nat.log2_lt hpos.ne').2 h
      rw [lastPlace, Nat.sub_eq_zero_of_le (by omega), Nat.pow_zero]
  have hround := roundDiv_mul n Nat.one_pos
  rw [Nat.mul_one] at hround
  rw [nearest, hlast, hround, Nat.mul_one]

/-- The first 53 bits of a number, and those of lower places. -/
structure Split (n first places rest : Nat) : Prop where
  eq : n = first * 2 ^ places + rest
  low : 2 ^ 52 ≤ first
  high : first < 2 ^ 53
  rest : rest < 2 ^ places

namespace Split

variable {n first places rest : Nat}

theorem lt (h : Split n first places rest) : n < 2 ^ (53 + places) := by
  calc n < (first + 1) * 2 ^ places := by
        rw [h.eq, Nat.add_mul, Nat.one_mul]
        exact Nat.add_lt_add_left h.rest _
    _ ≤ 2 ^ 53 * 2 ^ places := Nat.mul_le_mul_right _ h.high
    _ = 2 ^ (53 + places) := (Nat.pow_add 2 53 places).symm

theorem le (h : Split n first places rest) : 2 ^ (52 + places) ≤ first * 2 ^ places := by
  rw [Nat.pow_add]
  exact Nat.mul_le_mul_right _ h.low

theorem log2_eq (h : Split n first places rest) : n.log2 = 52 + places := by
  have hlow : 2 ^ (52 + places) ≤ n := h.le.trans (h.eq ▸ Nat.le_add_right _ _)
  have hpos : n ≠ 0 := (Nat.two_pow_pos _ |>.trans_le hlow).ne'
  exact (Nat.log2_eq_iff hpos).2 ⟨hlow, by rw [Nat.add_right_comm]; exact h.lt⟩

theorem nearest_eq (h : Split n first places rest) :
    nearest n = (if 2 ^ places < 2 * rest ∨ 2 * rest = 2 ^ places ∧ first % 2 = 1 then first + 1
      else first) * 2 ^ places := by
  have hlast : lastPlace n = 2 ^ places := by
    rw [lastPlace, h.log2_eq, Nat.add_sub_cancel_left]
  rw [nearest, hlast, h.eq, roundDiv_mul_add h.rest]

end Split

theorem split_of_le {n : Nat} (h : 2 ^ 52 ≤ n) :
    Split n (n / lastPlace n) (n.log2 - 52) (n % lastPlace n) := by
  have hpos : n ≠ 0 := (Nat.two_pow_pos 52 |>.trans_le h).ne'
  have hlog : 52 ≤ n.log2 := (Nat.le_log2 hpos).2 h
  have hplace : 0 < lastPlace n := Nat.two_pow_pos _
  refine ⟨(Nat.div_add_mod' n _).symm, ?_, ?_, Nat.mod_lt n hplace⟩
  · rw [Nat.le_div_iff_mul_le hplace, lastPlace, ← Nat.pow_add, Nat.add_sub_cancel' hlog]
    exact Nat.log2_self_le hpos
  · rw [Nat.div_lt_iff_lt_mul hplace, lastPlace, ← Nat.pow_add]
    have hhigh : n < 2 ^ (n.log2 + 1) := Nat.lt_log2_self
    rwa [show 53 + (n.log2 - 52) = n.log2 + 1 by omega]

/-- No number is rounded past a power of two. -/
theorem pow_le_nearest {n k : Nat} (hk : 52 ≤ k) (h : 2 ^ k ≤ n) : 2 ^ k ≤ nearest n := by
  have hsplit := split_of_le ((Nat.pow_le_pow_right (by decide) hk).trans h)
  have hplaces : k ≤ 52 + (n.log2 - 52) := by
    have := (Nat.pow_lt_pow_iff_right (by decide)).1 (h.trans_lt hsplit.lt)
    omega
  calc 2 ^ k ≤ 2 ^ (52 + (n.log2 - 52)) := Nat.pow_le_pow_right (by decide) hplaces
    _ ≤ n / lastPlace n * 2 ^ (n.log2 - 52) := hsplit.le
    _ ≤ nearest n := by
      rw [hsplit.nearest_eq]
      exact Nat.mul_le_mul_right _ (by split <;> omega)

theorem nearest_mul {first : Nat} (hlow : 2 ^ 52 ≤ first) (hhigh : first ≤ 2 ^ 53)
    (places : Nat) : nearest (first * 2 ^ places) = first * 2 ^ places := by
  have hrest : ¬(2 ^ places < 2 * 0 ∨ 2 * 0 = 2 ^ places ∧ first % 2 = 1) := by
    have := Nat.two_pow_pos places
    omega
  rcases hhigh.lt_or_eq with hless | rfl
  · have hsplit : Split (first * 2 ^ places) first places 0 :=
      ⟨rfl, hlow, hless, Nat.two_pow_pos _⟩
    rw [hsplit.nearest_eq, if_neg hrest]
  · have hsplit : Split (2 ^ 53 * 2 ^ places) (2 ^ 52) (places + 1) 0 :=
      ⟨by ring, Nat.le_refl _, by decide, Nat.two_pow_pos _⟩
    rw [hsplit.nearest_eq, if_neg (by have := Nat.two_pow_pos (places + 1); omega)]
    ring

/-! Neighbours -/

/-- No other whole number has the same nearest double. -/
def StandsAlone (n : Nat) : Prop := n < 2 ^ 53 ∨ n < 2 ^ 54 ∧ n % 4 = 2

instance (n : Nat) : Decidable (StandsAlone n) :=
  inferInstanceAs (Decidable (n < 2 ^ 53 ∨ n < 2 ^ 54 ∧ n % 4 = 2))

theorem StandsAlone.eq_of_nearest_eq {n k : Nat} (halone : StandsAlone n)
    (h : nearest k = nearest n) : k = n := by
  have hsmall (hk : k < 2 ^ 53) : nearest k = k := nearest_of_lt hk
  have hlarge {e : Nat} (he : 52 ≤ e) (hk : 2 ^ e ≤ k) : 2 ^ e ≤ nearest k := pow_le_nearest he hk
  have hmiddle {m : Nat} (hlow : 2 ^ 53 ≤ m) (hhigh : m < 2 ^ 54) : Split m (m / 2) 1 (m % 2) :=
    ⟨by omega, by omega, by omega, by omega⟩
  by_cases hn : n < 2 ^ 53
  · rw [nearest_of_lt hn] at h
    by_cases hk : k < 2 ^ 53
    · rwa [hsmall hk] at h
    · have := hlarge (by decide) (Nat.not_lt.1 hk)
      omega
  · obtain ⟨hhigh, hodd⟩ := halone.resolve_left hn
    have hself : nearest n = n := by
      rw [(hmiddle (Nat.not_lt.1 hn) hhigh).nearest_eq, if_neg (by omega)]
      omega
    rw [hself] at h
    by_cases hk : k < 2 ^ 53
    · rw [hsmall hk] at h
      omega
    · by_cases hk' : k < 2 ^ 54
      · rw [(hmiddle (Nat.not_lt.1 hk) hk').nearest_eq] at h
        split at h <;> omega
      · have := hlarge (by decide) (Nat.not_lt.1 hk')
        omega

namespace Split

variable {n first places rest : Nat}

/-- The lower places are more than a half, or a half above an odd number. -/
def Up (first places rest : Nat) : Prop :=
  2 ^ places < 2 * rest ∨ 2 * rest = 2 ^ places ∧ first % 2 = 1

theorem nearest_of_up (h : Split n first places rest) (hup : Up first places rest) :
    nearest n = (first + 1) * 2 ^ places := by
  unfold Up at hup
  rw [h.nearest_eq, if_pos hup]

theorem nearest_of_not_up (h : Split n first places rest) (hup : ¬Up first places rest) :
    nearest n = first * 2 ^ places := by
  unfold Up at hup
  rw [h.nearest_eq, if_neg hup]

/-- A number that is rounded down comes after one that is rounded to the same. -/
theorem nearest_pred (h : Split n first places rest) (hup : ¬Up first places rest)
    (hrest : rest ≠ 0) : nearest (n - 1) = nearest n := by
  have hpred : Split (n - 1) first places (rest - 1) :=
    ⟨by have := h.eq; omega, h.low, h.high, by have := h.rest; omega⟩
  have hdown : ¬Up first places (rest - 1) := by
    unfold Up at *
    omega
  rw [hpred.nearest_of_not_up hdown, h.nearest_of_not_up hup]

/-- A number that is rounded up comes before one that is rounded to the same. -/
theorem nearest_succ_of_up (h : Split n first places rest) (hup : Up first places rest) :
    nearest (n + 1) = nearest n := by
  rw [h.nearest_of_up hup]
  rcases Nat.lt_or_ge (rest + 1) (2 ^ places) with hless | hfull
  · have hsucc : Split (n + 1) first places (rest + 1) :=
      ⟨by have := h.eq; omega, h.low, h.high, hless⟩
    refine hsucc.nearest_of_up ?_
    unfold Up at *
    omega
  · have heq : n + 1 = (first + 1) * 2 ^ places := by
      have := h.eq
      have := h.rest
      rw [Nat.add_mul, Nat.one_mul]
      omega
    rw [heq]
    exact nearest_mul (Nat.le_succ_of_le h.low) h.high places

/-- A double comes before a number that is rounded down to it, unless that is half a unit off and
the double is odd. -/
theorem nearest_succ_of_zero (h : Split n first places 0) (hplaces : 1 < 2 ^ places)
    (hup : ¬Up first places 1) : nearest (n + 1) = nearest n := by
  have hsucc : Split (n + 1) first places 1 := ⟨by have := h.eq; omega, h.low, h.high, hplaces⟩
  have hdown : ¬Up first places 0 := by
    unfold Up
    omega
  rw [hsucc.nearest_of_not_up hup, h.nearest_of_not_up hdown]

end Split

/-- A number that shares its double with no other stands alone. -/
theorem exists_nearest_eq {n : Nat} (halone : ¬StandsAlone n) (hn : n ≤ 2 ^ 63) :
    ∃ k < 2 ^ 63, k ≠ n ∧ nearest k = nearest n := by
  unfold StandsAlone at halone
  -- The last numbers have no successor among those of 63 bits.
  by_cases hlast : n = 2 ^ 63 ∨ n = 2 ^ 63 - 1
  · rcases hlast with rfl | rfl
    · exact ⟨2 ^ 63 - 1, by decide, by decide, by decide⟩
    · exact ⟨2 ^ 63 - 2, by decide, by decide, by decide⟩
  have hsucc : n + 1 < 2 ^ 63 := by omega
  have hsplit := split_of_le (show 2 ^ 52 ≤ n by omega)
  generalize n / lastPlace n = first at hsplit
  generalize n % lastPlace n = rest at hsplit
  have hlog : 53 ≤ n.log2 := (Nat.le_log2 (by omega)).2 (by omega)
  obtain ⟨places, hplaces⟩ := Nat.exists_eq_add_of_le hlog
  rw [hplaces, show 53 + places - 52 = places + 1 by omega] at hsplit
  by_cases hup : Split.Up first (places + 1) rest
  · exact ⟨n + 1, hsucc, by omega, hsplit.nearest_succ_of_up hup⟩
  · by_cases hrest : rest = 0
    · subst hrest
      have hpow : 2 ^ (places + 1) = 2 * 2 ^ places := Nat.pow_succ'
      have hpos := Nat.two_pow_pos places
      refine ⟨n + 1, hsucc, by omega, hsplit.nearest_succ_of_zero (by omega) ?_⟩
      rintro (hless | ⟨hhalf, hodd⟩)
      · omega
      · have hn := hsplit.eq
        have hhigh := hsplit.high
        rw [← hhalf] at hn
        omega
    · exact ⟨n - 1, by omega, by omega, hsplit.nearest_pred hup hrest⟩

/-! The double of a whole number -/

theorem div_le_roundDiv (num den : Nat) :
    num / den ≤ roundDiv num den ∧ roundDiv num den ≤ num / den + 1 := by
  unfold roundDiv
  dsimp only
  split <;> omega

theorem two_pow_eq_mul {a b c : Nat} (h : a = b + c) : 2 ^ a = 2 ^ b * 2 ^ c := by
  rw [h, Nat.pow_add]

theorem Binade.of_whole {n : Nat} (hn : n ≠ 0) : Binade n 1 (n.log2 + 1022) := by
  have hlow : 2 ^ n.log2 ≤ n := Nat.log2_self_le hn
  have hhigh : n < 2 ^ (n.log2 + 1) := Nat.lt_log2_self
  refine ⟨.inr ?_, ?_⟩
  · calc 2 ^ 52 * (1 * 2 ^ (n.log2 + 1022)) = 2 ^ n.log2 * 2 ^ 1074 := by
          rw [Nat.one_mul, ← Nat.pow_add, ← Nat.pow_add, Nat.add_comm 52]
      _ ≤ n * 2 ^ 1074 := Nat.mul_le_mul_right _ hlow
  · calc n * 2 ^ 1074 < 2 ^ (n.log2 + 1) * 2 ^ 1074 := by gcongr
      _ = 2 ^ 53 * (1 * 2 ^ (n.log2 + 1022)) := by
          rw [Nat.one_mul, ← Nat.pow_add, ← Nat.pow_add, Nat.add_comm 53]

/-- The significand of the double nearest to a whole number, before a carry. -/
structure Rounded (n significand : Nat) : Prop where
  low : 2 ^ 52 ≤ significand
  high : significand ≤ 2 ^ 53
  eq : significand * 2 ^ n.log2 = nearest n * 2 ^ 52

theorem rounded_roundDiv {n : Nat} (hn : n ≠ 0) :
    Rounded n (roundDiv (n * 2 ^ 1074) (1 * 2 ^ (n.log2 + 1022))) := by
  have hbinade := Binade.of_whole hn
  have hpos : 0 < 1 * 2 ^ (n.log2 + 1022) := scaled_pos Nat.one_ne_zero _
  obtain ⟨hfloor, hceil⟩ := div_le_roundDiv (n * 2 ^ 1074) (1 * 2 ^ (n.log2 + 1022))
  refine ⟨?_, ?_, ?_⟩
  · exact ((Nat.le_div_iff_mul_le hpos).2 (hbinade.low.resolve_left (by omega))).trans hfloor
  · exact hceil.trans ((Nat.div_lt_iff_lt_mul hpos).2 hbinade.high)
  · rcases Nat.lt_or_ge n.log2 53 with hshort | hlong
    · have hsmall : n < 2 ^ 53 := (Nat.log2_lt hn).1 hshort
      have hunit : 2 ^ 1074 = 2 ^ (52 - n.log2) * (1 * 2 ^ (n.log2 + 1022)) := by
        rw [Nat.one_mul]
        exact two_pow_eq_mul (by omega)
      have hlog : 2 ^ 52 = 2 ^ (52 - n.log2) * 2 ^ n.log2 := two_pow_eq_mul (by omega)
      rw [hunit, ← Nat.mul_assoc, roundDiv_mul _ hpos, nearest_of_lt hsmall, hlog, Nat.mul_assoc]
    · have hunit : 1 * 2 ^ (n.log2 + 1022) = lastPlace n * 2 ^ 1074 := by
        rw [Nat.one_mul]
        exact two_pow_eq_mul (by omega)
      have hlog : 2 ^ n.log2 = lastPlace n * 2 ^ 52 := two_pow_eq_mul (by omega)
      rw [hunit, roundDiv_mul_right _ _ (Nat.two_pow_pos _), hlog, nearest, Nat.mul_assoc]

/-- The same bits say the same number, a carry into the next unit included. -/
theorem bits_eq_iff {unit places s t : Nat} (hs : s ≤ 2 ^ 53) (ht : 2 ^ 52 ≤ t) (ht' : t ≤ 2 ^ 53)
    (hs' : 2 ^ 52 ≤ s) :
    unit * 2 ^ 52 + s = (unit + places) * 2 ^ 52 + t ↔
      s * 2 ^ unit = t * 2 ^ (unit + places) := by
  have hcancel : s * 2 ^ unit = t * 2 ^ (unit + places) ↔ s = t * 2 ^ places := by
    rw [Nat.add_comm unit, Nat.pow_add, ← Nat.mul_assoc, Nat.mul_left_inj (Nat.two_pow_pos _).ne']
  rw [hcancel, Nat.add_mul]
  match places with
  | 0 => omega
  | 1 => omega
  | places + 2 =>
    have hpow : t * 4 ≤ t * 2 ^ (places + 2) :=
      Nat.mul_le_mul_left t (Nat.pow_le_pow_right Nat.two_pos (Nat.le_add_left 2 places))
    omega

theorem Rounded.bits_eq_iff {m n s t : Nat} (hs : Rounded m s) (ht : Rounded n t) :
    (m.log2 + 1022) * 2 ^ 52 + s = (n.log2 + 1022) * 2 ^ 52 + t ↔ nearest m = nearest n := by
  have hvalues : nearest m = nearest n ↔ s * 2 ^ m.log2 = t * 2 ^ n.log2 := by
    rw [hs.eq, ht.eq, Nat.mul_left_inj (Nat.two_pow_pos 52).ne']
  have hbits : (m.log2 + 1022) * 2 ^ 52 + s = (n.log2 + 1022) * 2 ^ 52 + t ↔
      m.log2 * 2 ^ 52 + s = n.log2 * 2 ^ 52 + t := by omega
  rw [hvalues, hbits]
  rcases Nat.le_total m.log2 n.log2 with hle | hle
  · obtain ⟨places, hplaces⟩ := Nat.exists_eq_add_of_le hle
    rw [hplaces]
    exact Binary64.bits_eq_iff hs.high ht.low ht.high hs.low
  · obtain ⟨places, hplaces⟩ := Nat.exists_eq_add_of_le hle
    rw [hplaces, eq_comm, Binary64.bits_eq_iff ht.high hs.low hs.high ht.low, eq_comm]

/-- The place of a whole number among the doubles. -/
def place (n : Nat) : Nat := (ofRatio false n 1).magnitude

theorem infinityMagnitude_lt : infinityMagnitude < 2 ^ 63 := by decide

theorem exists_rounded {n : Nat} (hn : n ≠ 0) (hle : n ≤ 2 ^ 63) :
    ∃ s, Rounded n s ∧ place n = (n.log2 + 1022) * 2 ^ 52 + s ∧ place n < infinityMagnitude ∧
      ∀ negative, ofRatio negative n 1 = ofMagnitude negative (place n) := by
  have hrounded := rounded_roundDiv hn
  have hbits (negative : Bool) := ofRatio_eq hn Nat.one_ne_zero (.of_whole hn) negative
  generalize roundDiv (n * 2 ^ 1074) (1 * 2 ^ (n.log2 + 1022)) = s at hrounded hbits
  have hfinite : (n.log2 + 1022) * 2 ^ 52 + s < infinityMagnitude := by
    have hlog : n.log2 < 64 := (Nat.log2_lt hn).2 (hle.trans_lt (by decide))
    have := hrounded.high
    unfold infinityMagnitude
    omega
  simp only [if_pos hfinite] at hbits
  have hplace : place n = (n.log2 + 1022) * 2 ^ 52 + s := by
    rw [place, hbits, magnitude_ofMagnitude _ (hfinite.trans infinityMagnitude_lt)]
  exact ⟨s, hrounded, hplace, hplace ▸ hfinite, hplace ▸ hbits⟩

theorem ofRatio_whole {n : Nat} (hle : n ≤ 2 ^ 63) :
    place n < infinityMagnitude ∧
      ∀ negative, ofRatio negative n 1 = ofMagnitude negative (place n) := by
  by_cases hn : n = 0
  · subst hn
    exact ⟨by decide, fun negative => by cases negative <;> decide⟩
  · obtain ⟨s, _, _, hplace⟩ := exists_rounded hn hle
    exact hplace

theorem nearest_pos {n : Nat} (hn : n ≠ 0) : 0 < nearest n := by
  have hrounded := rounded_roundDiv hn
  have hpos := Nat.mul_pos (Nat.two_pow_pos 52 |>.trans_le hrounded.low) (Nat.two_pow_pos n.log2)
  rw [hrounded.eq] at hpos
  exact Nat.pos_of_mul_pos_right hpos

theorem place_pos {n : Nat} (hn : n ≠ 0) (hle : n ≤ 2 ^ 63) : 0 < place n := by
  obtain ⟨s, _, hplace, _⟩ := exists_rounded hn hle
  omega

theorem place_eq_iff {m n : Nat} (hm : m ≤ 2 ^ 63) (hn : n ≤ 2 ^ 63) :
    place m = place n ↔ nearest m = nearest n := by
  have hplace : place 0 = 0 := by decide
  have hnearest : nearest 0 = 0 := by decide
  rcases Nat.eq_zero_or_pos m with rfl | hmpos
  · rcases Nat.eq_zero_or_pos n with rfl | hnpos
    · exact iff_of_true rfl rfl
    · have := place_pos hnpos.ne' hn
      have := nearest_pos hnpos.ne'
      omega
  · obtain ⟨s, hs, hmplace, _⟩ := exists_rounded hmpos.ne' hm
    rcases Nat.eq_zero_or_pos n with rfl | hnpos
    · have := nearest_pos hmpos.ne'
      omega
    · obtain ⟨t, ht, hnplace, _⟩ := exists_rounded hnpos.ne' hn
      rw [hmplace, hnplace]
      exact hs.bits_eq_iff ht

theorem negative_ofMagnitude (negative : Bool) {m : Nat} (h : m < 2 ^ 63) :
    (ofMagnitude negative m).negative = negative := by
  cases negative <;>
    simp only [ofMagnitude, Binary64.negative, UInt64.toNat_ofNat', Nat.one_shiftLeft] <;> simp <;>
      omega

theorem rank_ofInt {i : Int} (hi : i.natAbs ≤ 2 ^ 63) :
    (ofInt i).rank = i.sign * place i.natAbs ∧ (ofInt i).isNaN = false := by
  obtain ⟨hfinite, heq⟩ := ofRatio_whole hi
  have hsmall := hfinite.trans infinityMagnitude_lt
  rw [ofInt, heq]
  refine ⟨?_, isNaN_ofMagnitude _ hfinite.le⟩
  rw [rank, negative_ofMagnitude _ hsmall, magnitude_ofMagnitude _ hsmall]
  rcases lt_trichotomy i 0 with hneg | rfl | hpos
  · simp [hneg, Int.sign_eq_neg_one_of_neg hneg]
  · rfl
  · simp [hpos.not_gt, Int.sign_eq_one_of_pos hpos]

theorem sign_mul_eq_iff {i j : Int} {p q : Nat} (hp : p = 0 ↔ i = 0) (hq : q = 0 ↔ j = 0) :
    i.sign * p = j.sign * q ↔ i.sign = j.sign ∧ p = q := by
  rw [← Int.sign_eq_zero_iff_zero] at hp hq
  rcases Int.sign_trichotomy i with hi | hi | hi <;>
    rcases Int.sign_trichotomy j with hj | hj | hj <;>
      rw [hi] at hp ⊢ <;> rw [hj] at hq ⊢ <;> omega

theorem place_eq_zero_iff {i : Int} (hi : i.natAbs ≤ 2 ^ 63) : place i.natAbs = 0 ↔ i = 0 := by
  constructor
  · intro h
    by_contra hne
    exact (place_pos (Int.natAbs_ne_zero.2 hne) hi).ne' h
  · rintro rfl
    decide

/-- Whole numbers are equal as doubles exactly if they have the same sign and the same nearest
double. -/
theorem same_ofInt_iff {i j : Int} (hi : i.natAbs ≤ 2 ^ 63) (hj : j.natAbs ≤ 2 ^ 63) :
    (ofInt i).same (ofInt j) = true ↔
      i.sign = j.sign ∧ nearest i.natAbs = nearest j.natAbs := by
  obtain ⟨hrank, hnumber⟩ := rank_ofInt hi
  obtain ⟨hrank', hnumber'⟩ := rank_ofInt hj
  rw [same, hnumber, hnumber', hrank, hrank', ← place_eq_iff hi hj,
    ← sign_mul_eq_iff (place_eq_zero_iff hi) (place_eq_zero_iff hj)]
  simp

end PdfConform.Binary64
