import PdfConform.Number.Layout
import PdfConform.Number.Decimal
import PdfConform.Proofs.Json.Lexeme
import PdfConform.Proofs.Number.ShortestDigits

/-! Reading back what is written for a double. A decimal in the interval of a double is read as
that double, and the positional form, which has no exponent, stands for such a decimal. -/
namespace PdfConform.Number

open Binary64

/-! Decimals that round to a double -/

section decimal

variable {x : Binary64} {d : Nat} {e : Int}

theorem unit_le (h : x.isFinite = true) : x.unit ≤ 2045 := by
  have hfinite : x.magnitude < infinityMagnitude := of_decide_eq_true h
  have hplace := magnitude_eq x
  have hleast := unit_eq_zero_or x
  unfold infinityMagnitude at hfinite
  omega

theorem RoundsTo.lt_pow {num den : Nat} (h : RoundsTo x num den) (hden : den ≠ 0)
    (hfinite : x.isFinite = true) : num < 2 ^ 1024 * den := by
  have hunit : den * 2 ^ x.unit ≤ den * 2 ^ 2045 := by
    gcongr
    · decide
    · exact unit_le hfinite
  have hbound := (h.lt_of_high hden).trans_le (Nat.mul_le_mul_left (2 ^ 53) hunit)
  have hsplit {a b c d : Nat} (h : a + b = c + d) :
      2 ^ a * (den * 2 ^ b) = 2 ^ c * den * 2 ^ d := by
    rw [Nat.mul_left_comm, ← Nat.pow_add, h, Nat.pow_add, ← Nat.mul_assoc, Nat.mul_comm den]
  rw [hsplit (show 53 + 2045 = 1024 + 1074 from rfl)] at hbound
  exact Nat.lt_of_mul_lt_mul_right hbound

theorem RoundsTo.den_le {num den : Nat} (h : RoundsTo x num den) (hx : x.magnitude ≠ 0) :
    den ≤ 2 ^ 1076 * num := by
  have hleast : 1 ≤ 4 * x.significand - if isNarrow x then 1 else 2 := by
    have := significand_ne_zero hx
    split <;> omega
  calc den ≤ den * 2 ^ x.unit := Nat.le_mul_of_pos_right _ (Nat.two_pow_pos _)
    _ ≤ (4 * x.significand - if isNarrow x then 1 else 2) * (den * 2 ^ x.unit) :=
      Nat.le_mul_of_pos_left _ hleast
    _ ≤ 4 * (num * 2 ^ 1074) := h.low
    _ = 2 ^ 1076 * num := by
      rw [Nat.mul_comm num, ← Nat.mul_assoc, show 1076 = 2 + 1074 from rfl, Nat.pow_add]

theorem roundsTo_of_contains (h : (Interval.of x).Contains (d * 10 ^ e)) :
    RoundsTo x (d * Nat.pow 10 e.toNat) (Nat.pow 10 (-e).toNat) := by
  rw [← ratio_eq] at h
  exact roundsTo_of_holds ((Interval.contains_iff _ _ (Nat.pow_pos (by decide))).1 h)

theorem size_le (h : (Interval.of x).Contains (d * 10 ^ e)) (hd : d ≠ 0)
    (hfinite : x.isFinite = true) : (digits d).length + e ≤ 310 := by
  by_contra hlarge
  have hden : 0 < Nat.pow 10 (-e).toNat := Nat.pow_pos (by decide)
  have hround := (roundsTo_of_contains h).lt_pow hden.ne' hfinite
  have hgrow : 10 ^ 310 * Nat.pow 10 (-e).toNat ≤ d * Nat.pow 10 e.toNat := by
    refine Nat.le_of_mul_le_mul_left ?_ (show 0 < 10 by decide)
    calc 10 * (10 ^ 310 * Nat.pow 10 (-e).toNat) = 10 ^ (311 + (-e).toNat) := by
          rw [← Nat.mul_assoc, ← Nat.pow_succ', Nat.pow_eq, ← Nat.pow_add]
      _ ≤ 10 ^ ((digits d).length + e.toNat) := Nat.pow_le_pow_right (by decide) (by omega)
      _ = 10 ^ (digits d).length * 10 ^ e.toNat := Nat.pow_add _ _ _
      _ ≤ 10 * d * 10 ^ e.toNat := Nat.mul_le_mul_right _ (pow_length_digits_le hd)
      _ = 10 * (d * Nat.pow 10 e.toNat) := Nat.mul_assoc _ _ _
  have hless := Nat.lt_of_mul_lt_mul_right (hgrow.trans_lt hround)
  exact absurd hless (by decide +kernel)

theorem le_size (h : (Interval.of x).Contains (d * 10 ^ e)) (hx : x.magnitude ≠ 0) :
    -330 ≤ (digits d).length + e := by
  by_contra hsmall
  have hround := (roundsTo_of_contains h).den_le hx
  have hshrink : d * Nat.pow 10 e.toNat * 10 ^ 330 < Nat.pow 10 (-e).toNat := by
    have hlength := Nat.mul_lt_mul_of_pos_right (lt_pow_length_digits d)
      (show 0 < 10 ^ e.toNat from Nat.pow_pos (by decide))
    calc d * 10 ^ e.toNat * 10 ^ 330 < 10 ^ (digits d).length * 10 ^ e.toNat * 10 ^ 330 :=
          Nat.mul_lt_mul_of_pos_right hlength (Nat.pow_pos (by decide))
      _ = 10 ^ ((digits d).length + e.toNat + 330) := by rw [← Nat.pow_add, ← Nat.pow_add]
      _ ≤ 10 ^ (-e).toNat := Nat.pow_le_pow_right (by decide) (by omega)
  have hless := hshrink.trans_le hround
  rw [Nat.mul_comm] at hless
  exact absurd (Nat.lt_of_mul_lt_mul_right hless) (by decide +kernel)

/-- A decimal that rounds to a double is read as that double. -/
theorem ofDecimal_of_contains (h : (Interval.of x).Contains (d * 10 ^ e)) (hx : x.magnitude ≠ 0)
    (hfinite : x.isFinite = true) : ofDecimal x.negative d e = x := by
  have hround := roundsTo_of_contains h
  have hden : Nat.pow 10 (-e).toNat ≠ 0 := (Nat.pow_pos (by decide)).ne'
  have hd : d ≠ 0 := by
    rintro rfl
    exact hround.num_ne_zero hden hx (Nat.zero_mul _)
  unfold ofDecimal
  dsimp only
  rw [if_neg hd, if_neg (Int.not_lt.2 (size_le h hd hfinite)), if_neg (Int.not_lt.2 (le_size h hx)),
    hround.ofRatio_eq hden hx hfinite, ofMagnitude_self]

end decimal

/-! Positional texts -/

/-- Digits with at most one point between them, and the decimal that they stand for. -/
inductive DecimalText : List Char → Nat → Int → Prop
  | whole {ds : List Char} : ds ≠ [] → (∀ c ∈ ds, c.isDigit = true) →
    DecimalText ds (ofDigits ds) 0
  | fraction {ds fs : List Char} : ds ≠ [] → (∀ c ∈ ds, c.isDigit = true) → fs ≠ [] →
    (∀ c ∈ fs, c.isDigit = true) →
    DecimalText (ds ++ '.' :: fs) (ofDigits (ds ++ fs)) (-fs.length)

namespace DecimalText

variable {cs : List Char} {d : Nat} {e : Int}

theorem exists_cons (h : DecimalText cs d e) : ∃ c rest, cs = c :: rest ∧ c.isDigit = true := by
  cases h with
  | whole hne hds =>
    obtain ⟨c, rest, rfl⟩ := List.exists_cons_of_ne_nil hne
    exact ⟨c, rest, rfl, hds c List.mem_cons_self⟩
  | @fraction ds fs hne hds _ _ =>
    obtain ⟨c, rest, rfl⟩ := List.exists_cons_of_ne_nil hne
    exact ⟨c, rest ++ '.' :: fs, rfl, hds c List.mem_cons_self⟩

theorem readUnsigned_eq (h : DecimalText cs d e) (negative : Bool) :
    readUnsigned negative cs = some (ofDecimal negative d e) := by
  cases h with
  | whole hne hds =>
    have hspan : (cs ++ []).span Char.isDigit = (cs, []) := span_append hds nofun
    rw [List.append_nil] at hspan
    have hempty : cs.isEmpty = false := List.isEmpty_eq_false_iff.2 hne
    simp only [readUnsigned, hspan, hempty, Bool.false_and, Bool.false_eq_true, if_false,
      List.append_nil, List.length_nil]
    rfl
  | @fraction ds fs hne hds hfs hdigits =>
    have hspan : (ds ++ '.' :: fs).span Char.isDigit = (ds, '.' :: fs) := span_append hds (by simp)
    have hfraction : (fs ++ []).span Char.isDigit = (fs, []) := span_append hdigits nofun
    rw [List.append_nil] at hfraction
    have hempty : ds.isEmpty = false := List.isEmpty_eq_false_iff.2 hne
    simp only [readUnsigned, hspan, hfraction, hempty, Bool.false_and, Bool.false_eq_true, if_false,
      Int.zero_sub]

/-- What starts with a digit spells no infinity. -/
theorem readMagnitude_eq (h : DecimalText cs d e) (negative : Bool) :
    readMagnitude negative cs = some (ofDecimal negative d e) := by
  obtain ⟨c, rest, hcs, hc⟩ := h.exists_cons
  have hletter {letter : Char} (hl : letter.isDigit = false) : c.toLower ≠ letter := by
    rw [toLower_of_isDigit hc]
    rintro rfl
    rw [hc] at hl
    cases hl
  have hfirst {word : String} (hword : String.ofList (cs.map Char.toLower) = word) :
      word.toList.head? = some c.toLower := by
    rw [← hword, String.toList_ofList, hcs, List.map_cons]
    rfl
  rw [← h.readUnsigned_eq negative]
  unfold readMagnitude
  split
  · next hword => exact absurd (Option.some.inj (hfirst hword)).symm (hletter rfl)
  · next hword => exact absurd (Option.some.inj (hfirst hword)).symm (hletter rfl)
  · next hword => exact absurd (Option.some.inj (hfirst hword)).symm (hletter rfl)
  · rfl

/-- A sign in front of the text is that of the double. -/
theorem readReal_eq (h : DecimalText cs d e) (negative : Bool) :
    readReal ((if negative then ['-'] else []) ++ cs) = some (ofDecimal negative d e) := by
  cases negative with
  | true => exact h.readMagnitude_eq true
  | false =>
    obtain ⟨c, rest, rfl, hc⟩ := h.exists_cons
    rw [← h.readMagnitude_eq false]
    change readReal (c :: rest) = _
    unfold readReal
    split
    · next heq => cases heq; cases hc
    · next heq => cases heq; cases hc
    · rfl

end DecimalText

theorem ofDigits_zeros (k : Nat) (cs : List Char) :
    ofDigits (List.replicate k '0' ++ cs) = ofDigits cs := by
  have hzeros : ofDigits ([] ++ List.replicate k '0') = 0 := by
    rw [ofDigits_replicate]
    exact Nat.zero_mul _
  rw [List.nil_append] at hzeros
  unfold ofDigits at hzeros ⊢
  rw [List.foldl_append, hzeros]

theorem isDigit_zeros (n : Int) : ∀ c ∈ zeros n, c.isDigit = true := by
  intro c hc
  rw [List.eq_of_mem_replicate hc]
  rfl

section positional

variable {s : Shortest} (hne : s.digits ≠ []) (hdigits : ∀ c ∈ s.digits, c.isDigit = true)

include hne hdigits

/-- All digits after the point, which has zeros behind it. -/
theorem exists_decimalText_small (h : s.point ≤ 0) :
    ∃ d e, DecimalText (['0', '.'] ++ zeros (-s.point) ++ s.digits) d e ∧
      (d : ℚ) * 10 ^ e = s.toRat := by
  have htext : DecimalText (['0'] ++ '.' :: (zeros (-s.point) ++ s.digits)) _ _ :=
    .fraction (List.cons_ne_nil _ _) (isDigit_zeros 1) (List.append_ne_nil_of_right_ne_nil _ hne)
      fun c hc => (List.mem_append.1 hc).elim (isDigit_zeros _ c) (hdigits c)
  refine ⟨_, _, htext, ?_⟩
  have hvalue : ofDigits (['0'] ++ (zeros (-s.point) ++ s.digits)) = ofDigits s.digits :=
    (ofDigits_zeros 1 _).trans (ofDigits_zeros _ _)
  rw [hvalue, List.length_append, zeros, List.length_replicate, Shortest.toRat]
  congr 2
  omega

/-- All digits in front of the point, with zeros up to it. -/
theorem exists_decimalText_whole (h : s.digits.length ≤ s.point) :
    ∃ d e, DecimalText (s.digits ++ zeros (s.point - s.digits.length) ++ []) d e ∧
      (d : ℚ) * 10 ^ e = s.toRat := by
  have htext : DecimalText (s.digits ++ zeros (s.point - s.digits.length)) _ _ :=
    .whole (List.append_ne_nil_of_left_ne_nil hne _)
      fun c hc => (List.mem_append.1 hc).elim (hdigits c) (isDigit_zeros _ c)
  rw [List.append_nil]
  refine ⟨_, _, htext, ?_⟩
  rw [zeros, ofDigits_replicate, Nat.cast_mul, Nat.cast_pow, Nat.cast_ofNat, zpow_zero, mul_one,
    ← zpow_natCast, Shortest.toRat]
  congr 2
  omega

/-- The point among the digits. -/
theorem exists_decimalText_split (hpos : 0 < s.point) (h : s.point < s.digits.length) :
    ∃ d e, DecimalText (s.digits.take s.point.toNat ++ ['.'] ++ s.digits.drop s.point.toNat) d e ∧
      (d : ℚ) * 10 ^ e = s.toRat := by
  have hbefore : s.digits.take s.point.toNat ≠ [] := by
    rw [Ne, List.take_eq_nil_iff, not_or]
    exact ⟨by omega, hne⟩
  have hafter : s.digits.drop s.point.toNat ≠ [] := by
    rw [Ne, List.drop_eq_nil_iff]
    omega
  have htext : DecimalText (s.digits.take s.point.toNat ++ '.' :: s.digits.drop s.point.toNat)
      _ _ :=
    .fraction hbefore (fun c hc => hdigits c (List.mem_of_mem_take hc)) hafter
      fun c hc => hdigits c (List.mem_of_mem_drop hc)
  rw [List.append_assoc]
  refine ⟨_, _, htext, ?_⟩
  rw [List.take_append_drop, List.length_drop, Shortest.toRat]
  congr 2
  omega

/-- The positional form writes the digits as they are and fills up with zeros. -/
theorem exists_decimalText :
    ∃ d e, DecimalText (s.positional []) d e ∧ (d : ℚ) * 10 ^ e = s.toRat := by
  unfold Shortest.positional
  dsimp only
  split
  · next hpoint => exact exists_decimalText_small hne hdigits hpoint
  · next hpoint =>
    split
    · next hwhole => exact exists_decimalText_whole hne hdigits hwhole
    · next hwhole =>
      exact exists_decimalText_split hne hdigits (Int.not_le.1 hpoint) (Int.not_le.1 hwhole)

end positional

/-! What is written for a double -/

theorem isFinite_iff {x : Binary64} :
    x.isFinite = true ↔ x.isNaN = false ∧ x.isInfinite = false := by
  rw [isFinite, isNaN, isInfinite, decide_eq_true_eq, decide_eq_false_iff_not, beq_eq_false_iff_ne]
  omega

theorem digits_shortest_ne_nil (tie : Tie) {x : Binary64} (hx : x.magnitude ≠ 0) :
    (shortest tie x).digits ≠ [] := by
  intro hnil
  have hzero : (shortest tie x).toRat = ((0 : Nat) : ℚ) * 10 ^ (0 : Int) := by
    rw [Shortest.toRat, hnil]
    simp [ofDigits]
  have hcontains := contains_shortest tie hx
  rw [hzero] at hcontains
  exact (roundsTo_of_contains hcontains).num_ne_zero (by decide) hx (Nat.zero_mul _)

/-- A finite double is written as a sign and a positional text that is read as the double. -/
theorem exists_showReal {x : Binary64} (hfinite : x.isFinite = true) :
    ∃ cs d e, showReal x = String.ofList ((if x.negative then ['-'] else []) ++ cs) ∧
      DecimalText cs d e ∧ ofDecimal x.negative d e = x := by
  obtain ⟨hnumber, hbounded⟩ := isFinite_iff.1 hfinite
  by_cases hx : x.magnitude = 0
  · have hsignificand : x.significand = 0 := by
      have := magnitude_eq x
      omega
    refine ⟨['0'], _, _, ?_, .whole (List.cons_ne_nil _ _) (isDigit_zeros 1), ?_⟩
    · simp only [showReal, hnumber, hbounded, hsignificand, Bool.false_eq_true, if_false, if_true]
    · have hzero : zero x.negative = x := by
        have := ofMagnitude_self x
        rwa [hx] at this
      exact hzero
  · have hsignificand := significand_ne_zero hx
    have hcontains := contains_shortest .up hx
    obtain ⟨d, e, htext, hvalue⟩ := exists_decimalText (digits_shortest_ne_nil .up hx)
      fun c hc => isDigit_of_mem_shortest hc
    rw [← hvalue] at hcontains
    refine ⟨_, d, e, ?_, htext, ofDecimal_of_contains hcontains hx hfinite⟩
    simp only [showReal, hnumber, hbounded, hsignificand, Bool.false_eq_true, if_false]

theorem showReal_of_isInfinite {x : Binary64} (h : x.isInfinite = true) :
    infinity x.negative = x ∧
      showReal x = String.ofList ((if x.negative then ['-'] else []) ++ ['i', 'n', 'f']) := by
  have hmagnitude : x.magnitude = infinityMagnitude := eq_of_beq h
  have hnumber : x.isNaN = false := by
    rw [isNaN, hmagnitude]
    rfl
  constructor
  · rw [infinity, ← hmagnitude, ofMagnitude_self]
  · simp only [showReal, hnumber, h, Bool.false_eq_true, if_false, if_true]

/-- What is written for a double reads as that double. -/
theorem readReal_showReal {x : Binary64} (h : x.isNaN = false) :
    readReal (showReal x).toList = some x := by
  cases hinfinite : x.isInfinite with
  | true =>
    obtain ⟨hx, hshow⟩ := showReal_of_isInfinite hinfinite
    rw [hshow, String.toList_ofList, ← hx]
    cases x.negative <;> decide +kernel
  | false =>
    obtain ⟨cs, d, e, hshow, htext, hvalue⟩ := exists_showReal (isFinite_iff.2 ⟨h, hinfinite⟩)
    rw [hshow, String.toList_ofList, htext.readReal_eq, hvalue]

/-! Whole numbers read as a double -/

theorem magnitude_ofMagnitude (negative : Bool) {m : Nat} (h : m < 2 ^ 63) :
    (ofMagnitude negative m).magnitude = m := by
  simp only [ofMagnitude, magnitude, UInt64.toNat_ofNat', Nat.one_shiftLeft]
  split <;> omega

theorem isNaN_ofMagnitude (negative : Bool) {m : Nat} (h : m ≤ infinityMagnitude) :
    (ofMagnitude negative m).isNaN = false := by
  have hsmall : m < 2 ^ 63 := h.trans_lt (by decide)
  rw [isNaN, decide_eq_false_iff_not, Nat.not_lt, magnitude_ofMagnitude _ hsmall]
  exact h

theorem isNaN_ofRatio (negative : Bool) {num den : Nat} (hnum : num ≠ 0) (hden : den ≠ 0) :
    (ofRatio negative num den).isNaN = false := by
  obtain ⟨m, hm⟩ : ∃ m, ofRatio negative num den =
      if m < infinityMagnitude then ofMagnitude negative m else infinity negative :=
    ⟨_, ofRatio_eq hnum hden (.of_guess hnum hden) negative⟩
  rw [hm]
  split
  · next h => exact isNaN_ofMagnitude negative h.le
  · exact isNaN_ofMagnitude negative le_rfl

theorem decimalText_of_readDigits {cs : List Char} {n : Nat} (h : readDigits cs = some n) :
    DecimalText cs n 0 := by
  unfold readDigits at h
  split at h
  · next hdigits =>
    cases h
    simp only [Bool.and_eq_true, Bool.not_eq_true', List.isEmpty_eq_false_iff,
      List.all_eq_true] at hdigits
    exact .whole hdigits.1 hdigits.2
  · cases h

/-- The sign and the digits of a whole number. -/
theorem exists_of_readInt {cs : List Char} {i : Int} (h : readInt cs = some i) :
    ∃ negative n, i = (if negative then -(n : Int) else n) ∧
      readReal cs = some (ofDecimal negative n 0) := by
  have hplain {ds : List Char} {n : Nat} (hn : readDigits ds = some n) :
      readReal ds = some (ofDecimal false n 0) :=
    (decimalText_of_readDigits hn).readReal_eq false
  unfold readInt at h
  split at h
  · obtain ⟨_, hread, rfl⟩ := Option.map_eq_some_iff.1 h
    obtain ⟨n, hn, heq⟩ := Option.bind_eq_some_iff.1 hread
    cases heq
    exact ⟨true, n, rfl, (decimalText_of_readDigits hn).readMagnitude_eq true⟩
  · obtain ⟨n, hn, rfl⟩ := Option.map_eq_some_iff.1 h
    unfold readNat at hn
    split at hn
    · exact ⟨false, n, rfl, (decimalText_of_readDigits hn).readMagnitude_eq false⟩
    · exact ⟨false, n, rfl, hplain hn⟩

theorem ofDecimal_whole (negative : Bool) {n : Nat} (hpos : n ≠ 0) (h : n ≤ 2 ^ 63) :
    ofDecimal negative n 0 = ofRatio negative n 1 := by
  have hlength : (digits n).length ≤ 310 := by
    by_contra hlong
    have hpow : 10 ^ 311 ≤ 10 ^ (digits n).length := Nat.pow_le_pow_right (by decide) (by omega)
    have := hpow.trans (pow_length_digits_le hpos)
    exact absurd (this.trans (Nat.mul_le_mul_left 10 h)) (by decide +kernel)
  unfold ofDecimal
  dsimp only
  rw [if_neg hpos, if_neg (by omega), if_neg (by omega)]
  change ofRatio negative (n * 1) 1 = _
  rw [Nat.mul_one]

theorem toInt_of_toInt64? {n : Int} {i : Int64} (h : toInt64? n = some i) :
    i.toInt = n ∧ n.natAbs ≤ 2 ^ 63 := by
  unfold toInt64? at h
  split at h
  · next hrange =>
    simp only [Bool.and_eq_true, decide_eq_true_eq] at hrange
    cases h
    have hlow : Int64.minValue.toInt = -2 ^ 63 := by decide
    have hhigh : Int64.maxValue.toInt = 2 ^ 63 - 1 := by decide
    rw [hlow, hhigh] at hrange
    exact ⟨Int64.toInt_ofInt_of_le (by omega) (by omega), by omega⟩
  · cases h

/-- A word that reads as a whole number and as a real is the same number either way. -/
theorem same_of_readInt64 {cs : List Char} {i : Int64} {x : Binary64} (h : readInt64 cs = some i)
    (k : readReal cs = some x) : (ofInt i.toInt).same x = true := by
  obtain ⟨n, hn, hi⟩ := Option.bind_eq_some_iff.1 h
  obtain ⟨negative, m, hsigned, hreal⟩ := exists_of_readInt hn
  obtain ⟨htoInt, hbound⟩ := toInt_of_toInt64? hi
  rw [hreal] at k
  cases k
  rw [htoInt]
  have habs : n.natAbs = m := by
    cases negative <;> simp at hsigned <;> omega
  by_cases hm : m = 0
  · have hzero : n = 0 := Int.natAbs_eq_zero.1 (habs.trans hm)
    rw [hm, hzero]
    cases negative <;> decide +kernel
  · have hsign : decide (n < 0) = negative := by
      cases negative <;> simp at hsigned ⊢ <;> omega
    rw [habs] at hbound
    rw [ofDecimal_whole negative hm hbound, ofInt, habs, hsign, same_self,
      isNaN_ofRatio negative hm Nat.one_ne_zero]
    rfl

end PdfConform.Number
