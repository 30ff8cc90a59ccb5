import PdfConform.Json.Reader
import PdfConform.Json.Writer
import Mathlib.Data.List.DropRight
import Mathlib.Data.List.TakeDrop

/-! The parts of a JSON text that hold no others: blanks, strings and numerals. Each is read as
what was written, whatever may follow it. -/
namespace PdfConform

/-- A run of characters ends where the next one is none of them. -/
theorem span_append {p : Char → Bool} {cs rest : List Char} (hcs : ∀ c ∈ cs, p c = true)
    (hrest : ∀ c ∈ rest.head?, p c = false) : (cs ++ rest).span p = (cs, rest) := by
  rw [List.span_eq_takeWhile_dropWhile, List.takeWhile_append_of_pos hcs,
    List.dropWhile_append_of_pos hcs]
  cases rest with
  | nil => simp
  | cons c rest => simp [hrest c rfl]

/-- A digit is the same in either case. -/
theorem toLower_of_isDigit {c : Char} (h : c.isDigit = true) : c.toLower = c := by
  have hnot : ¬(c.val ≥ 'A'.val ∧ c.val ≤ 'Z'.val) := by
    simp only [Char.isDigit, Bool.and_eq_true, decide_eq_true_eq] at h
    exact fun hupper => absurd (UInt32.le_trans hupper.1 h.2) (by decide)
  unfold Char.toLower
  exact dif_neg hnot

namespace Json

def Blank (cs : List Char) : Prop := ∀ c ∈ cs, isSpace c = true

theorem blank_nil : Blank [] := nofun

theorem blank_indent (depth : Nat) : Blank (indent depth) := by
  intro c hc
  rcases List.mem_cons.1 hc with rfl | hc
  · rfl
  · rw [List.eq_of_mem_replicate hc]; rfl

theorem skipSpace_append {blank : List Char} (h : Blank blank) (cs : List Char) :
    skipSpace (blank ++ cs) = skipSpace cs :=
  List.dropWhile_append_of_pos h

theorem skipSpace_cons {c : Char} (h : isSpace c = false) (cs : List Char) :
    skipSpace (c :: cs) = c :: cs :=
  List.dropWhile_cons_of_neg (by simp [h])

theorem skipSpace_skipSpace (cs : List Char) : skipSpace (skipSpace cs) = skipSpace cs :=
  List.dropWhile_idempotent isSpace cs

theorem hex4?_control : ∀ n < 0x20,
    hex4? '0' '0' (Text.hexDigit (n / 16)) (Text.hexDigit (n % 16)) = some n := by
  decide

theorem readString_plain {c : Char} (hquote : c ≠ '"') (hback : c ≠ '\\') (h : ¬c.toNat < 0x20)
    (soFar rest : List Char) :
    readString (some soFar) (c :: rest) = readString (some (c :: soFar)) rest := by
  rw [readString, if_neg h]
  · rfl
  · exact hquote
  · exact fun _ _ _ _ _ hc => absurd hc hback
  · exact fun _ _ hc => absurd hc hback

theorem readString_escape (c : Char) (soFar rest : List Char) :
    readString (some soFar) (escape c ++ rest) = readString (some (c :: soFar)) rest := by
  unfold escape
  iterate 7
    split
    · next h => subst h; rfl
  split
  · next h =>
    have hhex := hex4?_control c.toNat h
    have hlow : isLowSurrogate c.toNat = false := by simp [isLowSurrogate]; omega
    have hhigh : isHighSurrogate c.toNat = false := by simp [isHighSurrogate]; omega
    simp [readString, hhex, hlow, hhigh]
  · next hquote hback _ _ _ _ _ h => exact readString_plain hquote hback h soFar rest

theorem readString_flatMap (cs soFar rest : List Char) :
    readString (some soFar) (cs.flatMap escape ++ '"' :: rest) =
      some (some (String.ofList (soFar.reverse ++ cs)), rest) := by
  induction cs generalizing soFar with
  | nil => simp [readString]
  | cons c cs ih => simp [readString_escape, ih]

theorem readString_writeString (s : String) (rest : List Char) :
    readString (some []) (s.toList.flatMap escape ++ '"' :: rest) = some (some s, rest) := by
  simp [readString_flatMap]

theorem writeString_append (s : String) (rest : List Char) :
    writeString s ++ rest = '"' :: (s.toList.flatMap escape ++ '"' :: rest) := by
  simp [writeString]

end Json

/-- Digits with no zero in front of others. What follows a point are digits, and an exponent
has some. -/
structure Numeral.WellFormed (n : Numeral) : Prop where
  whole : n.whole ≠ []
  digits : ∀ c ∈ n.whole, c.isDigit = true
  leading : n.whole.head? = some '0' → n.whole = ['0']
  fraction : ∀ c ∈ n.fraction, c.isDigit = true
  exponent : ∀ e ∈ n.exponent, e.2 ≠ [] ∧ ∀ c ∈ e.2, c.isDigit = true

theorem Number.leading_digits (n : Nat) (h : (digits n).head? = some '0') : digits n = ['0'] := by
  fun_induction digits n with
  | case1 n hn => simpa using h
  | case2 n hn ih =>
    rw [List.head?_append_of_ne_nil _ (digits_ne_nil _)] at h
    have hzero : ofDigits (digits (n / 10)) = 0 := by rw [ih h]; rfl
    rw [ofDigits_digits] at hzero
    omega

namespace Numeral

theorem wellFormed_ofInt (i : Int) : (ofInt i).WellFormed where
  whole := Number.digits_ne_nil _
  digits := List.all_eq_true.1 (Number.all_isDigit_digits _)
  leading := Number.leading_digits _
  fraction := nofun
  exponent := nofun

theorem toInt?_ofInt (i : Int) : (ofInt i).toInt? = some i := by
  have hzero : i < 0 → Number.digits i.natAbs ≠ ['0'] := by
    intro hi h
    have hvalue := Number.ofDigits_digits i.natAbs
    rw [h] at hvalue
    have : i.natAbs = 0 := hvalue.symm
    omega
  by_cases hi : i < 0
  · have hvalue : -(i.natAbs : Int) = i := by omega
    simp only [toInt?, ofInt, hi, hzero hi, hvalue, Number.ofDigits_digits, List.isEmpty_nil,
      Option.isSome_none, Bool.not_true, Bool.or_self, Bool.false_eq_true, decide_true, if_true,
      if_false]
  · have hvalue : (i.natAbs : Int) = i := by omega
    simp only [toInt?, ofInt, hi, hvalue, Number.ofDigits_digits, List.isEmpty_nil,
      Option.isSome_none, Bool.not_true, Bool.or_self, Bool.false_eq_true, decide_false, if_false]

end Numeral

namespace Json

/-- Nothing in front of this can be read on as part of a numeral. -/
def EndsNumeral (rest : List Char) : Prop :=
  ∀ c ∈ rest.head?, c.isDigit = false ∧ c ≠ '.' ∧ c ≠ 'e' ∧ c ≠ 'E'

theorem endsNumeral_cons {c : Char} (h : c.isDigit = false ∧ c ≠ '.' ∧ c ≠ 'e' ∧ c ≠ 'E')
    (rest : List Char) : EndsNumeral (c :: rest) := by
  intro d hd
  cases hd
  exact h

theorem endsNumeral_append {blank rest : List Char} (hblank : Blank blank)
    (hrest : EndsNumeral rest) : EndsNumeral (blank ++ rest) := by
  cases blank with
  | nil => exact hrest
  | cons c blank =>
    have hspace := hblank c List.mem_cons_self
    simp only [isSpace, Bool.or_eq_true, beq_iff_eq] at hspace
    rcases hspace with ((rfl | rfl) | rfl) | rfl <;> exact endsNumeral_cons (by decide) _

def writeFraction (ds : List Char) : List Char := if ds.isEmpty then [] else '.' :: ds

def writeExponent : Option (Bool × List Char) → List Char
  | none => []
  | some (negative, ds) => 'e' :: (if negative then '-' else '+') :: ds

theorem writeNumeral_eq (n : Numeral) :
    writeNumeral n = (if n.negative then ['-'] else []) ++ n.whole ++ writeFraction n.fraction ++
      writeExponent n.exponent := rfl

theorem readWhole_append {ds rest : List Char} (hne : ds ≠ []) (hds : ∀ c ∈ ds, c.isDigit = true)
    (hleading : ds.head? = some '0' → ds = ['0']) (hrest : ∀ c ∈ rest.head?, c.isDigit = false) :
    readWhole (ds ++ rest) = some (ds, rest) := by
  unfold readWhole
  rw [span_append hds hrest]
  split <;> simp_all

theorem readFraction_append {ds rest : List Char} (hds : ∀ c ∈ ds, c.isDigit = true)
    (hrest : ∀ c ∈ rest.head?, c.isDigit = false ∧ c ≠ '.') :
    readFraction (writeFraction ds ++ rest) = some (ds, rest) := by
  cases ds with
  | nil =>
    change readFraction rest = _
    unfold readFraction
    split
    · exact absurd rfl (hrest '.' rfl).2
    · rfl
  | cons d ds =>
    change readFraction ('.' :: (d :: ds ++ rest)) = _
    rw [readFraction, span_append hds fun c hc => (hrest c hc).1]

theorem readExponent_append {e : Option (Bool × List Char)} {rest : List Char}
    (hds : ∀ x ∈ e, x.2 ≠ [] ∧ ∀ c ∈ x.2, c.isDigit = true) (hrest : EndsNumeral rest) :
    readExponent (writeExponent e ++ rest) = some (e, rest) := by
  cases e with
  | none =>
    cases rest with
    | nil => rfl
    | cons c rest =>
      obtain ⟨_, _, he, hE⟩ := hrest c rfl
      simp [readExponent, writeExponent, he, hE]
  | some e =>
    obtain ⟨negative, ds⟩ := e
    obtain ⟨hne, hds⟩ : ds ≠ [] ∧ ∀ c ∈ ds, c.isDigit = true := hds _ rfl
    have hspan := span_append hds fun c hc => (hrest c hc).1
    cases ds with
    | nil => exact absurd rfl hne
    | cons d ds =>
      cases negative <;>
      · simp only [readExponent, writeExponent, List.cons_append, decide_true, Bool.true_or,
          Bool.false_eq_true, if_true, if_false]
        rw [← List.cons_append, hspan]

theorem head_writeExponent {rest : List Char} (hrest : EndsNumeral rest)
    (e : Option (Bool × List Char)) :
    ∀ c ∈ (writeExponent e ++ rest).head?, c.isDigit = false ∧ c ≠ '.' := by
  cases e with
  | none => exact fun c hc => ⟨(hrest c hc).1, (hrest c hc).2.1⟩
  | some e => simp [writeExponent]

theorem head_writeFraction {rest : List Char} (hrest : ∀ c ∈ rest.head?, c.isDigit = false)
    (ds : List Char) : ∀ c ∈ (writeFraction ds ++ rest).head?, c.isDigit = false := by
  cases ds with
  | nil => exact hrest
  | cons d ds => simp [writeFraction]

theorem readNumeral_writeNumeral {n : Numeral} (h : n.WellFormed) {rest : List Char}
    (hrest : EndsNumeral rest) : readNumeral (writeNumeral n ++ rest) = some (n, rest) := by
  obtain ⟨negative, whole, fraction, exponent⟩ := n
  have hafter := head_writeExponent hrest exponent
  have hexponent := readExponent_append h.exponent hrest
  have hfraction := readFraction_append h.fraction hafter
  have hwhole := readWhole_append h.whole h.digits h.leading
    (head_writeFraction (fun c hc => (hafter c hc).1) fraction)
  rw [writeNumeral_eq, List.append_assoc, List.append_assoc, List.append_assoc]
  generalize whole ++ (writeFraction fraction ++ (writeExponent exponent ++ rest)) = cs at hwhole ⊢
  simp only at hexponent hfraction hwhole
  cases negative with
  | true => simp [readNumeral, hwhole, hfraction, hexponent]
  | false =>
    cases cs with
    | nil => simp [readWhole] at hwhole
    | cons c cs =>
      -- A whole part never starts with the sign, so none is taken off it.
      have hminus : c ≠ '-' := by
        rintro rfl
        cases hwhole
      simp [readNumeral, hminus, hwhole, hfraction, hexponent]

theorem exists_head_writeNumeral {n : Numeral} (h : n.WellFormed) :
    ∃ c tail, writeNumeral n = c :: tail ∧ (c = '-' ∨ c.isDigit = true) := by
  obtain ⟨d, ds, hwhole⟩ := List.exists_cons_of_ne_nil h.whole
  rw [writeNumeral_eq, hwhole]
  cases n.negative with
  | true => exact ⟨_, _, rfl, .inl rfl⟩
  | false => exact ⟨_, _, rfl, .inr (h.digits d (hwhole ▸ List.mem_cons_self))⟩

theorem ne_of_numeral {c d : Char} (h : c = '-' ∨ c.isDigit = true)
    (hd : ¬(d = '-' ∨ d.isDigit = true)) : c ≠ d :=
  fun heq => hd (heq ▸ h)

theorem isSpace_of_numeral {c : Char} (h : c = '-' ∨ c.isDigit = true) : isSpace c = false := by
  simp [isSpace, ne_of_numeral h]

end Json

end PdfConform
