import Mathlib.Algebra.GroupWithZero.Nat
import Mathlib.Data.List.Basic
import Mathlib.Data.Option.Basic
import PdfConform.Document.Date
import PdfConform.Proofs.Json.Lexeme

/-! What the characters of a date stand for. Its digits are cut by position alone, so they are the
year and some of the fields of the date that is read, each padded to its width, and the fields
beyond have their first values. -/
namespace PdfConform

namespace Number

theorem digit_of_isDigit {c : Char} (h : c.isDigit = true) :
    c.toNat - 48 < 10 ∧ digit (c.toNat - 48) = c := by
  simp only [Char.isDigit, Bool.and_eq_true, decide_eq_true_eq] at h
  have hlow : 48 ≤ c.toNat := UInt32.le_iff_toNat_le.1 h.1
  have hhigh : c.toNat ≤ 57 := UInt32.le_iff_toNat_le.1 h.2
  refine ⟨by omega, ?_⟩
  rw [digit, Nat.add_sub_cancel' hlow, Char.ofNat_toNat]

end Number

namespace Date

open Number

/-! Numbers of a fixed width -/

theorem pad_one (n : Nat) : pad 1 n = digits n := by
  have hlength : 0 < (digits n).length := List.length_pos_iff.2 (digits_ne_nil n)
  simp only [pad, Nat.sub_eq_zero_of_le hlength, List.replicate_zero, List.nil_append]

theorem pad_succ (width n : Nat) :
    pad (width + 2) n = pad (width + 1) (n / 10) ++ [digit (n % 10)] := by
  dsimp only [pad]
  by_cases h : n < 10
  · have hzero : digits (n / 10) = ['0'] := by
      rw [Nat.div_eq_of_lt h, digits, if_pos (by decide)]
      rfl
    rw [digits, if_pos h, hzero, Nat.mod_eq_of_lt h]
    change List.replicate (width + 1) '0' ++ _ = List.replicate width '0' ++ _ ++ _
    rw [List.replicate_succ']
  · rw [digits.eq_1 n, if_neg h, List.length_append, List.length_singleton, ← List.append_assoc]
    congr 3
    omega

theorem length_pad {width n : Nat} (h : n < 10 ^ (width + 1)) :
    (pad (width + 1) n).length = width + 1 := by
  induction width generalizing n with
  | zero =>
    rw [pad_one, digits, if_pos (by simpa using h)]
    rfl
  | succ width ih =>
    rw [pad_succ, List.length_append, ih, List.length_singleton]
    rw [Nat.pow_succ] at h
    omega

/-- Hours and minutes have two digits. -/
theorem length_pair {n : Nat} (h : n ≤ 59) : (pad 2 n).length = 2 :=
  length_pad (Nat.lt_of_le_of_lt h (by decide))

theorem isDigit_of_mem_pad {width n : Nat} {c : Char} (h : c ∈ pad width n) : c.isDigit = true := by
  rcases List.mem_append.1 h with h | h
  · rw [List.eq_of_mem_replicate h]
    rfl
  · exact List.all_eq_true.1 (all_isDigit_digits n) c h

theorem ofDigits_pad (width n : Nat) : ofDigits (pad (width + 1) n) = n := by
  induction width generalizing n with
  | zero => rw [pad_one, ofDigits_digits]
  | succ width ih =>
    rw [pad_succ, ofDigits_append_singleton, ih, toNat_digit (Nat.mod_lt n (by decide))]
    omega

/-- A text of digits is its own value, padded to its width. -/
theorem pad_ofDigits {ds : List Char} {width : Nat} (hds : ∀ c ∈ ds, c.isDigit = true)
    (hlength : ds.length = width + 1) :
    ofDigits ds < 10 ^ (width + 1) ∧ pad (width + 1) (ofDigits ds) = ds := by
  induction width generalizing ds with
  | zero =>
    obtain ⟨c, rfl⟩ := List.length_eq_one_iff.1 hlength
    obtain ⟨hlt, hc⟩ := digit_of_isDigit (hds c List.mem_cons_self)
    have hvalue : ofDigits [c] = c.toNat - 48 := Nat.zero_add _
    rw [hvalue, pad_one, digits, if_pos hlt, hc]
    exact ⟨hlt, rfl⟩
  | succ width ih =>
    obtain ⟨front, c, rfl⟩ :=
      (List.eq_nil_or_concat ds).resolve_left (List.length_pos_iff.1 (by omega))
    rw [List.concat_eq_append] at hds hlength ⊢
    rw [List.length_append, List.length_singleton] at hlength
    obtain ⟨hlt, hc⟩ := digit_of_isDigit (hds c (by simp))
    obtain ⟨hvalue, hpad⟩ := ih (fun d hd => hds d (by simp [hd])) (Nat.succ.inj hlength)
    have hdiv : (10 * ofDigits front + (c.toNat - 48)) / 10 = ofDigits front := by omega
    have hmod : (10 * ofDigits front + (c.toNat - 48)) % 10 = c.toNat - 48 := by omega
    rw [ofDigits_append_singleton, pad_succ, hdiv, hmod, hpad, hc]
    refine ⟨?_, rfl⟩
    rw [Nat.pow_succ]
    omega

/-! The fields after the year -/

def fields (d : Date) : List Nat := [d.month, d.day, d.hour, d.minute, d.second]

/-- The first month and day, and midnight. -/
def firstFields : List Nat := [1, 1, 0, 0, 0]

/-- The fields that two digits each spell; those beyond the digits have their first value. -/
def readFields (ds : List Char) : List Nat → List Nat
  | [] => []
  | first :: firsts => field ds 0 first :: readFields (ds.drop 2) firsts

theorem field_drop (ds : List Char) (width start default : Nat) :
    field (ds.drop width) start default = field ds (width + start) default := by
  have hlength : start < (ds.drop width).length ↔ width + start < ds.length := by
    rw [List.length_drop]
    omega
  unfold field
  rw [if_congr hlength rfl rfl, List.drop_drop]

theorem field_pad {n : Nat} (h : n < 100) (rest : List Char) (default : Nat) :
    field (pad 2 n ++ rest) 0 default = n := by
  have hlength : (pad 2 n).length = 2 := length_pad h
  rw [field, if_pos (by rw [List.length_append]; omega), List.drop_zero, List.take_left' hlength,
    ofDigits_pad]

theorem readFields_nil (firsts : List Nat) : readFields [] firsts = firsts := by
  induction firsts with
  | nil => rfl
  | cons first firsts ih => exact congrArg (first :: ·) ih

theorem readFields_eq (ds : List Char) : readFields (ds.drop 4) firstFields =
    [field ds 4 1, field ds 6 1, field ds 8 0, field ds 10 0, field ds 12 0] := by
  simp only [readFields, firstFields, List.drop_drop, field_drop]

/-- Fields that were written are read, and those that were left out are known. -/
theorem readFields_written {firsts fields : List Nat} {count : Nat}
    (hfields : ∀ n ∈ fields, n < 100) (hlength : fields.length = firsts.length)
    (hrest : fields.drop count = firsts.drop count) :
    readFields ((fields.take count).flatMap (pad 2)) firsts = fields := by
  induction count generalizing firsts fields with
  | zero => exact (readFields_nil firsts).trans hrest.symm
  | succ count ih =>
    cases fields with
    | nil => rw [List.length_eq_zero_iff.1 hlength.symm]; rfl
    | cons n fields =>
      obtain ⟨first, firsts, rfl⟩ := List.exists_cons_of_length_eq_add_one hlength.symm
      obtain ⟨hn, hfields⟩ := List.forall_mem_cons.1 hfields
      rw [List.take_succ_cons, List.flatMap_cons, readFields, field_pad hn,
        List.drop_left' (length_pad hn), ih hfields (Nat.succ.inj hlength) hrest]

/-- Pairs of digits are the fields that they spell. -/
theorem written_readFields {ds : List Char} {firsts : List Nat} {count : Nat}
    (hds : ∀ c ∈ ds, c.isDigit = true) (hlength : ds.length = 2 * count)
    (hcount : count ≤ firsts.length) :
    ((readFields ds firsts).take count).flatMap (pad 2) = ds ∧
      (readFields ds firsts).drop count = firsts.drop count := by
  induction count generalizing ds firsts with
  | zero =>
    obtain rfl : ds = [] := List.length_eq_zero_iff.1 hlength
    exact ⟨rfl, congrArg _ (readFields_nil firsts)⟩
  | succ count ih =>
    obtain ⟨first, firsts, rfl⟩ := List.exists_cons_of_length_pos (Nat.zero_lt_of_lt hcount)
    have htwo : (ds.take 2).length = 2 := by
      rw [List.length_take]
      omega
    have hrest : (ds.drop 2).length = 2 * count := by
      rw [List.length_drop]
      omega
    obtain ⟨hwritten, hleft⟩ := ih (fun c hc => hds c (List.mem_of_mem_drop hc)) hrest
      (Nat.le_of_succ_le_succ hcount)
    have hfield : pad 2 (field ds 0 first) = ds.take 2 := by
      rw [field, if_pos (by omega), List.drop_zero]
      exact (pad_ofDigits (fun c hc => hds c (List.mem_of_mem_take hc)) htwo).2
    refine ⟨?_, hleft⟩
    rw [readFields, List.take_succ_cons, List.flatMap_cons, hfield, hwritten,
      List.take_append_drop]

/-! Zones -/

theorem readDigits_iff_pad {cs : List Char} {n : Nat} (h : cs.length = 2) :
    readDigits cs = some n ↔ n < 100 ∧ cs = pad 2 n := by
  have hne : cs ≠ [] := List.length_pos_iff.1 (by omega)
  rw [readDigits, List.isEmpty_eq_false_iff.2 hne, Bool.not_false, Bool.true_and,
    Option.ite_none_right_eq_some, Option.some_inj, List.all_eq_true]
  constructor
  · rintro ⟨hdigits, rfl⟩
    exact ⟨(pad_ofDigits hdigits h).1, (pad_ofDigits hdigits h).2.symm⟩
  · rintro ⟨_, rfl⟩
    exact ⟨fun _ => isDigit_of_mem_pad, ofDigits_pad 1 n⟩

/-- The text without its apostrophes. -/
def bare (cs : List Char) : List Char := cs.filter (· != '\'')

/-- But for apostrophes the text is the hours or the hours and minutes. -/
def Loose (hour minute : Nat) (cs : List Char) : Prop :=
  bare cs = pad 2 hour ++ pad 2 minute ∨ minute = 0 ∧ bare cs = pad 2 hour

/-- Hours or hours and minutes, with apostrophes anywhere. -/
def LooseOffset (cs : List Char) : Prop :=
  ∃ hour minute, hour ≤ 23 ∧ minute ≤ 59 ∧ Loose hour minute cs

theorem readOffset_eq_some_iff {cs : List Char} {n : Nat} : readOffset cs = some n ↔
    ∃ hour minute, hour ≤ 23 ∧ minute ≤ 59 ∧ Loose hour minute cs ∧
      n = hour * 3600 + minute * 60 := by
  unfold readOffset Loose bare
  generalize cs.filter (· != '\'') = ds
  simp only [Option.guard_eq_some', Option.bind_eq_bind, Option.bind_eq_some_iff, Bool.or_eq_true,
    Bool.and_eq_true, decide_eq_true_eq, Option.pure_def, exists_const]
  constructor
  · rintro ⟨hlength, hour, hhour, h⟩
    have htake : (ds.take 2).length = 2 := by
      rw [List.length_take]
      omega
    obtain ⟨_, hfirst⟩ := (readDigits_iff_pad htake).1 hhour
    split at h
    · next hshort =>
      simp only [Option.bind_eq_some_iff, Option.guard_eq_some'] at h
      obtain ⟨minute, ⟨⟩, _, hlimits, ⟨⟩⟩ := h
      rw [List.take_of_length_le hshort.le] at hfirst
      exact ⟨hour, 0, hlimits.1, hlimits.2, .inr ⟨rfl, hfirst⟩, rfl⟩
    · next hlong =>
      have hdrop : (ds.drop 2).length = 2 := by
        rw [List.length_drop]
        omega
      simp only [Option.bind_eq_some_iff, Option.guard_eq_some'] at h
      obtain ⟨minute, hminute, _, hlimits, ⟨⟩⟩ := h
      obtain ⟨_, hsecond⟩ := (readDigits_iff_pad hdrop).1 hminute
      refine ⟨hour, minute, hlimits.1, hlimits.2, .inl ?_, rfl⟩
      rw [← hfirst, ← hsecond, List.take_append_drop]
  · rintro ⟨hour, minute, hhour, hminute, hds, rfl⟩
    have hread {m : Nat} (h : m ≤ 59) : readDigits (pad 2 m) = some m :=
      (readDigits_iff_pad (length_pair h)).2 ⟨by omega, rfl⟩
    have hh := length_pair (Nat.le_trans hhour (by decide))
    have hm := length_pair hminute
    rcases hds with rfl | ⟨rfl, rfl⟩
    · have hlong : (pad 2 hour ++ pad 2 minute).length = 4 := by
        rw [List.length_append, hh, hm]
      refine ⟨.inr hlong, hour, ?_, ?_⟩
      · rw [List.take_left' hh, hread (by omega)]
      · rw [if_neg (by omega), List.drop_left' hh, hread hminute]
        simp [guard, hhour, hminute]
    · refine ⟨.inl hh, hour, ?_, ?_⟩
      · rw [List.take_of_length_le hh.le, hread (by omega)]
      · rw [if_pos hh]
        simp [hhour, guard]

/-- Universal time is marked by Z with no more than zeros. -/
def utcMarks : List String := ["Z", "Z00", "Z00'", "Z00'00", "Z00'00'"]

def utcTexts : List (List Char) := utcMarks.map String.toList

theorem mem_utcTexts {cs : List Char} : cs ∈ utcTexts ↔ String.ofList cs ∈ utcMarks := by
  constructor
  · intro h
    obtain ⟨s, hs, rfl⟩ := List.mem_map.1 h
    rwa [String.ofList_toList]
  · exact fun h => List.mem_map.2 ⟨_, h, String.toList_ofList⟩

theorem head_of_mem_utcTexts {zone : List Char} (h : zone ∈ utcTexts) : zone.head? = some 'Z' := by
  have hall : ∀ zone ∈ utcTexts, zone.head? = some 'Z' := by decide
  exact hall zone h

/-- How a zone is read: it is absent, it marks universal time, or it is a signed offset. -/
inductive ZoneRead : List Char → Int → Prop
  | absent : ZoneRead [] 0
  | utc {zone : List Char} : zone ∈ utcTexts → ZoneRead zone 0
  | ahead {cs : List Char} {n : Nat} : readOffset cs = some n → ZoneRead ('+' :: cs) n
  | behind {cs : List Char} {n : Nat} : readOffset cs = some n → ZoneRead ('-' :: cs) (-n)

theorem readZone_eq_some_iff {zone : List Char} {offset : Int} :
    readZone zone = some offset ↔ ZoneRead zone offset := by
  constructor
  · intro h
    unfold readZone at h
    split at h
    · cases h
      exact .absent
    · obtain ⟨n, hn, rfl⟩ := Option.map_eq_some_iff.1 h
      exact .ahead hn
    · next rest =>
      cases hn : readOffset rest with
      | none => rw [hn] at h; cases h
      | some n => rw [hn] at h; cases h; exact .behind hn
    · obtain ⟨hmark, ⟨⟩⟩ := Option.ite_none_right_eq_some.1 h
      exact .utc (mem_utcTexts.2 hmark)
  · intro h
    cases h with
    | absent => rfl
    | utc hutc =>
      have hall : ∀ zone ∈ utcTexts, readZone zone = some 0 := by decide +kernel
      exact hall zone hutc
    | ahead hn => rw [readZone, hn]; rfl
    | behind hn => rw [readZone, hn]; rfl

/-- Nothing, a mark of universal time, or a sign and an offset of this form. -/
inductive ZoneForm (Offset : List Char → Prop) : List Char → Prop
  | absent : ZoneForm Offset []
  | utc {zone : List Char} : zone ∈ utcTexts → ZoneForm Offset zone
  | signed {sign : Char} {cs : List Char} : sign = '+' ∨ sign = '-' → Offset cs →
    ZoneForm Offset (sign :: cs)

theorem ZoneForm.not_digit {Offset : List Char → Prop} {zone : List Char}
    (h : ZoneForm Offset zone) : ∀ c ∈ zone.head?, c.isDigit = false := by
  intro c hc
  cases h with
  | absent => cases hc
  | utc hutc =>
    rw [head_of_mem_utcTexts hutc] at hc
    cases hc
    rfl
  | signed hsign _ => cases hc; rcases hsign with rfl | rfl <;> rfl

theorem ZoneRead.form {zone : List Char} {offset : Int} (h : ZoneRead zone offset) :
    ZoneForm LooseOffset zone := by
  have hloose {cs : List Char} {n : Nat} (hread : readOffset cs = some n) : LooseOffset cs := by
    obtain ⟨hour, minute, hhour, hminute, hloose, _⟩ := readOffset_eq_some_iff.1 hread
    exact ⟨hour, minute, hhour, hminute, hloose⟩
  cases h with
  | absent => exact .absent
  | utc hutc => exact .utc hutc
  | ahead hread => exact .signed (.inl rfl) (hloose hread)
  | behind hread => exact .signed (.inr rfl) (hloose hread)

/-! The whole text -/

theorem parseChars_eq_some_iff {cs : List Char} {d : Date} : parseChars cs = some d ↔
    ∃ ds zone, cs.span Char.isDigit = (ds, zone) ∧ ds.length ∈ [4, 6, 8, 10, 12, 14] ∧
      readZone zone = some d.offset ∧ d.isValid = true ∧ d.year = ofDigits (ds.take 4) ∧
      d.fields = readFields (ds.drop 4) firstFields := by
  obtain ⟨ds, zone, hspan⟩ : ∃ ds zone, cs.span Char.isDigit = (ds, zone) := ⟨_, _, rfl⟩
  simp only [parseChars, hspan, readFields_eq, Option.guard_eq_some', Option.bind_eq_bind,
    Option.bind_eq_some_iff, Option.pure_def, Option.some_inj, exists_const]
  constructor
  · rintro ⟨hlength, offset, hzone, hvalid, rfl⟩
    exact ⟨ds, zone, rfl, hlength, hzone, hvalid, rfl, rfl⟩
  · rintro ⟨_, _, ⟨⟩, hlength, hzone, hvalid, hyear, hfields⟩
    obtain ⟨year, month, day, hour, minute, second, offset⟩ := d
    obtain ⟨⟩ := hfields
    obtain rfl := hyear
    exact ⟨hlength, offset, hzone, hvalid, rfl⟩

/-- The year and the first fields after it, as many as given. -/
def leading (d : Date) (count : Nat) : List Char :=
  pad 4 d.year ++ (d.fields.take count).flatMap (pad 2)

theorem isDigit_of_mem_leading {d : Date} {count : Nat} {c : Char} (h : c ∈ d.leading count) :
    c.isDigit = true := by
  rcases List.mem_append.1 h with h | h
  · exact isDigit_of_mem_pad h
  · obtain ⟨n, _, hc⟩ := List.mem_flatMap.1 h
    exact isDigit_of_mem_pad hc

theorem length_year {d : Date} (h : d.year ≤ 9999) : (pad 4 d.year).length = 4 :=
  length_pad (Nat.lt_succ_of_le h)

theorem fields_lt_of_isValid {d : Date} (h : d.isValid = true) : ∀ n ∈ d.fields, n < 100 := by
  have hdays : daysInMonth d.year d.month ≤ 31 := by
    unfold daysInMonth
    split
    · split <;> decide
    all_goals decide
  simp only [isValid, Bool.and_eq_true, decide_eq_true_eq] at h
  simp only [fields, List.forall_mem_cons, List.not_mem_nil, false_implies, implies_true, and_true]
  omega

theorem length_written {ns : List Nat} (h : ∀ n ∈ ns, n < 100) :
    (ns.flatMap (pad 2)).length = 2 * ns.length := by
  induction ns with
  | nil => rfl
  | cons n ns ih =>
    obtain ⟨hn, hns⟩ := List.forall_mem_cons.1 h
    have htwo : (pad 2 n).length = 2 := length_pad hn
    rw [List.flatMap_cons, List.length_append, htwo, ih hns, List.length_cons]
    omega

theorem mem_lengths {n : Nat} : n ∈ [4, 6, 8, 10, 12, 14] ↔ ∃ count ≤ 5, n = 4 + 2 * count := by
  simp only [List.mem_cons, List.not_mem_nil, or_false]
  constructor
  · exact fun h => ⟨(n - 4) / 2, by omega⟩
  · rintro ⟨count, hcount, rfl⟩
    omega

/-- A text is read as a date exactly if it is the year and some of the fields of the date, those
beyond have their first value, and what follows is read as its offset. -/
theorem parseChars_iff_leading {cs : List Char} {d : Date} : parseChars cs = some d ↔
    d.isValid = true ∧ d.year ≤ 9999 ∧ ∃ count zone, count ≤ 5 ∧ cs = d.leading count ++ zone ∧
      d.fields.drop count = firstFields.drop count ∧ readZone zone = some d.offset := by
  rw [parseChars_eq_some_iff]
  constructor
  · rintro ⟨ds, zone, hspan, hlength, hzone, hvalid, hyear, hfields⟩
    obtain ⟨count, hcount, hlength⟩ := mem_lengths.1 hlength
    rw [List.span_eq_takeWhile_dropWhile] at hspan
    obtain ⟨hds, hzone'⟩ := Prod.mk.inj hspan
    have hcs : ds ++ zone = cs := by rw [← hds, ← hzone', List.takeWhile_append_dropWhile]
    have hdigits : ∀ c ∈ ds, c.isDigit = true := fun c hc => List.mem_takeWhile_imp (hds ▸ hc)
    have hfour : (ds.take 4).length = 4 := by
      rw [List.length_take]
      omega
    obtain ⟨hlimit, hpad⟩ := pad_ofDigits (fun c hc => hdigits c (List.mem_of_mem_take hc)) hfour
    have hpairs : (ds.drop 4).length = 2 * count := by
      rw [List.length_drop]
      omega
    have hfound := written_readFields (fun c hc => hdigits c (List.mem_of_mem_drop hc)) hpairs
      (show count ≤ firstFields.length from hcount)
    rw [← hyear] at hlimit hpad
    rw [← hfields] at hfound
    obtain ⟨hwritten, hleft⟩ := hfound
    refine ⟨hvalid, Nat.le_of_lt_succ hlimit, count, zone, hcount, ?_, hleft, hzone⟩
    rw [leading, hpad, hwritten, List.take_append_drop, hcs]
  · rintro ⟨hvalid, hyear, count, zone, hcount, rfl, hrest, hzone⟩
    have hfields := fields_lt_of_isValid hvalid
    have hyear' := length_year hyear
    have hstop := (readZone_eq_some_iff.1 hzone).form.not_digit
    refine ⟨_, _, span_append (fun _ => isDigit_of_mem_leading) hstop,
      mem_lengths.2 ⟨count, hcount, ?_⟩, hzone, hvalid, ?_, ?_⟩
    · have htwo := length_written fun n hn => hfields n (List.mem_of_mem_take (i := count) hn)
      rw [leading, List.length_append, hyear', htwo, List.length_take_of_le hcount]
    · rw [leading, List.take_left' hyear', ofDigits_pad]
    · rw [leading, List.drop_left' hyear']
      have hsame : d.fields.length = firstFields.length := rfl
      exact (readFields_written hfields hsame hrest).symm

/-- The text is these characters, perhaps behind "D:". -/
def Marked (s : String) (cs : List Char) : Prop := s.toList = cs ∨ s.toList = 'D' :: ':' :: cs

theorem exists_marked (s : String) : ∃ cs, Marked s cs ∧ parse s = parseChars cs := by
  unfold parse Marked
  split
  · next rest heq => exact ⟨rest, .inr heq, rfl⟩
  · exact ⟨_, .inl rfl, rfl⟩

theorem parse_of_marked {s : String} {c : Char} {cs : List Char} (hc : c.isDigit = true)
    (h : Marked s (c :: cs)) : parse s = parseChars (c :: cs) := by
  unfold parse
  rcases h with h | h
  · rw [h]
    split
    · next heq => cases heq; cases hc
    · rfl
  · rw [h]
    rfl

end Date

end PdfConform
