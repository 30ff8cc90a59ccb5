import PdfConform.Proofs.Document.WrittenDate

/-! The form of the texts that are read as dates. It is the documented one but for the apostrophes
of a signed offset: these are left out before anything is counted, so they may stand anywhere in
it. -/
namespace PdfConform.Date

/-! Apostrophes -/

/-- An apostrophe may follow: two digits or four stand before it, and no apostrophe since. -/
def Closes (before : List Char) : Prop :=
  before.getLast? ≠ some '\'' ∧ ((bare before).length = 2 ∨ (bare before).length = 4)

instance (before : List Char) : Decidable (Closes before) :=
  inferInstanceAs (Decidable (_ ∧ (_ ∨ _)))

/-- Each apostrophe of the text that stands behind `before` follows hours or minutes directly. -/
def PlacedAfter (before cs : List Char) : Prop :=
  ∀ front back, cs = front ++ '\'' :: back → Closes (before ++ front)

/-- Each apostrophe of an offset follows its hours or its minutes directly. -/
def Placed (cs : List Char) : Prop := PlacedAfter [] cs

theorem bare_cons_of_ne {c : Char} (h : c ≠ '\'') (cs : List Char) :
    bare (c :: cs) = c :: bare cs :=
  List.filter_cons_of_pos (by simpa using h)

theorem not_closes_mark (before : List Char) : ¬Closes (before ++ ['\'']) := by
  rintro ⟨hlast, _⟩
  exact hlast (by rw [List.getLast?_append]; rfl)

theorem placedAfter_nil (before : List Char) : PlacedAfter before [] := by
  intro front back h
  cases front <;> cases h

theorem placedAfter_cons {before : List Char} {c : Char} {cs : List Char} :
    PlacedAfter before (c :: cs) ↔
      (c = '\'' → Closes before) ∧ PlacedAfter (before ++ [c]) cs := by
  constructor
  · intro h
    refine ⟨?_, fun front back heq => ?_⟩
    · rintro rfl
      simpa using h [] cs rfl
    · simpa using h (c :: front) back (by rw [heq]; rfl)
  · rintro ⟨hfirst, hrest⟩ front back heq
    cases front with
    | nil =>
      cases heq
      simpa using hfirst rfl
    | cons d front =>
      cases heq
      simpa using hrest front back rfl

theorem placedAfter_digits {before ds cs : List Char} (h : '\'' ∉ ds) :
    PlacedAfter before (ds ++ cs) ↔ PlacedAfter (before ++ ds) cs := by
  induction ds generalizing before with
  | nil => rw [List.append_nil, List.nil_append]
  | cons d ds ih =>
    obtain ⟨hd, hds⟩ := List.ne_and_not_mem_of_not_mem_cons h
    rw [List.cons_append, placedAfter_cons, ih hds, List.append_assoc]
    exact and_iff_right fun heq => absurd heq.symm hd

theorem placedAfter_mark {before mark cs : List Char} (hmark : mark ∈ marks) (h : Closes before) :
    PlacedAfter before (mark ++ cs) ↔ PlacedAfter (before ++ mark) cs := by
  simp only [marks, List.mem_cons, List.not_mem_nil, or_false] at hmark
  rcases hmark with rfl | rfl
  · rw [List.append_nil, List.nil_append]
  · exact placedAfter_cons.trans (and_iff_right fun _ => h)

theorem eq_nil_of_bare {cs : List Char} (h : bare cs = []) (hhead : cs.head? ≠ some '\'') :
    cs = [] := by
  cases cs with
  | nil => rfl
  | cons c cs =>
    have hc : c ≠ '\'' := fun heq => hhead (congrArg some heq)
    rw [bare_cons_of_ne hc] at h
    cases h

/-- A text that begins with no apostrophe begins with its first digit. -/
theorem exists_of_bare {cs rest : List Char} {d : Char} (h : bare cs = d :: rest)
    (hhead : cs.head? ≠ some '\'') : d ≠ '\'' ∧ ∃ more, cs = d :: more ∧ bare more = rest := by
  cases cs with
  | nil => cases h
  | cons c cs =>
    have hc : c ≠ '\'' := fun heq => hhead (congrArg some heq)
    rw [bare_cons_of_ne hc] at h
    obtain ⟨rfl, rfl⟩ := List.cons.inj h
    exact ⟨hc, cs, rfl, rfl⟩

namespace PlacedAfter

variable {before cs : List Char}

theorem head (h : PlacedAfter before cs) (hbefore : ¬Closes before) : cs.head? ≠ some '\'' := by
  intro hhead
  obtain ⟨rest, rfl⟩ := List.head?_eq_some_iff.1 hhead
  exact hbefore ((placedAfter_cons.1 h).1 rfl)

/-- One apostrophe at most stands at each place. -/
theorem exists_mark (h : PlacedAfter before cs) :
    ∃ mark ∈ marks, ∃ more, cs = mark ++ more ∧ more.head? ≠ some '\'' ∧
      PlacedAfter (before ++ mark) more := by
  by_cases hhead : cs.head? = some '\''
  · obtain ⟨more, rfl⟩ := List.head?_eq_some_iff.1 hhead
    have hmore := (placedAfter_cons.1 h).2
    exact ⟨['\''], by decide, more, rfl, hmore.head (not_closes_mark before), hmore⟩
  · exact ⟨[], by decide, cs, rfl, hhead, by rwa [List.append_nil]⟩

/-- Two digits that begin the hours or the minutes stand together, with an apostrophe or without. -/
theorem exists_pair {c d : Char} {rest : List Char} (h : PlacedAfter before cs)
    (hbare : bare cs = c :: d :: rest) (hhead : cs.head? ≠ some '\'')
    (hbefore : (bare before).length = 0 ∨ (bare before).length = 2) :
    ∃ mark ∈ marks, ∃ more, cs = [c, d] ++ (mark ++ more) ∧ bare more = rest ∧
      more.head? ≠ some '\'' ∧ PlacedAfter (before ++ [c, d] ++ mark) more := by
  obtain ⟨hc, cs, rfl, hcs⟩ := exists_of_bare hbare hhead
  have hplaced := (placedAfter_cons.1 h).2
  have hodd : ¬Closes (before ++ [c]) := by
    rintro ⟨_, hlength⟩
    rw [bare_append, bare_cons_of_ne hc, List.length_append] at hlength
    change _ + 1 = 2 ∨ _ + 1 = 4 at hlength
    omega
  obtain ⟨_, cs, rfl, hmore⟩ := exists_of_bare hcs (hplaced.head hodd)
  obtain ⟨mark, hmark, more, rfl, hhead', hrest⟩ := (placedAfter_cons.1 hplaced).2.exists_mark
  refine ⟨mark, hmark, more, rfl, ?_, hhead', by simpa using hrest⟩
  rw [← hmore, bare_append, bare_mark hmark, List.nil_append]

end PlacedAfter

/-! Offsets -/

/-- Hours, perhaps with an apostrophe, or hours and minutes, each perhaps with one. -/
def IsOffset (cs : List Char) : Prop :=
  ∃ hour minute, hour ≤ 23 ∧ minute ≤ 59 ∧
    ((∃ mark ∈ marks, pad 2 hour ++ mark = cs) ∨ cs ∈ offsetTexts hour minute)

theorem mark_not_mem_pad (n : Nat) : '\'' ∉ pad 2 n :=
  fun h => absurd (isDigit_of_mem_pad h) (by decide)

theorem closes_append_pad {before : List Char} {n : Nat} (h : n ≤ 59)
    (hbefore : (bare before).length = 0 ∨ (bare before).length = 2) :
    Closes (before ++ pad 2 n) := by
  have hlength := length_pair h
  constructor
  · rw [List.getLast?_append_of_ne_nil _ (List.length_pos_iff.1 (by omega))]
    exact fun hlast => mark_not_mem_pad n (List.mem_of_getLast? hlast)
  · rw [bare_append, bare_pad, List.length_append, hlength]
    omega

theorem placed_of_isOffset {cs : List Char} (h : IsOffset cs) : Placed cs := by
  obtain ⟨hour, minute, hhour, hminute, h⟩ := h
  have hh : Closes ([] ++ pad 2 hour) := closes_append_pad (by omega) (.inl rfl)
  have htwo : (pad 2 hour).length = 2 := length_pair (by omega)
  rcases h with ⟨mark, hmark, rfl⟩ | htext
  · have hlast := (placedAfter_mark hmark hh).2 (placedAfter_nil _)
    rw [List.append_nil] at hlast
    exact (placedAfter_digits (mark_not_mem_pad hour)).2 hlast
  · obtain ⟨first, hfirst, second, hsecond, rfl⟩ := mem_offsetTexts.1 htext
    have hm : Closes ([] ++ pad 2 hour ++ first ++ pad 2 minute) := by
      refine closes_append_pad hminute (.inr ?_)
      rw [List.nil_append, bare_append, bare_pad, bare_mark hfirst, List.append_nil, htwo]
    have hlast := (placedAfter_mark hsecond hm).2 (placedAfter_nil _)
    rw [List.append_nil] at hlast
    exact (placedAfter_digits (mark_not_mem_pad hour)).2 <| (placedAfter_mark hfirst hh).2 <|
      (placedAfter_digits (mark_not_mem_pad minute)).2 hlast

theorem loose_of_isOffset {cs : List Char} (h : IsOffset cs) : LooseOffset cs := by
  obtain ⟨hour, minute, hhour, hminute, ⟨mark, hmark, rfl⟩ | htext⟩ := h
  · refine ⟨hour, 0, hhour, Nat.zero_le _, .inr ⟨rfl, ?_⟩⟩
    rw [bare_append, bare_pad, bare_mark hmark, List.append_nil]
  · exact ⟨hour, minute, hhour, hminute, .inl (bare_of_mem_offsetTexts htext)⟩

/-- Of the offsets with apostrophes anywhere, the documented ones are those with each apostrophe
directly behind the hours or the minutes. -/
theorem isOffset_iff {cs : List Char} : IsOffset cs ↔ LooseOffset cs ∧ Placed cs := by
  refine ⟨fun h => ⟨loose_of_isOffset h, placed_of_isOffset h⟩, ?_⟩
  rintro ⟨⟨hour, minute, hhour, hminute, hloose⟩, hplaced⟩
  have hpair {n : Nat} (h : n ≤ 59) : ∃ c d, pad 2 n = [c, d] :=
    List.length_eq_two.1 (length_pair h)
  obtain ⟨a, b, hh⟩ := hpair (Nat.le_trans hhour (by decide))
  have hhead : cs.head? ≠ some '\'' := hplaced.head (by decide)
  refine ⟨hour, minute, hhour, hminute, ?_⟩
  rcases hloose with hbare | ⟨_, hbare⟩
  · obtain ⟨c, d, hm⟩ := hpair hminute
    rw [hh, hm] at hbare
    obtain ⟨first, hfirst, cs, rfl, hcs, hhead', hplaced'⟩ :=
      hplaced.exists_pair hbare hhead (.inl rfl)
    have htwo : (bare ([] ++ [a, b] ++ first)).length = 2 := by
      rw [List.nil_append, ← hh, bare_append, bare_pad, bare_mark hfirst, hh]
      rfl
    obtain ⟨second, hsecond, cs, rfl, hcs, hhead'', _⟩ :=
      hplaced'.exists_pair hcs hhead' (.inr htwo)
    obtain rfl := eq_nil_of_bare hcs hhead''
    refine .inr (mem_offsetTexts.2 ⟨first, hfirst, second, hsecond, ?_⟩)
    rw [hh, hm, List.append_nil]
  · rw [hh] at hbare
    obtain ⟨mark, hmark, cs, rfl, hcs, hhead', _⟩ := hplaced.exists_pair hbare hhead (.inl rfl)
    obtain rfl := eq_nil_of_bare hcs hhead'
    refine .inl ⟨mark, hmark, ?_⟩
    rw [hh, List.append_nil]

/-! The whole text -/

/-- Perhaps behind "D:", digits for the year and up to five fields, and then a zone. -/
def HasForm (Offset : List Char → Prop) (s : String) : Prop :=
  ∃ ds zone, Marked s (ds ++ zone) ∧ (∀ c ∈ ds, c.isDigit = true) ∧
    ds.length ∈ [4, 6, 8, 10, 12, 14] ∧ ZoneForm Offset zone

variable {P Q : List Char → Prop} {s : String}

theorem ZoneForm.mono {zone : List Char} (h : ZoneForm P zone) (hmono : ∀ cs, P cs → Q cs) :
    ZoneForm Q zone := by
  cases h with
  | absent => exact .absent
  | utc hutc => exact .utc hutc
  | signed hsign hcs => exact .signed hsign (hmono _ hcs)

theorem ZoneForm.and {zone : List Char} (h : ZoneForm P zone) (k : ZoneForm Q zone) :
    ZoneForm (fun cs => P cs ∧ Q cs) zone := by
  cases h with
  | absent => exact .absent
  | utc hutc => exact .utc hutc
  | signed hsign hcs =>
    cases k with
    | utc hutc => exact .utc hutc
    | signed _ hcs' => exact .signed hsign ⟨hcs, hcs'⟩

/-- Where the digits of a text end is no matter of choice. -/
theorem Marked.unique {ds ds' zone zone' : List Char} (h : Marked s (ds ++ zone))
    (h' : Marked s (ds' ++ zone')) (hne : ds ≠ []) (hne' : ds' ≠ [])
    (hds : ∀ c ∈ ds, c.isDigit = true) (hds' : ∀ c ∈ ds', c.isDigit = true)
    (hzone : ∀ c ∈ zone.head?, c.isDigit = false) (hzone' : ∀ c ∈ zone'.head?, c.isDigit = false) :
    ds = ds' ∧ zone = zone' := by
  have hlabel {es rest tail : List Char} (hne : es ≠ []) (hes : ∀ c ∈ es, c.isDigit = true) :
      es ++ rest ≠ 'D' :: tail := by
    obtain ⟨c, es, rfl⟩ := List.exists_cons_of_ne_nil hne
    rintro ⟨⟩
    cases hes 'D' List.mem_cons_self
  have hsame : ds ++ zone = ds' ++ zone' := by
    rcases h with h | h <;> rcases h' with h' | h' <;> rw [h] at h'
    · exact h'
    · exact absurd h' (hlabel hne hds)
    · exact absurd h'.symm (hlabel hne' hds')
    · exact (List.cons.inj (List.cons.inj h').2).2
  have hspan := span_append hds hzone
  rw [hsame, span_append hds' hzone'] at hspan
  exact ⟨(Prod.mk.inj hspan).1.symm, (Prod.mk.inj hspan).2.symm⟩

theorem ne_nil_of_lengths {ds : List Char} (h : ds.length ∈ [4, 6, 8, 10, 12, 14]) : ds ≠ [] := by
  rintro rfl
  revert h
  decide

theorem HasForm.mono (h : HasForm P s) (hmono : ∀ cs, P cs → Q cs) : HasForm Q s := by
  obtain ⟨ds, zone, hmarked, hds, hlength, hzone⟩ := h
  exact ⟨ds, zone, hmarked, hds, hlength, hzone.mono hmono⟩

theorem HasForm.and (h : HasForm P s) (k : HasForm Q s) :
    HasForm (fun cs => P cs ∧ Q cs) s := by
  obtain ⟨ds, zone, hmarked, hds, hlength, hzone⟩ := h
  obtain ⟨ds', zone', hmarked', hds', hlength', hzone'⟩ := k
  obtain ⟨rfl, rfl⟩ := hmarked.unique hmarked' (ne_nil_of_lengths hlength)
    (ne_nil_of_lengths hlength') hds hds' hzone.not_digit hzone'.not_digit
  exact ⟨ds, zone, hmarked, hds, hlength, hzone.and hzone'⟩

theorem hasForm_loose_of_parse {d : Date} (h : parse s = some d) : HasForm LooseOffset s := by
  obtain ⟨cs, hmarked, hparse⟩ := exists_marked s
  rw [hparse] at h
  obtain ⟨ds, zone, hspan, hlength, hzone, _⟩ := parseChars_eq_some_iff.1 h
  rw [List.span_eq_takeWhile_dropWhile] at hspan
  obtain ⟨rfl, rfl⟩ := Prod.mk.inj hspan
  refine ⟨_, _, ?_, fun c hc => List.mem_takeWhile_imp hc, hlength,
    (readZone_eq_some_iff.1 hzone).form⟩
  rwa [List.takeWhile_append_dropWhile]

/-- What is read as a date has its form but for apostrophes among the characters of a signed offset.
It has the very form exactly if each of these follows the hours or the minutes directly. -/
theorem form_of_parse {d : Date} (h : parse s = some d) :
    HasForm LooseOffset s ∧ (HasForm IsOffset s ↔ HasForm Placed s) := by
  have hloose := hasForm_loose_of_parse h
  refine ⟨hloose, fun hform => hform.mono fun cs hcs => (isOffset_iff.1 hcs).2, fun hplaced => ?_⟩
  exact (hloose.and hplaced).mono fun cs hcs => isOffset_iff.2 hcs

/-- Noon, an hour ahead of universal time; the apostrophe stands between the digits of the hour. -/
def stray : String := "D:20200101120000+0'100"

def strayOffset : List Char := "0'100".toList

theorem stray_hasForm_iff : HasForm P stray ↔ P strayOffset := by
  have hmarked : Marked stray ("20200101120000".toList ++ '+' :: strayOffset) := by
    refine .inr ?_
    decide +kernel
  have hdigits : ∀ c ∈ "20200101120000".toList, c.isDigit = true :=
    List.all_eq_true.1 (by decide +kernel)
  have hlength : "20200101120000".toList.length ∈ [4, 6, 8, 10, 12, 14] := by decide +kernel
  constructor
  · rintro ⟨ds, zone, hmarked', hds, hlength', hzone⟩
    obtain ⟨_, rfl⟩ := hmarked.unique hmarked' (ne_nil_of_lengths hlength)
      (ne_nil_of_lengths hlength') hdigits hds (by rintro _ ⟨⟩; rfl) hzone.not_digit
    cases hzone with
    | utc hutc => cases head_of_mem_utcTexts hutc
    | signed _ hoffset => exact hoffset
  · exact fun hoffset => ⟨_, _, hmarked, hdigits, hlength, .signed (.inl rfl) hoffset⟩

theorem not_placed_strayOffset : ¬Placed strayOffset := by
  intro h
  have hcloses : Closes ([] ++ ['0']) := h ['0'] ['1', '0', '0'] (by decide +kernel)
  revert hcloses
  decide

theorem parse_stray : parse stray = some ⟨2020, 1, 1, 12, 0, 0, 3600⟩ := by decide +kernel

theorem form_of_parse_stray :
    parse stray = some ⟨2020, 1, 1, 12, 0, 0, 3600⟩ ∧ HasForm LooseOffset stray ∧
      (HasForm IsOffset stray ↔ HasForm Placed stray) :=
  ⟨parse_stray, form_of_parse parse_stray⟩

/-- A text is read although it does not have the form of a date. -/
theorem stray_apostrophe_read :
    parse stray = some ⟨2020, 1, 1, 12, 0, 0, 3600⟩ ∧ ¬HasForm IsOffset stray := by
  refine ⟨parse_stray, fun hform => ?_⟩
  exact not_placed_strayOffset (isOffset_iff.1 (stray_hasForm_iff.1 hform)).2

end PdfConform.Date
