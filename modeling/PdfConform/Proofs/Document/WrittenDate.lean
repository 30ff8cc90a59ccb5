import PdfConform.Proofs.Document.DateDigits

/-! Dates as they are written. Whatever is left out and however the zone is spelled, a valid date is
read as itself. -/
namespace PdfConform.Date

/-- An apostrophe, or nothing where one may stand. -/
def marks : List (List Char) := [[], ['\'']]

/-- Hours and minutes, each with an apostrophe behind it or without. -/
def offsetTexts (hour minute : Nat) : List (List Char) :=
  marks.flatMap fun first => marks.map fun second =>
    pad 2 hour ++ (first ++ (pad 2 minute ++ second))

/-- What may be written for an offset of whole minutes: a sign, hours and minutes, or nothing or a
mark of universal time if it is zero. Zero has either sign. -/
def zoneTexts (offset : Int) : List (List Char) :=
  let texts := offsetTexts (offset.natAbs / 3600) (offset.natAbs / 60 % 60)
  (if 0 ≤ offset then texts.map ('+' :: ·) else []) ++
    (if offset ≤ 0 then texts.map ('-' :: ·) else []) ++
    if offset = 0 then [] :: utcTexts else []

theorem bare_append (cs ds : List Char) : bare (cs ++ ds) = bare cs ++ bare ds :=
  List.filter_append cs ds

theorem bare_pad (width n : Nat) : bare (pad width n) = pad width n := by
  refine List.filter_eq_self.2 fun c hc => ?_
  rw [bne_iff_ne]
  rintro rfl
  cases isDigit_of_mem_pad hc

theorem bare_mark {mark : List Char} (h : mark ∈ marks) : bare mark = [] := by
  revert mark
  decide

theorem mem_offsetTexts {hour minute : Nat} {cs : List Char} : cs ∈ offsetTexts hour minute ↔
    ∃ first ∈ marks, ∃ second ∈ marks, pad 2 hour ++ (first ++ (pad 2 minute ++ second)) = cs := by
  simp only [offsetTexts, List.mem_flatMap, List.mem_map]

theorem bare_of_mem_offsetTexts {hour minute : Nat} {cs : List Char}
    (h : cs ∈ offsetTexts hour minute) : bare cs = pad 2 hour ++ pad 2 minute := by
  obtain ⟨first, hfirst, second, hsecond, rfl⟩ := mem_offsetTexts.1 h
  simp only [bare_append, bare_pad, bare_mark hfirst, bare_mark hsecond, List.nil_append,
    List.append_nil]

theorem readZone_of_mem_zoneTexts {offset : Int} {zone : List Char} (hwhole : 60 ∣ offset)
    (hlimit : offset.natAbs < 86400) (h : zone ∈ zoneTexts offset) :
    readZone zone = some offset := by
  rw [readZone_eq_some_iff]
  obtain ⟨minutes, hminutes⟩ : 60 ∣ offset.natAbs := Int.natAbs_dvd_natAbs.2 hwhole
  have hread {cs : List Char}
      (hcs : cs ∈ offsetTexts (offset.natAbs / 3600) (offset.natAbs / 60 % 60)) :
      readOffset cs = some offset.natAbs := by
    have hbare := bare_of_mem_offsetTexts hcs
    exact readOffset_eq_some_iff.2 ⟨_, _, by omega, by omega, .inl hbare, by omega⟩
  simp only [zoneTexts, List.mem_append, List.mem_ite_nil_right, List.mem_map, List.mem_cons] at h
  rcases h with (⟨hsign, cs, hcs, rfl⟩ | ⟨hsign, cs, hcs, rfl⟩) | ⟨rfl, rfl | hutc⟩
  · have hahead := ZoneRead.ahead (hread hcs)
    rwa [Int.natAbs_of_nonneg hsign] at hahead
  · have hbehind := ZoneRead.behind (hread hcs)
    rwa [Int.ofNat_natAbs_of_nonpos hsign, Int.neg_neg] at hbehind
  · exact .absent
  · exact .utc hutc

/-- A valid date in a year of four digits, less than a day from universal time by whole minutes, is
read however it is written: with "D:" or without, with all fields or without the last ones if they
have their first value, and with any text of its zone. -/
theorem parse_written {d : Date} (hvalid : d.isValid = true) (hyear : d.year ≤ 9999)
    (hwhole : 60 ∣ d.offset) (hlow : -86400 < d.offset) (hhigh : d.offset < 86400) (count : Nat)
    (hcount : count ≤ 5) (hleft : d.fields.drop count = firstFields.drop count)
    {zone : List Char} (hzone : zone ∈ zoneTexts d.offset) {mark : String}
    (hmark : mark = "" ∨ mark = "D:") :
    parse (mark ++ String.ofList (d.leading count ++ zone)) = some d := by
  have hread : parseChars (d.leading count ++ zone) = some d :=
    parseChars_iff_leading.2 ⟨hvalid, hyear, count, zone, hcount, rfl, hleft,
      readZone_of_mem_zoneTexts hwhole (by omega) hzone⟩
  have hmarked :
      Marked (mark ++ String.ofList (d.leading count ++ zone)) (d.leading count ++ zone) := by
    rcases hmark with rfl | rfl
    · exact .inl (by simp)
    · exact .inr (by simp)
  obtain ⟨c, cs, hcs⟩ : ∃ c cs, d.leading count = c :: cs := by
    refine List.exists_cons_of_ne_nil (List.append_ne_nil_of_left_ne_nil ?_ _)
    exact List.length_pos_iff.1 (by rw [length_year hyear]; decide)
  have hdigit : c.isDigit = true := isDigit_of_mem_leading (hcs ▸ List.mem_cons_self)
  rw [hcs, List.cons_append] at hmarked hread
  rw [hcs, List.cons_append, parse_of_marked hdigit hmarked, hread]

/-- The last hour of a leap day, almost a day west. -/
def leapHour : Date := ⟨0, 2, 29, 23, 0, 0, -86340⟩

theorem parse_written_leapHour :
    leapHour.isValid = true ∧ leapHour.fields.drop 3 = firstFields.drop 3 ∧
      "-23'59".toList ∈ zoneTexts leapHour.offset ∧
      parse "0000022923-23'59" = some leapHour ∧
      parse "D:00000229230000-2359'" = some leapHour := by
  have hvalid : leapHour.isValid = true := by decide
  have hread {count : Nat} (hcount : count ≤ 5)
      (hleft : leapHour.fields.drop count = firstFields.drop count) {zone : List Char}
      (hzone : zone ∈ zoneTexts leapHour.offset) {mark : String} (hmark : mark = "" ∨ mark = "D:") :
      parse (mark ++ String.ofList (leapHour.leading count ++ zone)) = some leapHour :=
    parse_written hvalid (by decide) (by decide) (by decide) (by decide) count hcount hleft hzone
      hmark
  have hshort : "" ++ String.ofList (leapHour.leading 3 ++ "-23'59".toList) =
      "0000022923-23'59" := by
    decide +kernel
  have hlong : "D:" ++ String.ofList (leapHour.leading 5 ++ "-2359'".toList) =
      "D:00000229230000-2359'" := by
    decide +kernel
  refine ⟨hvalid, rfl, by decide +kernel, ?_, ?_⟩
  · rw [← hshort]
    exact hread (by decide) rfl (by decide +kernel) (.inl rfl)
  · rw [← hlong]
    exact hread (by decide) rfl (by decide +kernel) (.inr rfl)

end PdfConform.Date
