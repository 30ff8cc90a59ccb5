import Mathlib.Data.List.Perm.Subperm
import PdfConform.Proofs.Expression.Scan

/-! The scanner as a loop over the positions of a text. Every turn that finds no fault goes on
behind at least one character and not behind the end, which alone is why the loop ends. -/
namespace PdfConform

namespace Expression

/-- One turn of the loop at a position: the token that starts there, if no blank stands there, and
the position to go on from. Behind the last character there is no turn. -/
def turn? (text : List Char) (i : Nat) : Option (Except Cause (Option Token × Nat)) :=
  match text.drop i with
  | [] => none
  | c :: rest =>
    if Text.isBlank c then some (.ok (none, i + 1))
    else some ((scan c rest).map fun (t, after) => (some t, text.length - after.length))

/-- The characters that a word takes from a position on: none where no word starts, and none in
front of a range. -/
def wordAt (text : List Char) (i : Nat) : List Char := (spanWord (text.drop i)).1

def wordEnd (text : List Char) (i : Nat) : Nat := i + (wordAt text i).length

variable {text : List Char} {i j : Nat} {c : Char} {rest : List Char} {found : Option Token}

theorem turn?_eq_none_iff : turn? text i = none ↔ text.length ≤ i := by
  rw [← List.drop_eq_nil_iff]
  unfold turn?
  split
  · next hdrop => simp [hdrop]
  · next hdrop => split <;> simp [hdrop]

theorem turn?_blank (hdrop : text.drop i = c :: rest) (hblank : Text.isBlank c = true) :
    turn? text i = some (.ok (none, i + 1)) := by
  rw [turn?, hdrop]
  exact if_pos hblank

theorem turn?_scan (hdrop : text.drop i = c :: rest) (hblank : Text.isBlank c = false) :
    turn? text i =
      some ((scan c rest).map fun (t, after) => (some t, text.length - after.length)) := by
  rw [turn?, hdrop]
  exact if_neg (by simp [hblank])

theorem drop_of_append {taken after : List Char} (h : text.drop i = taken ++ after) :
    text.drop (i + taken.length) = after := by
  rw [← List.drop_drop, h, List.drop_left]

theorem length_sub_of_drop {taken after : List Char} (h : text.drop i = taken ++ after)
    (hne : taken ≠ []) : text.length - after.length = i + taken.length := by
  have hlength := congrArg List.length h
  have hpos := List.length_pos_iff.2 hne
  rw [List.length_drop, List.length_append] at hlength
  omega

theorem turn?_eq_some {result : Except Cause (Option Token × Nat)}
    (h : turn? text i = some result) : ∃ c rest, text.drop i = c :: rest ∧
      (Text.isBlank c = true ∧ result = .ok (none, i + 1) ∨ Text.isBlank c = false ∧
        result = (scan c rest).map fun (t, after) => (some t, text.length - after.length)) := by
  cases hdrop : text.drop i with
  | nil =>
    rw [turn?, hdrop] at h
    cases h
  | cons c rest =>
    refine ⟨c, rest, rfl, ?_⟩
    cases hblank : Text.isBlank c with
    | true => exact .inl ⟨rfl, Option.some.inj (h.symm.trans (turn?_blank hdrop hblank))⟩
    | false => exact .inr ⟨rfl, Option.some.inj (h.symm.trans (turn?_scan hdrop hblank))⟩

/-- A turn passes a blank or takes what spells a token, and goes on right behind that. -/
theorem turn?_cases (h : turn? text i = some (.ok (found, j))) :
    ∃ c rest, text.drop i = c :: rest ∧
      (Text.isBlank c = true ∧ found = none ∧ j = i + 1 ∨
        Text.isBlank c = false ∧ ∃ t, scan c rest = .ok (t, text.drop j) ∧ found = some t ∧
          j = i + t.spelling.length) := by
  obtain ⟨c, rest, hdrop, ⟨hblank, hresult⟩ | ⟨hblank, hresult⟩⟩ := turn?_eq_some h
  · cases hresult
    exact ⟨c, rest, hdrop, .inl ⟨hblank, rfl, rfl⟩⟩
  · obtain ⟨⟨t, after⟩, hscan, htaken⟩ := ok_of_map hresult.symm
    obtain ⟨rfl, rfl⟩ := Prod.mk.inj htaken
    have hsplit : text.drop i = t.spelling ++ after :=
      hdrop.trans (spelling_append_of_scan hscan).symm
    have hbehind := length_sub_of_drop hsplit (spelling_ne_nil_of_scan hscan)
    refine ⟨c, rest, hdrop, .inr ⟨hblank, t, ?_, rfl, hbehind⟩⟩
    rw [hbehind, drop_of_append hsplit, hscan]

theorem scan_of_fault {cause : Cause} (h : turn? text i = some (.error cause)) :
    ∃ c rest, text.drop i = c :: rest ∧ Text.isBlank c = false ∧ scan c rest = .error cause := by
  obtain ⟨c, rest, hdrop, ⟨_, hresult⟩ | ⟨hblank, hresult⟩⟩ := turn?_eq_some h
  · cases hresult
  · refine ⟨c, rest, hdrop, hblank, ?_⟩
    cases hscan : scan c rest with
    | error fault =>
      rw [hscan] at hresult
      cases hresult
      rfl
    | ok taken =>
      rw [hscan] at hresult
      cases hresult

theorem spelling_of_turn? {t : Token} (h : turn? text i = some (.ok (some t, j))) :
    t.spelling ++ text.drop j = text.drop i := by
  obtain ⟨c, rest, hdrop, ⟨_, hnone, _⟩ | ⟨_, u, hscan, hsome, _⟩⟩ := turn?_cases h
  · cases hnone
  · cases hsome
    rw [spelling_append_of_scan hscan, hdrop]

theorem lt_of_turn? (h : turn? text i = some (.ok (found, j))) : i < j := by
  obtain ⟨c, rest, _, ⟨_, _, rfl⟩ | ⟨_, t, hscan, _, rfl⟩⟩ := turn?_cases h
  · exact Nat.lt_succ_self i
  · exact Nat.lt_add_of_pos_right (List.length_pos_iff.2 (spelling_ne_nil_of_scan hscan))

theorem le_of_turn? (h : turn? text i = some (.ok (found, j))) : j ≤ text.length := by
  obtain ⟨c, rest, hdrop, hcases⟩ := turn?_cases h
  have hlength := congrArg List.length hdrop
  rw [List.length_drop, List.length_cons] at hlength
  obtain ⟨_, _, rfl⟩ | ⟨_, t, hscan, _, hj⟩ := hcases
  · omega
  · have hspelling := congrArg List.length (spelling_append_of_scan hscan)
    simp only [List.length_append, List.length_drop, List.length_cons] at hspelling
    omega

/-- The loop from a position on: where its turns start, and what comes of it. It has no fuel, as
every turn that another one follows advances. -/
def loop (text : List Char) (i : Nat) : List Nat × Except Cause (List Token) :=
  match _hturn : turn? text i with
  | none => ([], .ok [])
  | some (.error cause) => ([i], .error cause)
  | some (.ok (found, j)) =>
    let (starts, result) := loop text j
    (i :: starts, result.map (found.toList ++ ·))
termination_by text.length - i
decreasing_by
  have hlt := lt_of_turn? _hturn
  have hle := le_of_turn? _hturn
  omega

theorem loop_of_none (h : turn? text i = none) : loop text i = ([], .ok []) := by
  rw [loop]
  split <;> simp_all

theorem loop_of_error {cause : Cause} (h : turn? text i = some (.error cause)) :
    loop text i = ([i], .error cause) := by
  rw [loop]
  split <;> simp_all

theorem loop_of_ok (h : turn? text i = some (.ok (found, j))) :
    loop text i = (i :: (loop text j).1, (loop text j).2.map (found.toList ++ ·)) := by
  rw [loop]
  split <;> simp_all

/-- An induction along the turns of the loop. -/
theorem loop_induct (text : List Char) {motive : Nat → Prop}
    (done : ∀ {i}, turn? text i = none → motive i)
    (fault : ∀ {i cause}, turn? text i = some (.error cause) → motive i)
    (turn : ∀ {i found j}, turn? text i = some (.ok (found, j)) → motive j → motive i) (i : Nat) :
    motive i := by
  induction i using loop.induct text with
  | case1 i h => exact done h
  | case2 i cause h => exact fault h
  | case3 i found j h _ _ _ ih => exact turn h ih

/-- What the loop finds is what the scanner finds in the rest of the text. -/
theorem loop_eq_tokens (text : List Char) (i : Nat) : (loop text i).2 = tokens (text.drop i) := by
  induction i using loop_induct text with
  | done h =>
    rw [loop_of_none h, List.drop_eq_nil_of_le (turn?_eq_none_iff.1 h)]
    rfl
  | @fault i cause h =>
    obtain ⟨c, rest, hdrop, hblank, hscan⟩ := scan_of_fault h
    rw [loop_of_error h, hdrop, tokens_cons hblank, hscan]
    rfl
  | @turn i found j h ih =>
    rw [loop_of_ok h]
    obtain ⟨c, rest, hdrop, ⟨hblank, rfl, rfl⟩ | ⟨hblank, t, hscan, rfl, _⟩⟩ := turn?_cases h
    · have hsplit : text.drop i = [c] ++ rest := hdrop
      have hrest : text.drop (i + 1) = rest := drop_of_append hsplit
      rw [hdrop, tokens_blank hblank, ih, hrest]
      cases tokens rest <;> rfl
    · rw [hdrop, tokens_of_scan hblank hscan, ih]
      rfl

/-- The turns start at ever later positions of the text. -/
theorem starts_of_loop (text : List Char) (i : Nat) :
    (loop text i).1.Pairwise (· < ·) ∧ ∀ k ∈ (loop text i).1, i ≤ k ∧ k < text.length := by
  induction i using loop_induct text with
  | done h =>
    rw [loop_of_none h]
    exact ⟨.nil, nofun⟩
  | @fault i cause h =>
    have hi : i < text.length := by
      rw [← Nat.not_le, ← turn?_eq_none_iff, h]
      exact Option.some_ne_none _
    rw [loop_of_error h]
    exact ⟨List.pairwise_singleton _ _, by simpa using hi⟩
  | @turn i found j h ih =>
    have hlt := lt_of_turn? h
    have hle := le_of_turn? h
    obtain ⟨hincreasing, hwithin⟩ := ih
    rw [loop_of_ok h]
    refine ⟨.cons (fun k hk => Nat.lt_of_lt_of_le hlt (hwithin k hk).1) hincreasing, ?_⟩
    refine List.forall_mem_cons.2 ⟨⟨Nat.le_refl i, Nat.lt_of_lt_of_le hlt hle⟩, ?_⟩
    exact fun k hk => ⟨Nat.le_trans (Nat.le_of_lt hlt) (hwithin k hk).1, (hwithin k hk).2⟩

theorem length_starts_of_loop (text : List Char) : (loop text 0).1.length ≤ text.length := by
  obtain ⟨hincreasing, hwithin⟩ := starts_of_loop text 0
  have hnodup : (loop text 0).1.Nodup := hincreasing.imp Nat.ne_of_lt
  have hrange : (loop text 0).1 ⊆ List.range text.length :=
    fun k hk => List.mem_range.2 (hwithin k hk).2
  have hlength := (hnodup.subperm hrange).length_le
  rwa [List.length_range] at hlength

/-- Where a word could start, either a range does, and the word would be empty, or the word is taken
and is not empty. -/
theorem word_or_range (hdrop : text.drop i = c :: rest) (hword : isWordChar c = true)
    (hnumber : startsNumber c rest = false) :
    (startsRange (text.drop i) = true ∧ wordEnd text i = i ∧
        turn? text i = some (.ok (some .dots, i + 2))) ∨
      (i < wordEnd text i ∧
        turn? text i =
          some (.ok (some (.word (String.ofList (wordAt text i))), wordEnd text i))) := by
  have hblank := isBlank_of_isWordChar hword
  rw [turn?_scan hdrop hblank, wordEnd, wordAt, hdrop]
  cases hrange : startsRange (c :: rest) with
  | true =>
    obtain ⟨rfl, hhead⟩ := startsRange_cons.1 hrange
    obtain ⟨after, rfl⟩ := List.head?_eq_some_iff.1 hhead
    have hsplit : text.drop i = ['.', '.'] ++ after := hdrop
    have hbehind : text.length - after.length = i + 2 :=
      length_sub_of_drop hsplit (List.cons_ne_nil _ _)
    refine .inl ⟨rfl, rfl, ?_⟩
    change some (Except.ok (some Token.dots, text.length - after.length)) = _
    rw [hbehind]
  | false =>
    have htaken : (spanWord (c :: rest)).1 = c :: (spanWord rest).1 := by
      rw [spanWord_cons_of_mem hword hrange]
    have hsplit : text.drop i = (c :: (spanWord rest).1) ++ (spanWord rest).2 := by
      rw [hdrop, List.cons_append, spanWord_append]
    have hbehind := length_sub_of_drop hsplit (List.cons_ne_nil _ _)
    rw [scan_of_isWordChar hword hrange, hnumber, if_neg Bool.false_ne_true, htaken]
    refine .inr ⟨Nat.lt_add_of_pos_right (Nat.succ_pos _), ?_⟩
    change some (Except.ok (some (scanWord c rest).1, text.length - (scanWord c rest).2.length)) = _
    rw [scanWord, hbehind]

/-- Each turn of the scanner moves on, behind the token that it takes and not beyond the end, so the
loop that gives the tokens of a text has at most one turn for each character. The word at a position
is empty in front of a range, but there the range is taken; a word that is taken is not empty. -/
theorem turns_advance (text : List Char) :
    (∀ i found j, turn? text i = some (.ok (found, j)) →
        i < j ∧ j ≤ text.length ∧ ∀ t ∈ found, t.spelling ++ text.drop j = text.drop i) ∧
      (loop text 0).2 = tokens text ∧
      (loop text 0).1.Pairwise (· < ·) ∧
      (loop text 0).1.length ≤ text.length ∧
      ∀ i c rest, text.drop i = c :: rest → isWordChar c = true → startsNumber c rest = false →
        (startsRange (text.drop i) = true ∧ wordEnd text i = i ∧
            turn? text i = some (.ok (some .dots, i + 2))) ∨
          (i < wordEnd text i ∧ turn? text i =
            some (.ok (some (.word (String.ofList (wordAt text i))), wordEnd text i))) := by
  refine ⟨fun i found j h => ⟨lt_of_turn? h, le_of_turn? h, ?_⟩, loop_eq_tokens text 0,
    (starts_of_loop text 0).1, length_starts_of_loop text, ?_⟩
  · rintro t rfl
    exact spelling_of_turn? h
  · exact fun i c rest hdrop hword hnumber => word_or_range hdrop hword hnumber

/-- A range stands at position 1, where no word could be taken. -/
example : (loop "a..3D -.5".toList 0).1 = [0, 1, 3, 5, 6] ∧ wordEnd "a..3D -.5".toList 1 = 1 := by
  decide +kernel

end Expression

end PdfConform
