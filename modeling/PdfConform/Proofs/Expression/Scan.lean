import PdfConform.Proofs.Expression.Items
import PdfConform.Proofs.Json.Lexeme

/-! What the scanner makes of a text does not depend on how far it looks ahead: a token takes the
characters that spell it and leaves the rest, and a word or number is found again wherever its text
is followed by something that cannot be read on as a part of it. -/
namespace PdfConform

/-- The characters of a token; quotes stand around a quoted text. -/
def Token.spelling : Token → List Char
  | .leftBracket => ['[']
  | .rightBracket => [']']
  | .leftParen => ['(']
  | .rightParen => [')']
  | .comma => [',']
  | .at => ['@']
  | .bang => ['!']
  | .andAnd => ['&', '&']
  | .orOr => ['|', '|']
  | .equal => ['=', '=']
  | .notEqual => ['!', '=']
  | .less => ['<']
  | .lessEqual => ['<', '=']
  | .greater => ['>']
  | .greaterEqual => ['>', '=']
  | .dots => ['.', '.']
  | .number s => s.toList
  | .word s => s.toList
  | .quoted s => '\'' :: (s.toList ++ ['\''])

theorem Token.spelling_of_bare {t : Token} {s : String} (h : t.bare? = some s) :
    t.spelling = s.toList := by
  cases t <;> cases h <;> rfl

namespace Expression

theorem startsRange_cons {c : Char} {cs : List Char} :
    startsRange (c :: cs) = true ↔ c = '.' ∧ cs.head? = some '.' := by
  unfold startsRange
  split
  · next heq => cases heq; simp
  · next hnot =>
    simp only [Bool.false_eq_true, false_iff, not_and]
    rintro rfl hhead
    obtain ⟨rest, rfl⟩ := List.head?_eq_some_iff.1 hhead
    exact hnot rest rfl

theorem isWordChar_of_isDigit {c : Char} (h : c.isDigit = true) : isWordChar c = true := by
  simp [isWordChar, Char.isAlphanum, h]

theorem toNat_of_isAlphanum {c : Char} (h : c.isAlphanum = true) :
    48 ≤ c.toNat ∧ c.toNat ≤ 122 := by
  have hbetween {low high : Char} (hlow : low.val ≤ c.val) (hhigh : c.val ≤ high.val)
      (hfirst : 48 ≤ low.toNat) (hlast : high.toNat ≤ 122) : 48 ≤ c.toNat ∧ c.toNat ≤ 122 :=
    ⟨Nat.le_trans hfirst (UInt32.le_iff_toNat_le.1 hlow),
      Nat.le_trans (UInt32.le_iff_toNat_le.1 hhigh) hlast⟩
  rcases Bool.or_eq_true_iff.1 h with hletter | hdigit
  · rcases Bool.or_eq_true_iff.1 hletter with hupper | hlower
    · obtain ⟨hlow, hhigh⟩ := of_decide_eq_true hupper
      exact hbetween hlow hhigh (by decide) (by decide)
    · obtain ⟨hlow, hhigh⟩ := Bool.and_eq_true_iff.1 hlower
      exact hbetween (of_decide_eq_true hlow) (of_decide_eq_true hhigh) (by decide) (by decide)
  · obtain ⟨hlow, hhigh⟩ := Bool.and_eq_true_iff.1 hdigit
    exact hbetween (of_decide_eq_true hlow) (of_decide_eq_true hhigh) (by decide) (by decide)

theorem isBlank_of_isWordChar {c : Char} (h : isWordChar c = true) : Text.isBlank c = false := by
  simp only [isWordChar, Bool.or_eq_true, beq_iff_eq] at h
  rcases h with ((((((h | rfl) | rfl) | rfl) | rfl) | rfl) | rfl) | rfl
  · have hrange := toNat_of_isAlphanum h
    simp [Text.isBlank]
    omega
  all_goals decide

/-! Numbers -/

/-- The characters start with what a number could take: a digit, or a point before one. -/
def continuesNumber : List Char → Bool
  | '.' :: rest => startsWithDigit rest
  | rest => startsWithDigit rest

/-- The digits of a number after its first character, in front of what stops it. -/
inductive NumberSpan : List Char → List Char → Prop
  | whole {ds rest : List Char} : (∀ c ∈ ds, c.isDigit = true) → continuesNumber rest = false →
    NumberSpan ds rest
  | fraction {ds fs rest : List Char} : (∀ c ∈ ds, c.isDigit = true) → fs ≠ [] →
    (∀ c ∈ fs, c.isDigit = true) → startsWithDigit rest = false →
    NumberSpan (ds ++ '.' :: fs) rest

theorem startsWithDigit_of_stopped {cs : List Char} (h : continuesNumber cs = false) :
    startsWithDigit cs = false := by
  unfold continuesNumber at h
  split at h
  · rfl
  · exact h

theorem startsWithDigit_eq_false {cs : List Char} :
    startsWithDigit cs = false ↔ ∀ c ∈ cs.head?, c.isDigit = false := by
  cases cs <;> simp [startsWithDigit]

/-- What stops a number is its own affair: other characters stop it too if they start like these. -/
theorem NumberSpan.stop {number rest other : List Char} (h : NumberSpan number rest)
    (hdigit : startsWithDigit rest = false → startsWithDigit other = false)
    (hmore : continuesNumber rest = false → continuesNumber other = false) :
    NumberSpan number other := by
  cases h with
  | whole hds hrest => exact .whole hds (hmore hrest)
  | fraction hds hne hfs hrest => exact .fraction hds hne hfs (hdigit hrest)

theorem NumberSpan.isWordChar {number rest : List Char} (h : NumberSpan number rest) :
    ∀ c ∈ number, isWordChar c = true := by
  cases h with
  | whole hds _ => exact fun c hc => isWordChar_of_isDigit (hds c hc)
  | fraction hds _ hfs _ =>
    intro c hc
    rcases List.mem_append.1 hc with hc | hc
    · exact isWordChar_of_isDigit (hds c hc)
    · rcases List.mem_cons.1 hc with rfl | hc
      · rfl
      · exact isWordChar_of_isDigit (hfs c hc)

theorem spanNumber_append {number rest : List Char} (h : NumberSpan number rest) :
    spanNumber (number ++ rest) = (number, rest) := by
  cases h with
  | whole hds hrest =>
    have hdigit := startsWithDigit_eq_false.1 (startsWithDigit_of_stopped hrest)
    rw [spanNumber, span_append hds hdigit]
    split
    · next tail heq =>
      cases heq
      have hstop : startsWithDigit tail = false := hrest
      rw [hstop]
      rfl
    · rfl
  | @fraction ds fs rest hds hne hfs hrest =>
    have hfirst : startsWithDigit (fs ++ rest) = true := by
      obtain ⟨f, fs, rfl⟩ := List.exists_cons_of_ne_nil hne
      exact hfs f List.mem_cons_self
    have hspan : (ds ++ '.' :: fs ++ rest).span Char.isDigit = (ds, '.' :: (fs ++ rest)) := by
      rw [List.append_assoc, List.cons_append]
      exact span_append hds (by simp)
    rw [spanNumber, hspan]
    simp only [hfirst, if_true, span_append hfs (startsWithDigit_eq_false.1 hrest)]

theorem exists_of_spanNumber {cs number rest : List Char} (h : spanNumber cs = (number, rest)) :
    cs = number ++ rest ∧ NumberSpan number rest := by
  have hsplit := List.takeWhile_append_dropWhile (p := Char.isDigit) (l := cs)
  have hds (l : List Char) : ∀ c ∈ l.takeWhile Char.isDigit, c.isDigit = true :=
    fun c hc => List.mem_takeWhile_imp hc
  have hstop (l : List Char) : startsWithDigit (l.dropWhile Char.isDigit) = false := by
    rw [startsWithDigit_eq_false]
    intro c hc
    have := List.head?_dropWhile_not Char.isDigit l
    rw [Option.mem_def.1 hc] at this
    simpa using this
  unfold spanNumber at h
  rw [List.span_eq_takeWhile_dropWhile] at h
  split at h
  · next whole tail heq =>
    obtain ⟨rfl, htail⟩ := Prod.mk.inj heq
    rw [htail] at hsplit
    split at h
    · next hfraction =>
      rw [List.span_eq_takeWhile_dropWhile] at h
      cases h
      refine ⟨?_, .fraction (hds cs) ?_ (hds tail) (hstop tail)⟩
      · rw [List.append_assoc, List.cons_append, List.takeWhile_append_dropWhile, hsplit]
      · cases tail with
        | nil => cases hfraction
        | cons c tail => simp [show c.isDigit = true from hfraction]
    · next hfraction =>
      cases h
      exact ⟨hsplit.symm, .whole (hds cs) (by simpa [continuesNumber] using hfraction)⟩
  · next hpoint =>
    cases h
    refine ⟨hsplit.symm, .whole (hds cs) ?_⟩
    unfold continuesNumber
    split
    · next rest heq => exact (hpoint _ rest (Prod.ext rfl heq)).elim
    · exact hstop cs

/-! Words and numbers -/

/-- These characters cannot be read on as part of a word with this text: the first is no character
of words, or a range starts with it that the text does not blur with a point of its own. -/
def Stops (text rest : List Char) : Prop :=
  ∀ c ∈ rest.head?, isWordChar c = true → startsRange rest = true ∧ text.getLast? ≠ some '.'

theorem stops_nil (text : List Char) : Stops text [] := nofun

theorem stops_cons (text : List Char) {c : Char} (h : isWordChar c = false) (rest : List Char) :
    Stops text (c :: rest) := by
  intro d hd hword
  cases hd
  rw [h] at hword
  cases hword

theorem stops_range {text : List Char} (h : text.getLast? ≠ some '.') (rest : List Char) :
    Stops text ('.' :: '.' :: rest) :=
  fun _ _ _ => ⟨rfl, h⟩

namespace Stops

variable {text rest : List Char}

theorem tail {c : Char} (h : Stops (c :: text) rest) : Stops text rest := by
  intro d hd hword
  obtain ⟨hrange, hlast⟩ := h d hd hword
  refine ⟨hrange, fun htext => hlast ?_⟩
  rw [List.getLast?_cons, htext]
  rfl

theorem drop {first : List Char} (h : Stops (first ++ text) rest) : Stops text rest := by
  induction first with
  | nil => exact h
  | cons c first ih => exact ih h.tail

theorem not_continues (h : Stops text rest) : continuesNumber rest = false := by
  cases rest with
  | nil => rfl
  | cons c rest =>
    cases hword : isWordChar c with
    | false =>
      have hdigit : c.isDigit = false := by
        rw [← Bool.not_eq_true]
        exact fun hc => absurd (isWordChar_of_isDigit hc) (by simp [hword])
      unfold continuesNumber
      split
      · next heq => cases heq; cases hword
      · exact hdigit
    | true =>
      obtain ⟨rfl, hhead⟩ := startsRange_cons.1 (h c rfl hword).1
      obtain ⟨tail, rfl⟩ := List.head?_eq_some_iff.1 hhead
      rfl

theorem not_digit (h : Stops text rest) : startsWithDigit rest = false :=
  startsWithDigit_of_stopped h.not_continues

/-- A point at the end of the text does not meet another one. -/
theorem startsRange_append {c : Char} {after : List Char} (h : Stops (c :: text) rest)
    (hrange : startsRange (c :: (text ++ after)) = false) :
    startsRange (c :: (text ++ rest)) = false := by
  rw [← Bool.not_eq_true, startsRange_cons] at hrange ⊢
  rintro ⟨rfl, hhead⟩
  cases text with
  | nil => exact (h '.' hhead rfl).2 rfl
  | cons d text => exact hrange ⟨rfl, hhead⟩

theorem not_digit_append {after : List Char} (h : Stops text rest)
    (hdigit : startsWithDigit (text ++ after) = false) :
    startsWithDigit (text ++ rest) = false := by
  cases text with
  | nil => exact h.not_digit
  | cons d text => exact hdigit

theorem not_continues_append {after : List Char} (h : Stops text rest)
    (hmore : continuesNumber (text ++ after) = false) : continuesNumber (text ++ rest) = false := by
  cases text with
  | nil => exact h.not_continues
  | cons d text =>
    by_cases hpoint : d = '.'
    · subst hpoint
      exact h.tail.not_digit_append hmore
    · have hfirst (cs : List Char) : continuesNumber (d :: cs) = d.isDigit := by
        simp [continuesNumber, startsWithDigit, hpoint]
      rw [List.cons_append, hfirst] at hmore ⊢
      exact hmore

end Stops

theorem spanWord_cons_of_mem {c : Char} {cs : List Char} (hc : isWordChar c = true)
    (hrange : startsRange (c :: cs) = false) :
    spanWord (c :: cs) = (c :: (spanWord cs).1, (spanWord cs).2) := by
  rw [spanWord, hc, hrange]
  rfl

theorem spanWord_of_stops {rest : List Char} (h : Stops [] rest) : spanWord rest = ([], rest) := by
  cases rest with
  | nil => rfl
  | cons c rest =>
    have hnot : (isWordChar c && !startsRange (c :: rest)) = false := by
      cases hc : isWordChar c with
      | false => rfl
      | true => rw [(h c rfl hc).1]; rfl
    rw [spanWord, hnot]
    rfl

/-- The word that was taken off a text is taken off it again in front of what stops it. -/
theorem spanWord_append_of_stops {cs word after rest : List Char}
    (hspan : spanWord cs = (word, after)) (hstop : Stops word rest) :
    spanWord (word ++ rest) = (word, rest) := by
  fun_induction spanWord cs generalizing word with
  | case1 => cases hspan; exact spanWord_of_stops hstop
  | case2 c cs hc more last hmore ih =>
    cases hspan
    simp only [Bool.and_eq_true, Bool.not_eq_true'] at hc
    obtain ⟨hword, hrange⟩ := hc
    have hcs : more ++ after = cs := by rw [← spanWord_append cs, hmore]
    rw [← hcs] at hrange
    rw [List.cons_append, spanWord_cons_of_mem hword (hstop.startsRange_append hrange),
      ih hmore hstop.tail]
  | case3 c cs hc => cases hspan; exact spanWord_of_stops hstop

theorem isWordChar_of_startsNumber {c : Char} {cs : List Char} (h : startsNumber c cs = true) :
    isWordChar c = true := by
  simp only [startsNumber, Bool.or_eq_true, Bool.and_eq_true, beq_iff_eq] at h
  rcases h with h | ⟨((rfl | rfl) | rfl), _⟩
  · exact isWordChar_of_isDigit h
  all_goals rfl

theorem scan_of_isWordChar {c : Char} {cs : List Char} (hc : isWordChar c = true)
    (hrange : startsRange (c :: cs) = false) :
    scan c cs = .ok (if startsNumber c cs then scanNumber c cs else scanWord c cs) := by
  unfold scan
  split
  case h_18 =>
    rw [hc]
    split <;> rfl
  case h_16 => cases hrange
  all_goals cases hc

theorem span_quote_eq {cs inner after : List Char} {mark : Char}
    (h : cs.span (· != '\'') = (inner, mark :: after)) : cs = inner ++ '\'' :: after := by
  rw [List.span_eq_takeWhile_dropWhile] at h
  obtain ⟨hinner, hafter⟩ := Prod.mk.inj h
  have hmark := List.head?_dropWhile_not (· != '\'') cs
  rw [hafter] at hmark
  have hmark : mark = '\'' := by simpa using hmark
  rw [← hmark, ← hafter, ← hinner, List.takeWhile_append_dropWhile]

/-- A token is a word or number, or it is a mark or a quoted text that its spelling gives away. -/
theorem scan_cases {c : Char} {cs after : List Char} {t : Token} (h : scan c cs = .ok (t, after)) :
    isWordChar c = true ∧ startsRange (c :: cs) = false ∨
      t.bare? = none ∧ t.spelling ++ after = c :: cs := by
  unfold scan at h
  split at h
  case h_18 hpoint =>
    have hrange : startsRange (c :: cs) = false := by
      rw [← Bool.not_eq_true, startsRange_cons]
      rintro ⟨rfl, hhead⟩
      obtain ⟨rest, rfl⟩ := List.head?_eq_some_iff.1 hhead
      exact hpoint rest rfl rfl
    split at h
    · next hnumber => exact .inl ⟨isWordChar_of_startsNumber hnumber, hrange⟩
    · split at h
      · next hword => exact .inl ⟨hword, hrange⟩
      · cases h
  case h_17 =>
    unfold scanQuoted at h
    split at h
    · next inner mark rest hspan =>
      cases h
      refine .inr ⟨rfl, ?_⟩
      rw [span_quote_eq hspan]
      simp [Token.spelling]
    · cases h
  all_goals cases h; exact .inr ⟨rfl, rfl⟩

/-- A number keeps its digits, and turns into a word with what is glued to them. -/
theorem scanNumber_eq (c : Char) {cs number rest more after : List Char}
    (hnumber : spanNumber cs = (number, rest)) (hword : spanWord rest = (more, after)) :
    scanNumber c cs =
      (if more = [] then .number (String.ofList (c :: number))
        else .word (String.ofList (c :: (number ++ more))), after) := by
  have hrest := spanWord_append rest
  rw [hword] at hrest
  unfold scanNumber
  rw [hnumber]
  dsimp only
  rw [hword]
  split
  · next heq =>
    cases heq
    rw [← hrest]
    rfl
  · next hne heq =>
    cases heq
    rw [if_neg fun hmore => hne hmore]
    rfl

theorem NumberSpan.ne_nil {number rest : List Char} (h : NumberSpan number rest)
    (hdigit : startsWithDigit (number ++ rest) = true) : number ≠ [] := by
  intro hnil
  cases h with
  | whole _ hrest =>
    rw [hnil, List.nil_append, startsWithDigit_of_stopped hrest] at hdigit
    cases hdigit
  | fraction => simp at hnil

/-- A scanned number or word starts with the given character, takes characters of words only and
is scanned again from its own text in front of what stops that. -/
structure Rescans (c : Char) (cs after : List Char) (t : Token) (text : List Char) : Prop where
  split : cs = text ++ after
  bare : t.bare? = some (String.ofList (c :: text))
  word : ∀ d ∈ c :: text, isWordChar d = true
  again : ∀ rest, Stops (c :: text) rest → scan c (text ++ rest) = .ok (t, rest)

theorem rescans_number {c : Char} {cs : List Char} (hrange : startsRange (c :: cs) = false)
    (hstart : startsNumber c cs = true) :
    ∃ text, Rescans c cs (scanNumber c cs).2 (scanNumber c cs).1 text := by
  have hc := isWordChar_of_startsNumber hstart
  obtain ⟨number, more, hnumber⟩ : ∃ number more, spanNumber cs = (number, more) := ⟨_, _, rfl⟩
  obtain ⟨word, after, hword⟩ : ∃ word after, spanWord more = (word, after) := ⟨_, _, rfl⟩
  obtain ⟨rfl, hspan⟩ := exists_of_spanNumber hnumber
  obtain rfl : word ++ after = more := by rw [← spanWord_append more, hword]
  have hinside : ∀ d ∈ word, isWordChar d = true := by
    have hmem := @isWordChar_of_mem_spanWord (word ++ after)
    rw [hword] at hmem
    exact fun d hd => hmem hd
  rw [scanNumber_eq c hnumber hword]
  refine ⟨number ++ word, by simp, ?_, ?_, ?_⟩
  · by_cases hnil : word = []
    · subst hnil; simp [Token.bare?]
    · simp [hnil, Token.bare?]
  · intro d hd
    rcases List.mem_cons.1 hd with rfl | hd
    · exact hc
    · rcases List.mem_append.1 hd with hd | hd
      · exact hspan.isWordChar d hd
      · exact hinside d hd
  · intro rest hstop
    have hglued : Stops word rest := hstop.tail.drop
    have hnumber' : spanNumber (number ++ (word ++ rest)) = (number, word ++ rest) :=
      spanNumber_append (hspan.stop hglued.not_digit_append hglued.not_continues_append)
    have hword' := spanWord_append_of_stops hword hglued
    rw [← List.append_assoc] at hrange
    have hstart' : startsNumber c (number ++ word ++ rest) = true := by
      unfold startsNumber at hstart ⊢
      cases hdigit : startsWithDigit (number ++ (word ++ after)) with
      | false => simp_all
      | true =>
        obtain ⟨d, number, rfl⟩ := List.exists_cons_of_ne_nil (hspan.ne_nil hdigit)
        simpa [startsWithDigit] using hstart
    rw [scan_of_isWordChar hc (hstop.startsRange_append hrange), hstart', if_pos rfl,
      List.append_assoc, scanNumber_eq c hnumber' hword']

theorem rescans_word {c : Char} {cs : List Char} (hc : isWordChar c = true)
    (hrange : startsRange (c :: cs) = false) (hstart : startsNumber c cs = false) :
    ∃ text, Rescans c cs (scanWord c cs).2 (scanWord c cs).1 text := by
  obtain ⟨word, after, hword⟩ : ∃ word after, spanWord cs = (word, after) := ⟨_, _, rfl⟩
  obtain rfl : word ++ after = cs := by rw [← spanWord_append cs, hword]
  have heq (tail : List Char) (htail : spanWord (word ++ tail) = (word, tail)) :
      scanWord c (word ++ tail) = (.word (String.ofList (c :: word)), tail) := by
    rw [scanWord, htail]
  rw [heq after hword]
  refine ⟨word, rfl, rfl, ?_, ?_⟩
  · have hmem := @isWordChar_of_mem_spanWord (word ++ after)
    rw [hword] at hmem
    exact List.forall_mem_cons.2 ⟨hc, fun d hd => hmem hd⟩
  · intro rest hstop
    have hstart' : startsNumber c (word ++ rest) = false := by
      simp only [startsNumber, Bool.or_eq_false_iff, Bool.and_eq_false_imp] at hstart ⊢
      exact ⟨hstart.1, fun hsign => hstop.tail.not_digit_append (hstart.2 hsign)⟩
    rw [scan_of_isWordChar hc (hstop.startsRange_append hrange), hstart', if_neg Bool.false_ne_true,
      heq rest (spanWord_append_of_stops hword hstop.tail)]

theorem rescans_of_scan {c : Char} {cs after : List Char} {t : Token}
    (h : scan c cs = .ok (t, after)) :
    (∃ text, Rescans c cs after t text) ∨ t.bare? = none ∧ t.spelling ++ after = c :: cs := by
  refine (scan_cases h).imp_left fun ⟨hc, hrange⟩ => ?_
  rw [scan_of_isWordChar hc hrange] at h
  have hscan := Except.ok.inj h
  split at hscan
  · next hstart => simpa [hscan] using rescans_number hrange hstart
  · next hstart => simpa [hscan] using rescans_word hc hrange (by simpa using hstart)

/-- A token takes the characters that spell it. -/
theorem spelling_append_of_scan {c : Char} {cs after : List Char} {t : Token}
    (h : scan c cs = .ok (t, after)) : t.spelling ++ after = c :: cs := by
  rcases rescans_of_scan h with ⟨text, hscan⟩ | ⟨_, hspelling⟩
  · rw [Token.spelling_of_bare hscan.bare, String.toList_ofList, hscan.split]
    rfl
  · exact hspelling

theorem spelling_ne_nil_of_scan {c : Char} {cs after : List Char} {t : Token}
    (h : scan c cs = .ok (t, after)) : t.spelling ≠ [] := by
  intro hnil
  rcases rescans_of_scan h with ⟨text, hscan⟩ | ⟨hbare, _⟩
  · rw [Token.spelling_of_bare hscan.bare, String.toList_ofList] at hnil
    cases hnil
  · cases t <;> first | cases hnil | cases hbare

theorem length_of_scan {c : Char} {cs after : List Char} {t : Token}
    (h : scan c cs = .ok (t, after)) : after.length ≤ cs.length := by
  have hlength := congrArg List.length (spelling_append_of_scan h)
  have hspelling := List.length_pos_iff.2 (spelling_ne_nil_of_scan h)
  simp only [List.length_append, List.length_cons] at hlength
  omega

/-! Whole texts -/

theorem scanAll_congr {m n : Nat} {cs : List Char} (hm : cs.length ≤ m) (hn : cs.length ≤ n) :
    scanAll m cs = scanAll n cs := by
  induction m generalizing n cs with
  | zero =>
    rw [List.length_eq_zero_iff.1 (Nat.le_zero.1 hm)]
    simp [scanAll]
  | succ m ih =>
    cases cs with
    | nil => simp [scanAll]
    | cons c cs =>
      obtain ⟨n, rfl⟩ := Nat.exists_eq_add_of_lt (Nat.lt_of_lt_of_le (Nat.succ_pos _) hn)
      rw [Nat.zero_add] at hn ⊢
      simp only [List.length_cons, Nat.add_le_add_iff_right] at hm hn
      rw [scanAll, scanAll, ih hm hn]
      cases hscan : scan c cs with
      | error e => rfl
      | ok found =>
        obtain ⟨t, after⟩ := found
        have hafter := length_of_scan hscan
        have hmore := ih (Nat.le_trans hafter hm) (Nat.le_trans hafter hn)
        simp only [bind, Except.bind, hmore]

/-- Beyond the length of the text more fuel changes nothing. -/
theorem scanAll_eq {fuel : Nat} {cs : List Char} (h : cs.length ≤ fuel) :
    scanAll fuel cs = tokens cs :=
  scanAll_congr h (Nat.le_refl _)

theorem tokens_blank {c : Char} (h : Text.isBlank c = true) (cs : List Char) :
    tokens (c :: cs) = tokens cs := by
  rw [tokens, List.length_cons, scanAll, if_pos h, tokens]

theorem tokens_cons {c : Char} (h : Text.isBlank c = false) (cs : List Char) :
    tokens (c :: cs) = (scan c cs).bind fun (t, after) => (tokens after).map (t :: ·) := by
  rw [tokens, List.length_cons, scanAll, if_neg (by simp [h])]
  cases hscan : scan c cs with
  | error e => rfl
  | ok found =>
    obtain ⟨t, after⟩ := found
    simp only [bind, Except.bind, scanAll_eq (length_of_scan hscan)]
    cases tokens after <;> rfl

theorem tokens_of_scan {c : Char} {cs after : List Char} {t : Token}
    (hblank : Text.isBlank c = false) (h : scan c cs = .ok (t, after)) :
    tokens (c :: cs) = (tokens after).map (t :: ·) := by
  rw [tokens_cons hblank, h]
  rfl

/-- The tokens of a text are found one after the other, past blanks. -/
theorem tokens_induct {motive : List Char → List Token → Prop} (nil : motive [] [])
    (blank : ∀ {c cs ts}, Text.isBlank c = true → motive cs ts → motive (c :: cs) ts)
    (token : ∀ {c cs t after ts}, Text.isBlank c = false → scan c cs = .ok (t, after) →
      motive after ts → motive (c :: cs) (t :: ts))
    {cs : List Char} {ts : List Token} (h : tokens cs = .ok ts) : motive cs ts := by
  induction hn : cs.length using Nat.strongRecOn generalizing cs ts with
  | ind n ih =>
    cases cs with
    | nil => cases h; exact nil
    | cons c cs =>
      cases hblank : Text.isBlank c with
      | true =>
        rw [tokens_blank hblank] at h
        exact blank hblank (ih cs.length (by simp [← hn]) h rfl)
      | false =>
        rw [tokens_cons hblank] at h
        obtain ⟨⟨t, after⟩, hscan, hmore⟩ := ok_of_bind h
        obtain ⟨ts, hts, rfl⟩ := ok_of_map hmore
        have hafter := length_of_scan hscan
        refine token hblank hscan (ih after.length ?_ hts rfl)
        rw [← hn]
        exact Nat.lt_succ_of_le hafter

theorem spellings_sublist {cs : List Char} {ts : List Token} (h : tokens cs = .ok ts) :
    (ts.flatMap Token.spelling).Sublist cs := by
  refine tokens_induct (motive := fun cs ts => (ts.flatMap Token.spelling).Sublist cs)
    (.refl _) (fun _ ih => ih.cons _) (fun _ hscan ih => ?_) h
  rw [List.flatMap_cons, ← spelling_append_of_scan hscan]
  exact ih.append_left _

end Expression

open Expression

/-- The text is that of a word or number and is scanned as such. -/
def Token.Bare (t : Token) (s : String) : Prop := t.bare? = some s ∧ tokens s.toList = .ok [t]

namespace Expression

theorem Rescans.tokens_append {c : Char} {cs after text rest : List Char} {t : Token}
    (h : Rescans c cs after t text) (hstop : Stops (c :: text) rest) :
    tokens (c :: (text ++ rest)) = (tokens rest).map (t :: ·) :=
  tokens_of_scan (isBlank_of_isWordChar (h.word c List.mem_cons_self)) (h.again rest hstop)

/-- Every word or number in a text is scanned from its own text too. -/
theorem bare_of_mem_tokens {cs : List Char} {ts : List Token} (h : tokens cs = .ok ts) {t : Token}
    (ht : t ∈ ts) {s : String} (hbare : t.bare? = some s) : t.Bare s := by
  revert ht
  refine tokens_induct (motive := fun _ ts => t ∈ ts → t.Bare s) nofun (fun _ ih => ih) ?_ h
  intro c cs u after ts _ hscan ih ht
  rcases List.mem_cons.1 ht with rfl | ht
  · rcases rescans_of_scan hscan with ⟨text, hagain⟩ | ⟨hnone, _⟩
    · obtain rfl := Option.some.inj (hbare.symm.trans hagain.bare)
      have halone := hagain.tokens_append (stops_nil _)
      rw [List.append_nil] at halone
      exact ⟨hbare, by rw [String.toList_ofList, halone]; rfl⟩
    · rw [hbare] at hnone
      cases hnone
  · exact ih ht

theorem exists_rescans_of_bare {t : Token} {s : String} (h : t.Bare s) :
    ∃ c text, s.toList = c :: text ∧ Rescans c text [] t text := by
  obtain ⟨hbare, halone⟩ := h
  have hspelling := Token.spelling_of_bare hbare
  cases htext : s.toList with
  | nil =>
    rw [htext] at halone
    cases halone
  | cons c cs =>
    rw [htext] at halone hspelling
    cases hblank : Text.isBlank c with
    | true =>
      -- The spelling has all characters of the text, so none of them is a blank.
      rw [tokens_blank hblank] at halone
      have hlength := (spellings_sublist halone).length_le
      simp only [List.flatMap_singleton, hspelling, List.length_cons] at hlength
      omega
    | false =>
      rw [tokens_cons hblank] at halone
      obtain ⟨⟨u, after⟩, hscan, hmore⟩ := ok_of_bind halone
      obtain ⟨ts, _, hts⟩ := ok_of_map hmore
      cases hts
      rcases rescans_of_scan hscan with ⟨text, hagain⟩ | ⟨hnone, _⟩
      · have hcs := congrArg String.toList (Option.some.inj (hbare.symm.trans hagain.bare))
        rw [htext, String.toList_ofList] at hcs
        cases hcs
        have hafter := hagain.split
        rw [List.self_eq_append_right] at hafter
        exact ⟨c, cs, rfl, hafter ▸ hagain⟩
      · rw [hbare] at hnone
        cases hnone

/-- Glued to what stops it, the text of a word or number gives that and what follows. -/
theorem tokens_append {t : Token} {s : String} (h : t.Bare s) {rest : List Char}
    (hstop : Stops s.toList rest) : tokens (s.toList ++ rest) = (tokens rest).map (t :: ·) := by
  obtain ⟨c, text, htext, hagain⟩ := exists_rescans_of_bare h
  rw [htext] at hstop ⊢
  exact hagain.tokens_append hstop

theorem isWordChar_of_bare {t : Token} {s : String} (h : t.Bare s) :
    s.toList ≠ [] ∧ ∀ c ∈ s.toList, isWordChar c = true := by
  obtain ⟨c, text, htext, hagain⟩ := exists_rescans_of_bare h
  rw [htext]
  exact ⟨List.cons_ne_nil _ _, hagain.word⟩

end Expression

end PdfConform
