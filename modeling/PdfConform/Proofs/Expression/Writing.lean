import PdfConform.Proofs.Document.Dumped
import PdfConform.Proofs.Expression.Condition

/-! Pieces of written expressions and the tokens that are scanned from them, each in front of what
is written next. -/
namespace PdfConform

open Expression

namespace Expression

/-- In front of `rest` these characters are scanned as these tokens. -/
def Gives (cs : List Char) (ts : List Token) (rest : List Char) : Prop :=
  tokens (cs ++ rest) = (tokens rest).map (ts ++ ·)

theorem Gives.append {cs ds rest : List Char} {ts us : List Token} (h : Gives cs ts (ds ++ rest))
    (k : Gives ds us rest) : Gives (cs ++ ds) (ts ++ us) rest := by
  unfold Gives at h k ⊢
  rw [List.append_assoc, h, k]
  cases tokens rest with
  | error e => rfl
  | ok vs => simp only [Except.map, List.append_assoc]

theorem Gives.tokens_eq {cs : List Char} {ts : List Token} (h : Gives cs ts []) :
    tokens cs = .ok ts := by
  unfold Gives at h
  rw [List.append_nil] at h
  rw [h]
  exact congrArg Except.ok (List.append_nil ts)

theorem gives_token {c : Char} {cs rest : List Char} {t : Token} (hblank : Text.isBlank c = false)
    (h : scan c (cs ++ rest) = .ok (t, rest)) : Gives (c :: cs) [t] rest :=
  tokens_of_scan hblank h

theorem gives_space (rest : List Char) : Gives [' '] [] rest := by
  unfold Gives
  rw [List.singleton_append, tokens_blank (by decide)]
  cases tokens rest <;> rfl

theorem gives_bare {t : Token} {s : String} (h : t.Bare s) {rest : List Char}
    (hstop : Stops s.toList rest) : Gives s.toList [t] rest :=
  tokens_append h hstop

/-- No character of words comes first. -/
def Delimited (rest : List Char) : Prop := ∀ c ∈ rest.head?, isWordChar c = false

theorem delimited_nil : Delimited [] := nofun

theorem delimited_cons {c : Char} (h : isWordChar c = false) (rest : List Char) :
    Delimited (c :: rest) := by
  intro d hd
  cases hd
  exact h

theorem Delimited.stops {rest : List Char} (h : Delimited rest) (text : List Char) :
    Stops text rest := by
  cases rest with
  | nil => exact stops_nil text
  | cons c rest => exact stops_cons text (h c rfl) rest

theorem startsRange_of_startsNumber {c : Char} {cs : List Char} (h : startsNumber c cs = true) :
    startsRange (c :: cs) = false := by
  rw [← Bool.not_eq_true, startsRange_cons]
  rintro ⟨rfl, hhead⟩
  obtain ⟨rest, rfl⟩ := List.head?_eq_some_iff.1 hhead
  cases h

/-- Digits with at most one point between them, and a sign perhaps, are a number. -/
theorem bare_number {c : Char} {cs : List Char} (hstart : startsNumber c cs = true)
    (hspan : NumberSpan cs []) :
    (Token.number (String.ofList (c :: cs))).Bare (String.ofList (c :: cs)) := by
  have hnumber : spanNumber cs = (cs, []) := by
    simpa using spanNumber_append hspan
  have hc := isWordChar_of_startsNumber hstart
  have hscan : scan c cs = .ok (.number (String.ofList (c :: cs)), []) := by
    rw [scan_of_isWordChar hc (startsRange_of_startsNumber hstart), hstart, if_pos rfl,
      scanNumber_eq c hnumber rfl, if_pos rfl]
  refine ⟨rfl, ?_⟩
  rw [String.toList_ofList, tokens_of_scan (isBlank_of_isWordChar hc) hscan]
  rfl

theorem startsNumber_of_isDigit {c : Char} (h : c.isDigit = true) (cs : List Char) :
    startsNumber c cs = true := by
  rw [startsNumber, h, Bool.true_or]

theorem startsNumber_minus {cs : List Char} (h : startsWithDigit cs = true) :
    startsNumber '-' cs = true := h

theorem toLower_of_startsNumber {c : Char} {cs : List Char} (h : startsNumber c cs = true) :
    c.toLower = c := by
  simp only [startsNumber, Bool.or_eq_true, Bool.and_eq_true, beq_iff_eq] at h
  rcases h with h | ⟨((rfl | rfl) | rfl), _⟩
  · exact toLower_of_isDigit h
  all_goals rfl

/-- What starts like a number is no truth value. -/
theorem not_truth_of_startsNumber {c : Char} {cs : List Char} (h : startsNumber c cs = true)
    (value : Bool) :
    Literal.equalsIgnoringCase (String.ofList (c :: cs)) (Predicate.Name.truth value).text =
      false := by
  have hletter {letter : Char} (hl : startsNumber letter cs = false) : c.toLower ≠ letter := by
    rw [toLower_of_startsNumber h]
    rintro rfl
    rw [h] at hl
    cases hl
  rw [← Bool.not_eq_true, Literal.equalsIgnoringCase, beq_iff_eq, String.toList_ofList,
    List.map_cons]
  intro hsame
  have hhead := congrArg List.head? hsame
  cases value with
  | false => exact hletter rfl (Option.some.inj hhead)
  | true => exact hletter rfl (Option.some.inj hhead)

end Expression

namespace Number

theorem exists_digits (n : Nat) :
    ∃ c cs, digits n = c :: cs ∧ c.isDigit = true ∧ ∀ d ∈ cs, d.isDigit = true := by
  obtain ⟨c, cs, hcs⟩ := List.exists_cons_of_ne_nil (digits_ne_nil n)
  have hall := List.all_eq_true.1 (all_isDigit_digits n)
  rw [hcs] at hall
  exact ⟨c, cs, hcs, hall c List.mem_cons_self, fun d hd => hall d (List.mem_cons_of_mem c hd)⟩

end Number

end PdfConform
