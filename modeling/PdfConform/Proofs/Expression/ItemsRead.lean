import PdfConform.Proofs.Expression.Condition

/-! Every spelling of a list of possible values is read as its items. A word is taken for a gate
only in front of a parenthesis, and a number or key for the low end of a range only in front of a
range mark, so nothing else may follow what is spelled. -/
namespace PdfConform

open Expression

namespace Operand

theorem read_of_spelled {operand : Operand} {ts : List Token} (h : operand.Spelled ts)
    (rest : List Token) : read (ts ++ rest) = .ok (operand, rest) := by
  cases h with
  | number hreal => simp only [List.cons_append, List.nil_append, read, hreal]
  | sibling hbare =>
    simp only [List.cons_append, List.nil_append, read, readKey_of_bare hbare, bind, Except.bind,
      pure, Except.pure]

end Operand

namespace ValueItem

/-- An item ends in front of these tokens. -/
def Ends (rest : List Token) : Prop :=
  rest.head? ≠ some .dots ∧ rest.head? ≠ some .leftParen

theorem ends_cons {t : Token} (hdots : t ≠ .dots) (hparen : t ≠ .leftParen) (rest : List Token) :
    Ends (t :: rest) :=
  ⟨fun h => hdots (Option.some.inj h), fun h => hparen (Option.some.inj h)⟩

variable {rest : List Token}

theorem readAfterNumber_of_ends (s : String) (h : Ends rest) :
    readAfterNumber s rest = .ok (.literal (.ofWord s), rest) := by
  unfold readAfterNumber
  split
  · exact absurd rfl h.1
  · rfl

theorem readAfterKey_of_ends (key : String) (h : Ends rest) :
    readAfterKey key rest = .ok (.sibling key, rest) := by
  unfold readAfterKey
  split
  · exact absurd rfl h.1
  · rfl

theorem read_of_bare {t : Token} {s : String} (hbare : t.bare? = some s) (h : Ends rest)
    (fuel : Nat) : read (fuel + 1) (t :: rest) = .ok (.literal (.ofWord s), rest) := by
  cases t <;> cases hbare
  case number => exact readAfterNumber_of_ends s h
  case word =>
    cases rest with
    | nil => rfl
    | cons next rest => cases next <;> first | rfl | exact absurd rfl h.2

/-- Marks of comparison start no other item. -/
theorem read_of_comparison {t : Token} {op : Comparison} (hop : Comparison.ofToken? t = some op)
    {bound : Operand} {us : List Token} (hbound : bound.Spelled us) (fuel : Nat) :
    read (fuel + 1) (t :: (us ++ rest)) = .ok (.compare op bound, rest) := by
  have hread := Operand.read_of_spelled hbound rest
  cases t <;> cases hop <;>
    simp only [read, Comparison.ofToken?, hread, bind, Except.bind, pure, Except.pure]

theorem read_of_range {low high : Operand} {ts us : List Token} (hlow : low.Spelled ts)
    (hhigh : high.Spelled us) (fuel : Nat) :
    read (fuel + 1) (ts ++ .dots :: (us ++ rest)) = .ok (.range low high, rest) := by
  have hread := Operand.read_of_spelled hhigh rest
  cases hlow with
  | number hreal =>
    simp only [List.cons_append, List.nil_append, read, readAfterNumber, hreal, hread, bind,
      Except.bind, pure, Except.pure]
  | sibling hbare =>
    simp only [List.cons_append, List.nil_append, read, readKey_of_bare hbare, readAfterKey, hread,
      bind, Except.bind, pure, Except.pure]

theorem read_of_spelled {item : ValueItem} {ts : List Token} (h : item.Spelled ts) {fuel : Nat}
    (hfuel : ts.length ≤ fuel) (hrest : Ends rest) : read fuel (ts ++ rest) = .ok (item, rest) := by
  induction h generalizing fuel rest with
  | bare hbare =>
    obtain ⟨fuel, rfl⟩ := Nat.exists_eq_add_one_of_ne_zero (Nat.ne_of_gt hfuel)
    exact read_of_bare hbare hrest fuel
  | quoted s =>
    obtain ⟨fuel, rfl⟩ := Nat.exists_eq_add_one_of_ne_zero (Nat.ne_of_gt hfuel)
    rfl
  | sibling hbare =>
    obtain ⟨fuel, rfl⟩ := Nat.exists_eq_add_one_of_ne_zero (show fuel ≠ 0 by simp at hfuel; omega)
    simp only [List.cons_append, List.nil_append, read, readKey_of_bare hbare, bind, Except.bind,
      readAfterKey_of_ends _ hrest]
  | range hlow hhigh =>
    obtain ⟨fuel, rfl⟩ := Nat.exists_eq_add_one_of_ne_zero (show fuel ≠ 0 by simp at hfuel; omega)
    rw [List.append_assoc]
    exact read_of_range hlow hhigh fuel
  | compare hop hbound =>
    obtain ⟨fuel, rfl⟩ := Nat.exists_eq_add_one_of_ne_zero (show fuel ≠ 0 by simp at hfuel; omega)
    exact read_of_comparison hop hbound fuel
  | gate hgate hparse _ ih =>
    simp only [List.length_append, List.length_cons, List.length_nil] at hfuel
    obtain ⟨fuel, rfl⟩ := Nat.exists_eq_add_one_of_ne_zero (show fuel ≠ 0 by omega)
    have hinner := ih (show _ ≤ fuel by omega)
      (ends_cons (t := .rightParen) (by decide) (by decide) rest)
    simp only [List.cons_append, List.nil_append, List.append_assoc, read, hgate,
      readVersion_of_parse hparse, expect_self, hinner, bind, Except.bind, pure, Except.pure]

theorem readList_of_spelled {items : List ValueItem} {ts : List Token} (h : ListSpelled items ts)
    {fuel : Nat} (hfuel : ts.length ≤ fuel) (hrest : Ends rest)
    (hcomma : rest.head? ≠ some .comma) :
    readList (fuel + 1) (ts ++ rest) = .ok (items, rest) := by
  induction h generalizing fuel with
  | one hitem =>
    have hread := read_of_spelled hitem (Nat.le_succ_of_le hfuel) hrest
    simp only [readList, hread, bind, Except.bind]
    split
    · exact absurd rfl hcomma
    · rfl
  | @cons item items ts us hitem _ ih =>
    rw [List.length_append, List.length_cons] at hfuel
    obtain ⟨fuel, rfl⟩ := Nat.exists_eq_add_one_of_ne_zero (show fuel ≠ 0 by omega)
    have hread := read_of_spelled hitem (show ts.length ≤ fuel + 1 + 1 by omega)
      (ends_cons (t := .comma) nofun nofun (us ++ rest))
    have hmore := ih (show us.length ≤ fuel by omega)
    rw [List.append_assoc, List.cons_append, readList]
    simp only [hread, hmore, bind, Except.bind, pure, Except.pure]

theorem Spelled.exists_cons {item : ValueItem} {ts : List Token} (h : item.Spelled ts) :
    ∃ t us, ts = t :: us ∧ t ≠ .leftBracket ∧ t ≠ .rightBracket := by
  have hbracket {t mark : Token} {s : String} (hmark : mark.bare? = none)
      (hbare : t.bare? = some s) : t ≠ mark := by
    rintro rfl
    rw [hmark] at hbare
    cases hbare
  cases h with
  | bare hbare => exact ⟨_, _, rfl, hbracket rfl hbare, hbracket rfl hbare⟩
  | quoted s => exact ⟨_, _, rfl, nofun, nofun⟩
  | sibling _ => exact ⟨_, _, rfl, nofun, nofun⟩
  | range hlow _ =>
    cases hlow with
    | number _ => exact ⟨_, _, rfl, nofun, nofun⟩
    | sibling _ => exact ⟨_, _, rfl, nofun, nofun⟩
  | compare hop _ =>
    refine ⟨_, _, rfl, ?_, ?_⟩ <;>
    · rintro rfl
      cases hop
  | gate _ _ _ => exact ⟨_, _, rfl, nofun, nofun⟩

theorem ListSpelled.exists_cons {items : List ValueItem} {ts : List Token}
    (h : ListSpelled items ts) :
    ∃ t us, ts = t :: us ∧ t ≠ .leftBracket ∧ t ≠ .rightBracket := by
  cases h with
  | one hitem => exact hitem.exists_cons
  | cons hitem _ =>
    obtain ⟨t, us, rfl, hne⟩ := hitem.exists_cons
    exact ⟨t, _, rfl, hne⟩

end ValueItem

/-- A list in brackets is read as the items that it spells. -/
theorem PossibleValues.ofTokens_of_spelled {items : List ValueItem} {ts : List Token}
    (h : ValueItem.ListSpelled items ts) :
    ofTokens (.leftBracket :: (ts ++ [.rightBracket])) = .ok ⟨items⟩ := by
  have hread := ValueItem.readList_of_spelled h
    (show ts.length ≤ (ts ++ [Token.rightBracket]).length by simp)
    (ValueItem.ends_cons (t := .rightBracket) nofun nofun []) nofun
  obtain ⟨t, us, rfl, _, hne⟩ := h.exists_cons
  unfold ofTokens
  split
  · next heq => cases heq
  · next heq => exact absurd (List.cons.inj (List.cons.inj heq).2).1 hne
  · next heq =>
    cases heq
    simp only [hread, expect_self, bind, Except.bind]
    rfl
  · next hnot => exact absurd rfl (hnot _)

/-- So is a list without them. -/
theorem PossibleValues.ofTokens_of_bare {items : List ValueItem} {ts : List Token}
    (h : ValueItem.ListSpelled items ts) : ofTokens ts = .ok ⟨items⟩ := by
  have hends : ValueItem.Ends [] := ⟨nofun, nofun⟩
  have hread := ValueItem.readList_of_spelled h (Nat.le_refl _) hends nofun
  rw [List.append_nil] at hread
  obtain ⟨t, us, rfl, hne, _⟩ := h.exists_cons
  unfold ofTokens
  split
  · next heq => cases heq
  · next heq => exact absurd (List.cons.inj heq).1 hne
  · next heq => exact absurd (List.cons.inj heq).1 hne
  · simp only [hread, bind, Except.bind]
    rfl

end PdfConform
