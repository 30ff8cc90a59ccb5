import PdfConform.Proofs.Schema.WellFormed

/-! How lists of possible values are spelled. Every list that is read is a spelling of its items,
and in a spelling a bare word that stands alone is an item of its own. -/
namespace PdfConform

open Expression

/-- The text of a bare word or number. -/
def Token.bare? : Token → Option String
  | .word s => some s
  | .number s => some s
  | _ => none

namespace Expression

theorem bare_of_readKey {ts rest : List Token} {key : String} (h : readKey ts = .ok (key, rest)) :
    ∃ t, ts = t :: rest ∧ t.bare? = some key := by
  unfold readKey at h
  split at h
  · cases h; exact ⟨_, rfl, rfl⟩
  · cases h; exact ⟨_, rfl, rfl⟩
  · cases h

theorem eq_cons_of_expect {token : Token} {ts rest : List Token}
    (h : expect token ts = .ok ((), rest)) : ts = token :: rest := by
  unfold expect at h
  split at h
  · split at h
    · next heq => cases h; rw [heq]
    · cases h
  · cases h

theorem number_of_readVersion {ts rest : List Token} {v : Version}
    (h : readVersion ts = .ok (v, rest)) :
    ∃ s, ts = .number s :: rest ∧ Version.parse s = .ok v := by
  unfold readVersion at h
  split at h
  · next s after =>
    split at h
    · next hparse => cases h; exact ⟨s, rfl, hparse⟩
    · cases h
  · cases h

theorem eq_of_finish {α : Type} {taken : Taken α} {value : α} (h : finish taken = .ok value) :
    taken = (value, []) := by
  unfold finish at h
  split at h
  · cases h; rfl
  · cases h

end Expression

inductive Operand.Spelled : Operand → List Token → Prop
  | number {s : String} {x : Binary64} : Number.readReal s.toList = some x →
    Spelled (.number x) [.number s]
  | sibling {t : Token} {key : String} : t.bare? = some key → Spelled (.sibling key) [.at, t]

theorem Operand.spelled_of_read {ts rest : List Token} {operand : Operand}
    (h : Operand.read ts = .ok (operand, rest)) :
    ∃ taken, ts = taken ++ rest ∧ operand.Spelled taken := by
  unfold Operand.read at h
  split at h
  · next s after =>
    split at h
    · next hreal => cases h; exact ⟨_, rfl, .number hreal⟩
    · cases h
  · next after =>
    obtain ⟨⟨key, rest⟩, hkey, h⟩ := ok_of_bind h
    cases h
    obtain ⟨t, rfl, hbare⟩ := bare_of_readKey hkey
    exact ⟨_, rfl, .sibling hbare⟩
  · cases h

namespace ValueItem

/-- The tokens for an item. Any word but the name of a gate is taken for a literal. -/
inductive Spelled : ValueItem → List Token → Prop
  | bare {t : Token} {s : String} : t.bare? = some s → Spelled (.literal (.ofWord s)) [t]
  | quoted (s : String) : Spelled (.literal (.text s)) [.quoted s]
  | sibling {t : Token} {key : String} : t.bare? = some key → Spelled (.sibling key) [.at, t]
  | range {low high : Operand} {ts us : List Token} : low.Spelled ts → high.Spelled us →
    Spelled (.range low high) (ts ++ .dots :: us)
  | compare {t : Token} {op : Comparison} {bound : Operand} {us : List Token} :
    Comparison.ofToken? t = some op → bound.Spelled us → Spelled (.compare op bound) (t :: us)
  | gate {name s : String} {gate : Version → ValueItem → ValueItem} {v : Version}
    {item : ValueItem} {ts : List Token} : gate? name = some gate → Version.parse s = .ok v →
    Spelled item ts →
    Spelled (gate v item) ([.word name, .leftParen, .number s, .comma] ++ (ts ++ [.rightParen]))

inductive ListSpelled : List ValueItem → List Token → Prop
  | one {item : ValueItem} {ts : List Token} : item.Spelled ts → ListSpelled [item] ts
  | cons {item : ValueItem} {items : List ValueItem} {ts us : List Token} : item.Spelled ts →
    ListSpelled items us → ListSpelled (item :: items) (ts ++ .comma :: us)

theorem spelled_of_readAfterNumber {s : String} {ts rest : List Token} {item : ValueItem}
    (h : readAfterNumber s ts = .ok (item, rest)) :
    ∃ taken, .number s :: ts = taken ++ rest ∧ item.Spelled taken := by
  unfold readAfterNumber at h
  split at h
  · next after =>
    split at h
    · next x hreal =>
      obtain ⟨⟨high, rest⟩, hhigh, h⟩ := ok_of_bind h
      cases h
      obtain ⟨taken, rfl, hspelled⟩ := Operand.spelled_of_read hhigh
      exact ⟨[.number s] ++ .dots :: taken, rfl, .range (.number hreal) hspelled⟩
    · cases h
  · cases h
    exact ⟨[.number s], rfl, .bare rfl⟩

theorem spelled_of_readAfterKey {t : Token} {key : String} (hkey : t.bare? = some key)
    {ts rest : List Token} {item : ValueItem} (h : readAfterKey key ts = .ok (item, rest)) :
    ∃ taken, .at :: t :: ts = taken ++ rest ∧ item.Spelled taken := by
  unfold readAfterKey at h
  split at h
  · next after =>
    obtain ⟨⟨high, rest⟩, hhigh, h⟩ := ok_of_bind h
    cases h
    obtain ⟨taken, rfl, hspelled⟩ := Operand.spelled_of_read hhigh
    exact ⟨[.at, t] ++ .dots :: taken, rfl, .range (.sibling hkey) hspelled⟩
  · cases h
    exact ⟨[.at, t], rfl, .sibling hkey⟩

theorem spelled_of_read {fuel : Nat} {ts rest : List Token} {item : ValueItem}
    (h : read fuel ts = .ok (item, rest)) : ∃ taken, ts = taken ++ rest ∧ item.Spelled taken := by
  induction fuel generalizing ts rest item with
  | zero => cases h
  | succ fuel ih =>
    unfold read at h
    split at h
    · next after =>
      obtain ⟨⟨key, after⟩, hkey, hitem⟩ := ok_of_bind h
      obtain ⟨t, rfl, hbare⟩ := bare_of_readKey hkey
      exact spelled_of_readAfterKey hbare hitem
    · exact spelled_of_readAfterNumber h
    · next name after =>
      split at h
      · cases h
      · next gate hgate =>
        obtain ⟨⟨v, after⟩, hversion, h⟩ := ok_of_bind h
        obtain ⟨⟨_, after'⟩, hcomma, h⟩ := ok_of_bind h
        obtain ⟨⟨inner, after''⟩, hinner, h⟩ := ok_of_bind h
        obtain ⟨⟨_, last⟩, hclose, h⟩ := ok_of_bind h
        cases h
        obtain ⟨s, rfl, hparse⟩ := number_of_readVersion hversion
        obtain rfl := eq_cons_of_expect hcomma
        obtain ⟨taken, rfl, hspelled⟩ := ih hinner
        obtain rfl := eq_cons_of_expect hclose
        refine ⟨_, ?_, .gate hgate hparse hspelled⟩
        simp
    · cases h
      exact ⟨[_], rfl, .bare rfl⟩
    · cases h
      exact ⟨[_], rfl, .quoted _⟩
    · next t after _ _ _ _ _ =>
      split at h
      · next op hop =>
        obtain ⟨⟨bound, rest⟩, hbound, h⟩ := ok_of_bind h
        cases h
        obtain ⟨taken, rfl, hspelled⟩ := Operand.spelled_of_read hbound
        exact ⟨t :: taken, rfl, .compare hop hspelled⟩
      · cases h
    · cases h

theorem spelled_of_readList {fuel : Nat} {ts rest : List Token} {items : List ValueItem}
    (h : readList fuel ts = .ok (items, rest)) :
    ∃ taken, ts = taken ++ rest ∧ ListSpelled items taken := by
  induction fuel generalizing ts rest items with
  | zero => cases h
  | succ fuel ih =>
    obtain ⟨⟨item, after⟩, hitem, hmore⟩ := ok_of_bind h
    obtain ⟨first, rfl, hspelled⟩ := spelled_of_read hitem
    dsimp only at hmore
    split at hmore
    · next after =>
      obtain ⟨⟨others, last⟩, hothers, hlist⟩ := ok_of_bind hmore
      cases hlist
      obtain ⟨more, rfl, hrest⟩ := ih hothers
      exact ⟨first ++ .comma :: more, by simp, .cons hspelled hrest⟩
    · cases hmore
      exact ⟨first, rfl, .one hspelled⟩

end ValueItem

/-- A list is spelled with or without brackets, and an empty one by next to nothing. -/
theorem PossibleValues.spelled_of_ofTokens {ts : List Token} {p : PossibleValues}
    (h : ofTokens ts = .ok p) :
    ts = [] ∨ ts = [.leftBracket, .rightBracket] ∨ ValueItem.ListSpelled p.items ts ∨
      ∃ us, ts = .leftBracket :: (us ++ [.rightBracket]) ∧ ValueItem.ListSpelled p.items us := by
  unfold ofTokens at h
  split at h
  · exact .inl rfl
  · cases eq_of_finish h
    exact .inr (.inl rfl)
  · obtain ⟨⟨items, after⟩, hitems, hbracket⟩ := ok_of_bind h
    obtain ⟨⟨_, last⟩, hclose, hend⟩ := ok_of_bind hbracket
    obtain ⟨us, rfl, hspelled⟩ := ValueItem.spelled_of_readList hitems
    obtain rfl := eq_cons_of_expect hclose
    cases eq_of_finish hend
    exact .inr (.inr (.inr ⟨us, rfl, hspelled⟩))
  · obtain ⟨⟨items, last⟩, hitems, hend⟩ := ok_of_bind h
    obtain ⟨us, rfl, hspelled⟩ := ValueItem.spelled_of_readList hitems
    cases eq_of_finish hend
    exact .inr (.inr (.inl (by simpa using hspelled)))

/-- Nothing but a comma or a bracket of the list is next to what stands between these. -/
structure StandsAlone (before after : List Token) : Prop where
  before : ∀ t ∈ before.getLast?, t = .comma ∨ t = .leftBracket
  after : ∀ t ∈ after.head?, t = .comma ∨ t = .rightBracket

/-- A word or number without quotes stands alone among these tokens. -/
def Token.Listed (ts : List Token) (word : String) : Prop :=
  ∃ before t after, ts = before ++ t :: after ∧ t.bare? = some word ∧ StandsAlone before after

variable {before after : List Token} {t : Token} {word : String}

namespace StandsAlone

/-- What stands alone still does so among fewer tokens before it. -/
theorem drop (first : List Token) (h : StandsAlone (first ++ before) after) :
    StandsAlone before after := by
  refine ⟨fun t ht => h.before t ?_, h.after⟩
  rw [List.getLast?_append, Option.mem_def.1 ht]
  rfl

theorem past {ts : List Token} {mark : Token} (h : StandsAlone (ts ++ mark :: before) after) :
    StandsAlone before after :=
  (h.drop ts).drop [mark]

/-- What stands alone still does so among fewer tokens after it. -/
theorem take (rest : List Token) (h : StandsAlone before (after ++ rest)) :
    StandsAlone before after := by
  refine ⟨h.before, fun t ht => h.after t ?_⟩
  rw [List.head?_append, Option.mem_def.1 ht]
  rfl

end StandsAlone

theorem eq_of_singleton {u : Token} (h : [u] = before ++ t :: after) :
    before = [] ∧ u = t ∧ after = [] := by
  cases before with
  | nil => cases h; exact ⟨rfl, rfl, rfl⟩
  | cons first rest => simp at h

/-- A bare word beside a mark stands before or after it. -/
theorem beside {mark : Token} {ts us : List Token} (hmark : mark.bare? = none)
    (hbare : t.bare? = some word) (h : ts ++ mark :: us = before ++ t :: after) :
    (∃ rest, ts = before ++ t :: rest ∧ after = rest ++ mark :: us) ∨
      ∃ rest, us = rest ++ t :: after ∧ before = ts ++ mark :: rest := by
  have hne : mark ≠ t := by
    rintro rfl
    rw [hmark] at hbare
    cases hbare
  rcases List.append_eq_append_iff.1 h with ⟨rest, hbefore, hrest⟩ | ⟨rest, hts, hrest⟩
  · rcases List.cons_eq_append_iff.1 hrest with ⟨_, heq⟩ | ⟨inner, rfl, hinner⟩
    · exact absurd (List.cons.inj heq).1.symm hne
    · exact .inr ⟨inner, hinner, hbefore⟩
  · rcases List.cons_eq_append_iff.1 hrest with ⟨_, heq⟩ | ⟨inner, rfl, hinner⟩
    · exact absurd (List.cons.inj heq).1 hne
    · exact .inl ⟨inner, hts, hinner⟩

theorem Operand.Spelled.alone {operand : Operand} {ts : List Token} (h : operand.Spelled ts)
    (hts : ts = before ++ t :: after) (hbare : t.bare? = some word)
    (halone : StandsAlone before after) : before = [] ∧ after = [] := by
  cases h with
  | number _ =>
    obtain ⟨rfl, _, rfl⟩ := eq_of_singleton hts
    exact ⟨rfl, rfl⟩
  | sibling _ =>
    rcases List.cons_eq_append_iff.1 hts with ⟨rfl, hfirst⟩ | ⟨rest, rfl, hrest⟩
    · cases hfirst; cases hbare
    · obtain ⟨rfl, _, rfl⟩ := eq_of_singleton hrest
      rcases halone.before .at rfl with heq | heq <;> cases heq

namespace ValueItem

theorem not_bare_of_ofToken? {op : Comparison} (h : Comparison.ofToken? t = some op) :
    t.bare? = none ∧ t ≠ .comma ∧ t ≠ .leftBracket := by
  cases t <;> simp_all [Comparison.ofToken?, Token.bare?]

/-- A bare word that stands alone in an item is all of it. -/
theorem Spelled.alone {item : ValueItem} {ts : List Token} (h : item.Spelled ts)
    (hts : ts = before ++ t :: after) (hbare : t.bare? = some word)
    (halone : StandsAlone before after) :
    before = [] ∧ after = [] ∧ item = .literal (.ofWord word) := by
  induction h generalizing before after with
  | bare hs =>
    obtain ⟨rfl, rfl, rfl⟩ := eq_of_singleton hts
    rw [hs] at hbare
    cases hbare
    exact ⟨rfl, rfl, rfl⟩
  | quoted s =>
    obtain ⟨rfl, rfl, rfl⟩ := eq_of_singleton hts
    cases hbare
  | sibling hk =>
    rcases List.cons_eq_append_iff.1 hts with ⟨rfl, hfirst⟩ | ⟨rest, rfl, hrest⟩
    · cases hfirst; cases hbare
    · obtain ⟨rfl, _, rfl⟩ := eq_of_singleton hrest
      rcases halone.before .at rfl with heq | heq <;> cases heq
  | range hlow hhigh =>
    rcases beside rfl hbare hts with ⟨rest, hrest, rfl⟩ | ⟨rest, hrest, rfl⟩
    · obtain ⟨_, rfl⟩ := hlow.alone hrest hbare (halone.take _)
      rcases halone.after .dots rfl with heq | heq <;> cases heq
    · obtain ⟨rfl, _⟩ := hhigh.alone hrest hbare halone.past
      rcases halone.before .dots (by simp) with heq | heq <;> cases heq
  | @compare u op bound us hop hbound =>
    obtain ⟨hfirst, hcomma, hbracket⟩ := not_bare_of_ofToken? hop
    rcases List.cons_eq_append_iff.1 hts with ⟨rfl, heq⟩ | ⟨rest, rfl, hrest⟩
    · cases heq
      rw [hfirst] at hbare
      cases hbare
    · obtain ⟨rfl, _⟩ := hbound.alone hrest hbare (halone.drop [u])
      rcases halone.before u rfl with heq | heq
      · exact absurd heq hcomma
      · exact absurd heq hbracket
  | @gate name s gate v item ts _ _ _ ih =>
    have hopen : [.word name] ++ .leftParen :: (.number s :: .comma :: (ts ++ [.rightParen])) =
        before ++ t :: after := hts
    rcases beside rfl hbare hopen with ⟨rest, hname, rfl⟩ | ⟨rest, hinside, rfl⟩
    · obtain ⟨_, _, rfl⟩ := eq_of_singleton hname
      rcases halone.after .leftParen rfl with heq | heq <;> cases heq
    · have hcomma : [.number s] ++ .comma :: (ts ++ [.rightParen]) = rest ++ t :: after := hinside
      rcases beside rfl hbare hcomma with ⟨rest', hnumber, _⟩ | ⟨rest', hitem, rfl⟩
      · obtain ⟨rfl, _, _⟩ := eq_of_singleton hnumber
        rcases halone.before .leftParen rfl with heq | heq <;> cases heq
      · rcases beside rfl hbare hitem with ⟨inner, hinner, rfl⟩ | ⟨inner, hinner, _⟩
        · have hinside : StandsAlone rest' inner :=
            (halone.take _).drop [.word name, .leftParen, .number s, .comma]
          obtain ⟨_, rfl, _⟩ := ih hinner hinside
          rcases halone.after .rightParen rfl with heq | heq <;> cases heq
        · simp at hinner

theorem ListSpelled.mem {items : List ValueItem} {ts : List Token} (h : ListSpelled items ts)
    (hts : ts = before ++ t :: after) (hbare : t.bare? = some word)
    (halone : StandsAlone before after) : .literal (.ofWord word) ∈ items := by
  induction h generalizing before after with
  | one hitem =>
    obtain ⟨_, _, rfl⟩ := hitem.alone hts hbare halone
    exact List.mem_singleton_self _
  | cons hitem _ ih =>
    rcases beside rfl hbare hts with ⟨rest, hfirst, rfl⟩ | ⟨rest, hrest, rfl⟩
    · obtain ⟨_, _, rfl⟩ := hitem.alone hfirst hbare (halone.take _)
      exact List.mem_cons_self
    · exact List.mem_cons_of_mem _ (ih hrest halone.past)

end ValueItem

/-- A bare word that stands alone in a list is an item of it. -/
theorem PossibleValues.mem_of_listed {ts : List Token} {p : PossibleValues}
    (h : ofTokens ts = .ok p) (hword : Token.Listed ts word) :
    .literal (.ofWord word) ∈ p.items := by
  obtain ⟨before, t, after, hts, hbare, halone⟩ := hword
  rcases spelled_of_ofTokens h with rfl | rfl | hspelled | ⟨us, rfl, hspelled⟩
  · simp at hts
  · have hmem : t ∈ [.leftBracket, .rightBracket] := by
      rw [hts]
      exact List.mem_append_right _ List.mem_cons_self
    have hmem : t = .leftBracket ∨ t = .rightBracket := by simpa using hmem
    rcases hmem with rfl | rfl <;> cases hbare
  · exact hspelled.mem hts hbare halone
  · have hopen : [] ++ .leftBracket :: (us ++ [.rightBracket]) = before ++ t :: after := hts
    rcases beside rfl hbare hopen with ⟨rest, hnone, _⟩ | ⟨rest, hinside, rfl⟩
    · simp at hnone
    · rcases beside rfl hbare hinside with ⟨inner, hinner, rfl⟩ | ⟨inner, hnone, _⟩
      · exact hspelled.mem hinner hbare ((halone.take _).drop [.leftBracket])
      · simp at hnone

end PdfConform
