import PdfConform.Proofs.Expression.ConditionText
import PdfConform.Proofs.Expression.ItemsRead
import PdfConform.Proofs.Number.ShownReal

/-! The canonical form of a list of possible values. It reads back as a list that allows the same
values, if every text in the list stands for itself without its quotes, every end of a range and
every bound is finite, and no key in front of a range mark ends in a point. -/
namespace PdfConform

open Expression

/-! Doubles as tokens -/

namespace Number

variable {cs : List Char} {d : Nat} {e : Int}

theorem DecimalText.numberSpan (h : DecimalText cs d e) : NumberSpan cs [] := by
  cases h with
  | whole _ hds => exact .whole hds rfl
  | fraction _ hds hne hfs => exact .fraction hds hne hfs rfl

theorem DecimalText.tail {c : Char} (h : DecimalText (c :: cs) d e) : NumberSpan cs [] := by
  generalize hall : c :: cs = all at h
  cases h with
  | whole _ hds =>
    subst hall
    exact .whole (fun b hb => hds b (List.mem_cons_of_mem c hb)) rfl
  | fraction hne hds hfs hdigits =>
    obtain ⟨b, ds, rfl⟩ := List.exists_cons_of_ne_nil hne
    cases hall
    exact .fraction (fun b hb => hds b (List.mem_cons_of_mem _ hb)) hfs hdigits rfl

theorem DecimalText.getLast?_ne (h : DecimalText cs d e) (sign : List Char) :
    (sign ++ cs).getLast? ≠ some '.' := by
  have hdigits {ds : List Char} (hne : ds ≠ []) (hds : ∀ c ∈ ds, c.isDigit = true)
      (before : List Char) : (before ++ ds).getLast? ≠ some '.' := by
    rw [List.getLast?_append_of_ne_nil _ hne]
    intro hlast
    exact absurd (hds _ (List.mem_of_getLast? hlast)) (by decide)
  cases h with
  | whole hne hds => exact hdigits hne hds sign
  | fraction _ _ hne hfs =>
    rw [List.append_cons, ← List.append_assoc]
    exact hdigits hne hfs _

/-- A finite double is written as a number that does not end in a point. -/
theorem exists_number {x : Binary64} (h : x.isFinite = true) :
    ∃ c rest, showReal x = String.ofList (c :: rest) ∧ startsNumber c rest = true ∧
      NumberSpan rest [] ∧ (c :: rest).getLast? ≠ some '.' := by
  obtain ⟨cs, d, e, hshow, htext, _⟩ := exists_showReal h
  obtain ⟨c, rest, rfl, hc⟩ := htext.exists_cons
  have hlast := htext.getLast?_ne (if x.negative then ['-'] else [])
  cases hsign : x.negative with
  | true =>
    rw [hsign] at hshow hlast
    exact ⟨'-', c :: rest, hshow, startsNumber_minus hc, htext.numberSpan, hlast⟩
  | false =>
    rw [hsign] at hshow hlast
    exact ⟨c, rest, hshow, startsNumber_of_isDigit hc rest, htext.tail, hlast⟩

end Number

namespace Literal

theorem agrees_of_toReal? {a : Literal} {x : Binary64} (h : a.toReal? = some x) (value : Literal) :
    a.agrees value = value.toReal?.any fun y => x.same y := by
  cases a <;> cases h <;> cases value <;> rfl

/-- Equal numbers agree with the same values. -/
theorem agrees_congr {a b : Literal} {x y : Binary64} (ha : a.toReal? = some x)
    (hb : b.toReal? = some y) (h : x.same y = true) (value : Literal) :
    a.agrees value = b.agrees value := by
  rw [agrees_of_toReal? ha, agrees_of_toReal? hb]
  congr 1
  funext z
  rw [Bool.eq_iff_iff]
  exact ⟨Binary64.same_trans (Binary64.same_comm x y ▸ h), Binary64.same_trans h⟩

/-- A number that is no whole one reads as a real, and a whole one as an equal number. -/
theorem agrees_ofWord_of_readReal {s : String} {x : Binary64}
    (htruth : ∀ value, equalsIgnoringCase s (Predicate.Name.truth value).text = false)
    (hreal : Number.readReal s.toList = some x) (value : Literal) :
    (ofWord s).agrees value = (real x).agrees value := by
  rw [ofWord, Predicate.equalsIgnoringCase_true, Predicate.equalsIgnoringCase_false, htruth, htruth]
  simp only [Bool.false_eq_true, if_false]
  split
  · next i hint => exact agrees_congr rfl rfl (Number.same_of_readInt64 hint hreal) value
  · rw [hreal]

/-- What is not a number agrees with nothing. -/
theorem agrees_of_isNaN {x : Binary64} (h : x.isNaN = true) (value : Literal) :
    (real x).agrees value = false := by
  rw [agrees_of_toReal? rfl, Option.any_eq_false]
  intro y _
  rw [Binary64.same, h]
  rfl

/-- The literal is shown as one token, which is read as a literal that agrees with the same
values. -/
def ShownAlike (literal : Literal) : Prop :=
  ∃ t : Token, t.Bare literal.shown ∧
    ∀ value, (ofWord literal.shown).agrees value = literal.agrees value

theorem shownAlike_notANumber {x : Binary64} (h : x.isNaN = true) : (real x).ShownAlike := by
  have hshow : (real x).shown = "NaN" := by
    change Number.showReal x = _
    simp only [Number.showReal, h, if_true]
  have hword : ofWord "NaN" = .real (.notANumber false) := by decide +kernel
  unfold ShownAlike
  rw [hshow]
  refine ⟨.word "NaN", ⟨rfl, by decide +kernel⟩, fun value => ?_⟩
  rw [hword, agrees_of_isNaN h, agrees_of_isNaN (by decide +kernel)]

theorem shownAlike_infinity (negative : Bool) : (real (.infinity negative)).ShownAlike := by
  cases negative with
  | true =>
    have hword : ofWord "-inf" = .real (.infinity true) := by decide +kernel
    exact ⟨.word "-inf", ⟨rfl, by decide +kernel⟩, fun value => congrArg (agrees · value) hword⟩
  | false =>
    have hword : ofWord "inf" = .real (.infinity false) := by decide +kernel
    exact ⟨.word "inf", ⟨rfl, by decide +kernel⟩, fun value => congrArg (agrees · value) hword⟩

theorem shownAlike_real (x : Binary64) : (real x).ShownAlike := by
  cases hnumber : x.isNaN with
  | true => exact shownAlike_notANumber hnumber
  | false =>
    cases hinfinite : x.isInfinite with
    | true =>
      rw [← (Number.showReal_of_isInfinite hinfinite).1]
      exact shownAlike_infinity x.negative
    | false =>
      obtain ⟨c, rest, hshow, hstart, hspan, _⟩ :=
        Number.exists_number (Number.isFinite_iff.2 ⟨hnumber, hinfinite⟩)
      have hread := Number.readReal_showReal hnumber
      change ∃ t : Token, t.Bare (Number.showReal x) ∧
        ∀ value, (ofWord (Number.showReal x)).agrees value = _
      rw [hshow] at hread ⊢
      exact ⟨_, bare_number hstart hspan,
        agrees_ofWord_of_readReal (not_truth_of_startsNumber hstart) hread⟩

end Literal

/-- Words and numbers among these tokens are scanned again from their texts. -/
def Expression.Rescanned (ts : List Token) : Prop :=
  ∀ t ∈ ts, ∀ s, t.bare? = some s → t.Bare s

theorem Expression.rescanned_of_tokens {cs : List Char} {ts : List Token} (h : tokens cs = .ok ts) :
    Rescanned ts :=
  fun _ ht _ hbare => bare_of_mem_tokens h ht hbare

theorem Expression.Rescanned.mono {ts us : List Token} (h : Rescanned ts) (hsub : us ⊆ ts) :
    Rescanned us :=
  fun t ht => h t (hsub ht)

/-! Operands -/

namespace Operand

/-- The operand reads back: a number is finite. -/
def Bounded : Operand → Prop
  | .number x => x.isFinite = true
  | .sibling _ => True

/-- A key whose last point would be taken for one of a range mark. -/
def EndsInPoint : Operand → Prop
  | .number _ => False
  | .sibling key => key.toList.getLast? = some '.'

/-- The text of the operand is scanned as tokens that spell it, in front of what stops it. -/
structure Shows (operand : Operand) (ts : List Token) : Prop where
  spelled : operand.Spelled ts
  gives : ∀ rest, Stops operand.text.toList rest → Gives operand.text.toList ts rest
  last : ¬operand.EndsInPoint → operand.text.toList.getLast? ≠ some '.'
  first : ∃ c cs, operand.text.toList = c :: cs ∧ c ≠ '='

theorem shows_number {x : Binary64} (h : x.isFinite = true) :
    (Operand.number x).Shows [.number (Number.showReal x)] := by
  have hread := Number.readReal_showReal (Number.isFinite_iff.1 h).1
  obtain ⟨c, rest, hshow, hstart, hspan, hlast⟩ := Number.exists_number h
  have hbare : Token.Bare (.number (Number.showReal x)) (Number.showReal x) := by
    rw [hshow]
    exact bare_number hstart hspan
  have htext : (Operand.number x).text.toList = c :: rest := by
    change (Number.showReal x).toList = _
    rw [hshow, String.toList_ofList]
  refine ⟨.number hread, fun _ hrest => gives_bare hbare hrest, fun _ => htext ▸ hlast,
    c, rest, htext, ?_⟩
  rintro rfl
  cases isWordChar_of_startsNumber hstart

theorem toList_sibling (key : String) : (Operand.sibling key).text.toList = '@' :: key.toList := by
  simp [text]

theorem shows_sibling {t : Token} {key : String} (h : t.Bare key) :
    (Operand.sibling key).Shows [.at, t] := by
  refine ⟨.sibling h.1, fun rest hrest => ?_, fun hlast => ?_, '@', _, toList_sibling key, nofun⟩
  · rw [toList_sibling] at hrest ⊢
    have hmark : Gives ['@'] [.at] (key.toList ++ rest) := gives_token rfl rfl
    exact hmark.append (gives_bare h hrest.tail)
  · obtain ⟨hne, _⟩ := isWordChar_of_bare h
    rw [toList_sibling, List.getLast?_cons_of_ne_nil hne]
    exact hlast

/-- An operand that was read is written as it can be read. -/
theorem exists_shows {operand : Operand} {ts : List Token} (h : operand.Spelled ts)
    (hscan : Rescanned ts) (hbounded : operand.Bounded) : ∃ us, operand.Shows us := by
  cases h with
  | number _ => exact ⟨_, shows_number hbounded⟩
  | @sibling t _ hbare => exact ⟨_, shows_sibling (hscan t (by simp) _ hbare)⟩

end Operand

theorem Comparison.ofToken?_inj {t u : Token} {op : Comparison} (h : ofToken? t = some op)
    (k : ofToken? u = some op) : t = u := by
  cases t <;> cases h <;> cases u <;> cases k <;> rfl

namespace ValueItem

/-- The item keeps its meaning when it is written out. Of all texts only those that were quoted can
fail to be single words or numbers that read as nothing else. -/
def Survives : ValueItem → Prop
  | .literal (.text s) => Literal.ReadsBack (.text s)
  | .literal _ => True
  | .range low high => low.Bounded ∧ high.Bounded ∧ ¬low.EndsInPoint
  | .compare _ bound => bound.Bounded
  | .sibling _ => True
  | .since _ item => item.Survives
  | .before _ item => item.Survives

/-- The text of the item is scanned as the spelling of an item that allows the same values. -/
def Restored (item : ValueItem) : Prop :=
  ∃ (other : ValueItem) (ts : List Token), other.Spelled ts ∧ Spells item.text.toList ts ∧
    ∀ c value, other.allows c value = item.allows c value

theorem restored_of_readsBack {value : Literal} (h : value.ReadsBack) :
    (ValueItem.literal value).Restored := by
  obtain ⟨literal, rfl, hbare⟩ := h.exists_token
  have hvalue : literal.value = .ofWord literal.value.shown := by
    have htaken := literal.taken
    have hword := hbare.1
    generalize literal.value.shown = s at *
    generalize literal.token = t at *
    cases t <;> cases hword <;> exact (Option.some.inj htaken).symm
  refine ⟨.literal (.ofWord literal.value.shown), [literal.token], .bare hbare.1,
    spells_of_bare hbare, fun _ _ => ?_⟩
  rw [← hvalue]

theorem restored_of_literal {value : Literal} (h : (ValueItem.literal value).Survives) :
    (ValueItem.literal value).Restored := by
  cases value with
  | boolean b => exact restored_of_readsBack trivial
  | integer i => exact restored_of_readsBack trivial
  | text s => exact restored_of_readsBack h
  | real x =>
    obtain ⟨t, hbare, hagrees⟩ := Literal.shownAlike_real x
    exact ⟨_, [t], .bare hbare.1, spells_of_bare hbare, fun _ => hagrees⟩

theorem toList_range (low high : Operand) : (ValueItem.range low high).text.toList =
    low.text.toList ++ ('.' :: '.' :: high.text.toList) := by
  change (low.text ++ ".." ++ high.text).toList = _
  simp

theorem restored_range {low high : Operand} {ts us : List Token} (hlow : low.Shows ts)
    (hhigh : high.Shows us) (hlast : ¬low.EndsInPoint) : (ValueItem.range low high).Restored := by
  refine ⟨_, _, .range hlow.spelled hhigh.spelled, fun rest hrest => ?_, fun _ _ => rfl⟩
  rw [toList_range]
  have hdots : Gives ['.', '.'] [.dots] (high.text.toList ++ rest) := gives_token rfl rfl
  have hfirst := hlow.gives ('.' :: '.' :: (high.text.toList ++ rest))
    (stops_range (hlow.last hlast) _)
  exact hfirst.append (hdots.append (hhigh.gives rest (hrest.stops _)))

theorem scan_less {c : Char} (h : c ≠ '=') (cs : List Char) :
    scan '<' (c :: cs) = .ok (.less, c :: cs) := by
  unfold scan
  split <;> simp_all

theorem scan_greater {c : Char} (h : c ≠ '=') (cs : List Char) :
    scan '>' (c :: cs) = .ok (.greater, c :: cs) := by
  unfold scan
  split <;> simp_all

/-- The mark of a comparison is one token in front of a bound. -/
theorem exists_mark (op : Comparison) {c : Char} (h : c ≠ '=') (cs : List Char) :
    ∃ t : Token, Comparison.ofToken? t = some op ∧ Gives op.symbol.toList [t] (c :: cs) := by
  cases op with
  | less => exact ⟨.less, rfl, gives_token rfl (scan_less h cs)⟩
  | lessEqual => exact ⟨.lessEqual, rfl, gives_token rfl rfl⟩
  | greater => exact ⟨.greater, rfl, gives_token rfl (scan_greater h cs)⟩
  | greaterEqual => exact ⟨.greaterEqual, rfl, gives_token rfl rfl⟩

theorem toList_compare (op : Comparison) (bound : Operand) :
    (ValueItem.compare op bound).text.toList = op.symbol.toList ++ bound.text.toList :=
  String.toList_append

theorem restored_compare (op : Comparison) {bound : Operand} {us : List Token}
    (h : bound.Shows us) : (ValueItem.compare op bound).Restored := by
  obtain ⟨c, cs, htext, hc⟩ := h.first
  obtain ⟨t, hop, _⟩ := exists_mark op hc []
  refine ⟨_, _, .compare hop h.spelled, fun rest hrest => ?_, fun _ _ => rfl⟩
  obtain ⟨u, hop', hmark⟩ := exists_mark op hc (cs ++ rest)
  obtain rfl : u = t := Comparison.ofToken?_inj hop' hop
  rw [toList_compare]
  rw [← List.cons_append, ← htext] at hmark
  exact hmark.append (h.gives rest (hrest.stops _))

theorem restored_sibling {t : Token} {key : String} (h : t.Bare key) :
    (ValueItem.sibling key).Restored := by
  have hshows := Operand.shows_sibling h
  exact ⟨_, _, .sibling h.1, fun rest hrest => hshows.gives rest (hrest.stops _), fun _ _ => rfl⟩

theorem toList_gate (onward : Bool) (v : Version) (item : ValueItem) :
    (if onward then ValueItem.since v item else .before v item).text.toList =
      (Predicate.Name.gate onward).text.toList ++
        '(' :: ((v.text.toList ++ ',' :: item.text.toList) ++ [')']) := by
  cases onward with
  | false =>
    change ("fn:BeforeVersion(" ++ v.text ++ "," ++ item.text ++ ")").toList = _
    simp [Predicate.Name.text]
  | true =>
    change ("fn:SinceVersion(" ++ v.text ++ "," ++ item.text ++ ")").toList = _
    simp [Predicate.Name.text]

/-- The gate that a name stands for, and the name that is written for it. -/
theorem exists_of_gate? {name : String} {gate : Version → ValueItem → ValueItem}
    (h : gate? name = some gate) : ∃ onward, gate? (Predicate.Name.gate onward).text = some gate ∧
      ∀ v item, gate v item = if onward then .since v item else .before v item := by
  unfold gate? at h
  split at h
  · cases h
    exact ⟨true, if_pos (by decide), fun _ _ => rfl⟩
  · split at h
    · cases h
      exact ⟨false, (if_neg (by decide)).trans (if_pos (by decide)), fun _ _ => rfl⟩
    · cases h

theorem restored_gate {name : String} {gate : Version → ValueItem → ValueItem}
    (hgate : gate? name = some gate) {v : Version} (hv : v.isKnown = true) {item : ValueItem}
    (h : item.Restored) : (gate v item).Restored := by
  obtain ⟨onward, hname, hitem⟩ := exists_of_gate? hgate
  obtain ⟨other, ts, hspelled, hspells, hallows⟩ := h
  refine ⟨gate v other, _, .gate hname (Version.parse_text hv) hspelled, fun rest _ => ?_,
    fun c value => ?_⟩
  · have hcomma (rest : List Char) : Gives [','] [.comma] rest := gives_token rfl rfl
    rw [hitem, toList_gate]
    exact ((spells_of_bare v.bare_text).marked rfl hcomma hspells).call (Predicate.Name.bare _) rest
  · rw [hitem, hitem]
    cases onward <;> exact congrArg (_ && ·) (hallows c value)

/-- An item that was read and survives is written as an item that allows the same values. -/
theorem restored_of_spelled {item : ValueItem} {ts : List Token} (h : item.Spelled ts)
    (hscan : Rescanned ts) (hsurvives : item.Survives) : item.Restored := by
  induction h with
  | bare _ => exact restored_of_literal hsurvives
  | quoted s => exact restored_of_literal hsurvives
  | @sibling t key hbare => exact restored_sibling (hscan t (by simp) key hbare)
  | @range low high ts us hlow hhigh =>
    obtain ⟨hlowBounded, hhighBounded, hlast⟩ := hsurvives
    obtain ⟨_, hlowShows⟩ := Operand.exists_shows hlow
      (hscan.mono (List.subset_append_left ts _)) hlowBounded
    have hsub : us ⊆ ts ++ .dots :: us := fun t ht =>
      List.mem_append_right ts (List.mem_cons_of_mem _ ht)
    obtain ⟨_, hhighShows⟩ := Operand.exists_shows hhigh (hscan.mono hsub) hhighBounded
    exact restored_range hlowShows hhighShows hlast
  | @compare t op bound us _ hbound =>
    obtain ⟨_, hshows⟩ := Operand.exists_shows hbound
      (hscan.mono (List.subset_cons_self t us)) hsurvives
    exact restored_compare op hshows
  | @gate name s gate v item ts hgate hversion _ ih =>
    obtain ⟨onward, _, hitem⟩ := exists_of_gate? hgate
    rw [hitem] at hsurvives
    have hinner : item.Survives := by
      cases onward <;> exact hsurvives
    have hsub : ts ⊆ [.word name, .leftParen, .number s, .comma] ++ (ts ++ [.rightParen]) :=
      fun t ht => List.mem_append_right _ (List.mem_append_left _ ht)
    exact restored_gate hgate (Version.isKnown_iff.2 ⟨s, hversion⟩) (ih (hscan.mono hsub) hinner)

/-- Items with commas between them are written as items that allow the same values. -/
theorem exists_listSpelled {items : List ValueItem} (hne : items ≠ [])
    (h : ∀ item ∈ items, item.Restored) :
    ∃ (others : List ValueItem) (ts : List Token), ListSpelled others ts ∧
      Spells (String.intercalate "," (items.map text)).toList ts ∧ others ≠ [] ∧
      ∀ c value, others.any (·.allows c value) = items.any (·.allows c value) := by
  induction items with
  | nil => exact absurd rfl hne
  | cons item items ih =>
    obtain ⟨other, ts, hspelled, hspells, hallows⟩ := h item List.mem_cons_self
    cases items with
    | nil =>
      refine ⟨[other], ts, .one hspelled, ?_, List.cons_ne_nil _ _, fun c value => ?_⟩
      · simpa using hspells
      · simp only [List.any_cons, hallows]
    | cons next items =>
      obtain ⟨others, us, hothers, hrest, _, hsame⟩ :=
        ih (List.cons_ne_nil _ _) fun i hi => h i (List.mem_cons_of_mem _ hi)
      refine ⟨other :: others, _, .cons hspelled hothers, ?_, List.cons_ne_nil _ _,
        fun c value => ?_⟩
      · have hcomma (rest : List Char) : Gives [','] [.comma] rest := gives_token rfl rfl
        have hall := hspells.marked rfl hcomma hrest
        rw [List.map_cons, List.map_cons, String.intercalate_cons_cons]
        rw [List.map_cons] at hall
        simpa using hall
      · rw [List.any_cons, hallows, hsame]
        rfl

/-- The items of a list that was read. -/
theorem ListSpelled.forall_spelled {items : List ValueItem} {ts : List Token}
    (h : ListSpelled items ts) (hscan : Rescanned ts) :
    ∀ item ∈ items, ∃ us, item.Spelled us ∧ Rescanned us := by
  induction h with
  | one hitem =>
    intro item hmem
    rw [List.mem_singleton.1 hmem]
    exact ⟨_, hitem, hscan⟩
  | @cons first items ts us hitem _ ih =>
    intro item hmem
    rcases List.mem_cons.1 hmem with rfl | hmem
    · exact ⟨ts, hitem, hscan.mono (List.subset_append_left ts _)⟩
    · have hsub : us ⊆ ts ++ .comma :: us := fun t ht =>
        List.mem_append_right ts (List.mem_cons_of_mem _ ht)
      exact ih (hscan.mono hsub) item hmem

end ValueItem

namespace PossibleValues

theorem restored_of_parse {s : String} {p : PossibleValues} (h : parse s = .ok p)
    (hsurvives : ∀ item ∈ p.items, item.Survives) : ∀ item ∈ p.items, item.Restored := by
  obtain ⟨ts, htokens, hread⟩ := ok_of_bind (ok_of_mapError h)
  have hscan := rescanned_of_tokens htokens
  have hlist {us : List Token} (hus : ValueItem.ListSpelled p.items us) (hsub : us ⊆ ts) :
      ∀ item ∈ p.items, item.Restored := by
    intro item hitem
    obtain ⟨vs, hspelled, hrescanned⟩ := hus.forall_spelled (hscan.mono hsub) item hitem
    exact ValueItem.restored_of_spelled hspelled hrescanned (hsurvives item hitem)
  have hnone (hitems : p.items = []) : ∀ item ∈ p.items, item.Restored := by
    rw [hitems]
    exact nofun
  rcases spelled_of_ofTokens hread with rfl | rfl | hspelled | ⟨us, rfl, hspelled⟩
  · cases hread
    exact hnone rfl
  · cases hread
    exact hnone rfl
  · exact hlist hspelled (List.Subset.refl ts)
  · exact hlist hspelled fun t ht => List.mem_cons_of_mem _ (List.mem_append_left _ ht)

theorem toList_text (p : PossibleValues) : p.text.toList =
    '[' :: ((String.intercalate "," (p.items.map ValueItem.text)).toList ++ [']']) := by
  change ("[" ++ String.intercalate "," (p.items.map ValueItem.text) ++ "]").toList = _
  rw [String.toList_append, String.toList_append]
  rfl

/-- Brackets around what is scanned as a list. -/
theorem tokens_brackets {cs : List Char} {ts : List Token} (h : Spells cs ts) :
    tokens ('[' :: (cs ++ [']'])) = .ok (.leftBracket :: (ts ++ [.rightBracket])) := by
  have hopen : Gives ['['] [.leftBracket] (cs ++ [']'] ++ []) := gives_token rfl rfl
  have hclose : Gives [']'] [.rightBracket] [] := gives_token rfl rfl
  exact (hopen.append ((h _ (delimited_cons rfl [])).append hclose)).tokens_eq

/-- The canonical form of a list that was read, if nothing in the list is lost on the way, is read
as a list that allows the same values in every context. -/
theorem parse_text_allows {s : String} {p : PossibleValues} (h : parse s = .ok p)
    (hsurvives : ∀ item ∈ p.items, item.Survives) :
    ∃ q, parse p.text = .ok q ∧ ∀ c value, q.allows c value = p.allows c value := by
  have hrestored := restored_of_parse h hsurvives
  obtain ⟨items⟩ := p
  cases items with
  | nil => exact ⟨⟨[]⟩, by decide +kernel, fun _ _ => rfl⟩
  | cons first items =>
    obtain ⟨others, ts, hspelled, hspells, hne, hallows⟩ :=
      ValueItem.exists_listSpelled (List.cons_ne_nil first items) hrestored
    refine ⟨⟨others⟩, ?_, fun c value => ?_⟩
    · rw [parse, ofText, toList_text, tokens_brackets hspells]
      change (ofTokens (.leftBracket :: (ts ++ [.rightBracket]))).mapError _ = _
      rw [ofTokens_of_spelled hspelled]
      rfl
    · obtain ⟨other, others, rfl⟩ := List.exists_cons_of_ne_nil hne
      exact hallows c value

end PossibleValues

/-! A list in which numbers, names and spaces are not yet in their canonical form. -/
namespace Loose

def text : String := "[ 01.50 .. @Max, <=+3, fn:sinceVERSION(1.5, 'Auto'), -2.50, 1e21, INF, @Min ]"

def canonical : String :=
  "[1.5..@Max,<=3,fn:SinceVersion(1.5,Auto),-2.5,1000000000000000000000,inf,@Min]"

def values : PossibleValues :=
  ⟨[.range (.number ⟨0x3FF8000000000000⟩) (.sibling "Max"),
    .compare .lessEqual (.number ⟨0x4008000000000000⟩),
    .since ⟨1, 5⟩ (.literal (.text "Auto")),
    .literal (.real ⟨0xC004000000000000⟩),
    .literal (.real ⟨0x444B1AE4D6E2EF50⟩),
    .literal (.real (.infinity false)),
    .sibling "Min"]⟩

theorem parse_text : PossibleValues.parse text = .ok values := by decide +kernel

theorem text_values : values.text = canonical := by decide +kernel

theorem readsBack_auto : Literal.ReadsBack (.text "Auto") :=
  ⟨⟨.word "Auto", rfl, by decide +kernel⟩, by decide +kernel⟩

theorem survives : ∀ item ∈ values.items, item.Survives := by
  have hlow : (⟨0x3FF8000000000000⟩ : Binary64).isFinite = true := by decide +kernel
  have hbound : (⟨0x4008000000000000⟩ : Binary64).isFinite = true := by decide +kernel
  simp only [values, List.forall_mem_cons]
  exact ⟨⟨hlow, trivial, nofun⟩, hbound, readsBack_auto, trivial, trivial, trivial, trivial, nofun⟩

end Loose

theorem PossibleValues.parse_text_allows_loose :
    parse Loose.text = .ok Loose.values ∧ (∀ item ∈ Loose.values.items, item.Survives) ∧
      ∃ q, parse Loose.canonical = .ok q ∧
        ∀ c value, q.allows c value = Loose.values.allows c value := by
  refine ⟨Loose.parse_text, Loose.survives, ?_⟩
  rw [← Loose.text_values]
  exact parse_text_allows Loose.parse_text Loose.survives

/-- A quoted text with a blank in it loses its quotes, and then the list does not read back. -/
theorem PossibleValues.unreadable_of_quoted_blank :
    parse "['a b']" = .ok ⟨[.literal (.text "a b")]⟩ ∧
      PossibleValues.text ⟨[.literal (.text "a b")]⟩ = "[a b]" ∧ ∀ q, parse "[a b]" ≠ .ok q := by
  have herror : parse "[a b]" =
      .error ⟨"[a b]", .expectedToken .rightBracket (some (.word "b"))⟩ := by decide +kernel
  refine ⟨by decide +kernel, by decide +kernel, fun q h => ?_⟩
  rw [herror] at h
  cases h

end PdfConform
