import PdfConform.Proofs.Expression.Writing

/-! A condition that is written out reads back as the same tree: each of its parts is written as a
unary condition, which its parentheses keep apart from what stands around it. -/
namespace PdfConform

open Expression

namespace Expression

/-- In front of whatever starts with no character of words, these characters are scanned as these
tokens. -/
def Spells (cs : List Char) (ts : List Token) : Prop := ∀ rest, Delimited rest → Gives cs ts rest

theorem gives_equality (negated : Bool) (rest : List Char) :
    Gives (if negated then ['!', '='] else ['=', '=']) [if negated then .notEqual else .equal]
      rest := by
  cases negated <;> exact gives_token rfl rfl

theorem delimited_equality (negated : Bool) (rest : List Char) :
    Delimited ((if negated then ['!', '='] else ['=', '=']) ++ rest) := by
  cases negated <;> exact delimited_cons rfl _

theorem spells_of_bare {t : Token} {s : String} (h : t.Bare s) : Spells s.toList [t] :=
  fun _ hrest => gives_bare h (hrest.stops _)

variable {cs ds : List Char} {ts us : List Token}

/-- Parentheses delimit what they hold. -/
theorem Spells.group (h : Spells cs ts) (rest : List Char) :
    Gives ('(' :: (cs ++ [')'])) (.leftParen :: (ts ++ [.rightParen])) rest := by
  have hopen : Gives ['('] [.leftParen] (cs ++ [')'] ++ rest) := gives_token rfl rfl
  have hclose : Gives [')'] [.rightParen] rest := gives_token rfl rfl
  exact hopen.append ((h _ (delimited_cons rfl rest)).append hclose)

/-- A name in front of its arguments. -/
theorem Spells.call (h : Spells cs ts) {t : Token} {name : String} (hname : t.Bare name)
    (rest : List Char) :
    Gives (name.toList ++ '(' :: (cs ++ [')'])) (t :: .leftParen :: (ts ++ [.rightParen])) rest :=
  (spells_of_bare hname _ (delimited_cons rfl _)).append (h.group rest)

/-- Two parts with a mark between them. -/
theorem Spells.marked (h : Spells cs ts) {c : Char} {t : Token} (hc : isWordChar c = false)
    (hmark : ∀ rest, Gives [c] [t] rest) (k : Spells ds us) :
    Spells (cs ++ c :: ds) (ts ++ t :: us) :=
  fun rest hrest => (h _ (delimited_cons hc _)).append ((hmark _).append (k rest hrest))

/-- An operator between two operands, with a space on either side of it. -/
theorem Spells.operator (h : Spells cs ts) {mark : List Char} {t : Token}
    (hmark : ∀ rest, Gives mark [t] rest) (k : Spells ds us) :
    Spells (cs ++ ([' '] ++ (mark ++ ([' '] ++ ds)))) (ts ++ (t :: us)) :=
  fun rest hrest =>
    (h _ (delimited_cons rfl _)).append <| (gives_space _).append <| (hmark _).append <|
      (gives_space _).append (k rest hrest)

end Expression

namespace Predicate

theorem Name.bare (n : Name) : Token.Bare (.word n.text) n.text := by
  rcases n with b | b | b <;> cases b <;> exact ⟨rfl, by decide +kernel⟩

def Name.keyword (n : Name) : Keyword n := ⟨n.text, beq_self_eq_true _⟩

end Predicate

namespace Version

theorem bare_text (v : Version) : Token.Bare (.number v.text) v.text := by
  obtain ⟨c, cs, hmajor, hc, hcs⟩ := Number.exists_digits v.major
  have htext : v.text = String.ofList (c :: (cs ++ '.' :: Number.digits v.minor)) := by
    rw [← String.ofList_toList (s := v.text), toList_text, hmajor, List.cons_append]
  rw [htext]
  refine bare_number (startsNumber_of_isDigit hc _) (.fraction hcs ?_ ?_ rfl)
  · exact Number.digits_ne_nil v.minor
  · exact List.all_eq_true.1 (Number.all_isDigit_digits v.minor)

end Version

namespace Literal

/-- The literal stands in a condition as it is shown: it is no real, and a text is a single word
or number that reads as nothing but that text. -/
def ReadsBack : Literal → Prop
  | .boolean _ => True
  | .integer _ => True
  | .real _ => False
  | .text s => (∃ t : Token, t.Bare s) ∧ parse s = some (.text s)

theorem exists_showInt (i : Int) : ∃ c cs, Number.showInt i = String.ofList (c :: cs) ∧
    startsNumber c cs = true ∧ NumberSpan cs [] := by
  cases i with
  | ofNat n =>
    obtain ⟨c, cs, hn, hc, hcs⟩ := Number.exists_digits n
    exact ⟨c, cs, congrArg String.ofList hn, startsNumber_of_isDigit hc cs, .whole hcs rfl⟩
  | negSucc n =>
    obtain ⟨c, cs, hn, hc, hcs⟩ := Number.exists_digits (n + 1)
    refine ⟨'-', c :: cs, congrArg (fun ds => String.ofList ('-' :: ds)) hn,
      startsNumber_minus hc, .whole (fun d hd => ?_) rfl⟩
    rcases List.mem_cons.1 hd with rfl | hd
    · exact hc
    · exact hcs d hd

theorem ofWord_showInt (i : Int64) : ofWord (Number.showInt i.toInt) = .integer i := by
  obtain ⟨c, cs, hshow, hstart, _⟩ := exists_showInt i.toInt
  have hread := Number.readInt64_showInt i
  rw [hshow] at hread ⊢
  rw [ofWord, Predicate.equalsIgnoringCase_true, Predicate.equalsIgnoringCase_false,
    not_truth_of_startsNumber hstart, not_truth_of_startsNumber hstart, hread]
  rfl

/-- A literal that stands as it is shown is shown as one token, which is read as the literal. -/
theorem ReadsBack.exists_token {value : Literal} (h : value.ReadsBack) :
    ∃ literal : Predicate.LiteralToken,
      literal.value = value ∧ literal.token.Bare value.shown := by
  cases value with
  | boolean b =>
    cases b with
    | false =>
      exact ⟨⟨.word "FALSE", .boolean false, by decide⟩, rfl, Predicate.Name.bare (.truth false)⟩
    | true =>
      exact ⟨⟨.word "TRUE", .boolean true, by decide⟩, rfl, Predicate.Name.bare (.truth true)⟩
  | integer i =>
    obtain ⟨c, cs, hshow, hstart, hspan⟩ := exists_showInt i.toInt
    have hbare : Token.Bare (.number (Number.showInt i.toInt)) (Number.showInt i.toInt) := by
      rw [hshow]
      exact bare_number hstart hspan
    exact ⟨⟨.number (Number.showInt i.toInt), .integer i, congrArg some (ofWord_showInt i)⟩, rfl,
      hbare⟩
  | real x => exact h.elim
  | text s =>
    obtain ⟨⟨t, hbare⟩, hparse⟩ := h
    have hword : ofWord s = .text s := by
      rw [← Option.some_inj, ← parse_of_bare hbare, hparse]
    have htaken : t.literal? = some (.text s) := by
      have hs := hbare.1
      cases t <;> cases hs <;> exact congrArg some hword
    exact ⟨⟨t, _, htaken⟩, rfl, hbare⟩

end Literal

namespace Predicate

/-- Versions are known, keys are single words or numbers, and the values that they are compared with
read back. -/
def Writable : Predicate → Prop
  | .const _ => True
  | .not p => p.Writable
  | .and p q => p.Writable ∧ q.Writable
  | .or p q => p.Writable ∧ q.Writable
  | .since v p => v.isKnown = true ∧ p.Writable
  | .before v p => v.isKnown = true ∧ p.Writable
  | .isPresent key => ∃ t : Token, t.Bare key
  | .notPresent key => ∃ t : Token, t.Bare key
  | .keyEquals key value _ => (∃ t : Token, t.Bare key) ∧ value.ReadsBack

variable {p q : Predicate}

/-! The characters of a condition, one equation for each kind -/

theorem toList_not : (Predicate.not p).text.toList = '!' :: '(' :: (p.text.toList ++ [')']) := by
  change ("!(" ++ p.text ++ ")").toList = _
  simp

theorem toList_and : (Predicate.and p q).text.toList =
    '(' :: ((p.text.toList ++ ([' '] ++ (['&', '&'] ++ ([' '] ++ q.text.toList)))) ++ [')']) := by
  change ("(" ++ p.text ++ " && " ++ q.text ++ ")").toList = _
  simp

theorem toList_or : (Predicate.or p q).text.toList =
    '(' :: ((p.text.toList ++ ([' '] ++ (['|', '|'] ++ ([' '] ++ q.text.toList)))) ++ [')']) := by
  change ("(" ++ p.text ++ " || " ++ q.text ++ ")").toList = _
  simp

theorem toList_gate (onward : Bool) (v : Version) :
    (if onward then Predicate.since v p else .before v p).text.toList =
      (Name.gate onward).text.toList ++
        '(' :: ((v.text.toList ++ ',' :: p.text.toList) ++ [')']) := by
  cases onward with
  | false =>
    change ("fn:BeforeVersion(" ++ v.text ++ "," ++ p.text ++ ")").toList = _
    simp [Name.text]
  | true =>
    change ("fn:SinceVersion(" ++ v.text ++ "," ++ p.text ++ ")").toList = _
    simp [Name.text]

theorem toList_presence (present : Bool) (key : String) :
    (if present then Predicate.isPresent key else .notPresent key).text.toList =
      (Name.presence present).text.toList ++ '(' :: (key.toList ++ [')']) := by
  cases present with
  | false =>
    change ("fn:NotPresent(" ++ key ++ ")").toList = _
    simp [Name.text]
  | true =>
    change ("fn:IsPresent(" ++ key ++ ")").toList = _
    simp [Name.text]

theorem toList_comparison (key : String) (value : Literal) (negated : Bool) :
    (Predicate.keyEquals key value negated).text.toList =
      '@' :: (key.toList ++ ((if negated then ['!', '='] else ['=', '=']) ++
        value.shown.toList)) := by
  change ("@" ++ key ++ (if negated then "!=" else "==") ++ value.shown).toList = _
  cases negated <;> simp

/-- The text of the condition is scanned as the tokens of a unary condition that stands for it. -/
def Derives (p : Predicate) : Prop :=
  ∃ d : Derivation .unary, d.tree = p ∧ Spells p.text.toList d.tokens

theorem derives_const (b : Bool) : (Predicate.const b).Derives := by
  refine ⟨.const b (Name.truth b).keyword, rfl, ?_⟩
  exact spells_of_bare (Name.bare (.truth b))

theorem Derives.not (h : p.Derives) : (Predicate.not p).Derives := by
  obtain ⟨d, rfl, hd⟩ := h
  refine ⟨.not (.group d.whole), rfl, fun rest _ => ?_⟩
  have hbang : Gives ['!'] [.bang] ('(' :: (d.tree.text.toList ++ [')'] ++ rest)) :=
    gives_token rfl rfl
  rw [toList_not, Derivation.tokens, Derivation.tokens, Derivation.tokens_whole]
  exact hbang.append (hd.group rest)

theorem Derives.and (h : p.Derives) (k : q.Derives) : (Predicate.and p q).Derives := by
  obtain ⟨d, rfl, hd⟩ := h
  obtain ⟨e, rfl, he⟩ := k
  refine ⟨.group (.or (.and d (.andNext e .andEnd)) .orEnd), rfl, fun rest _ => ?_⟩
  have hmark (rest : List Char) : Gives ['&', '&'] [.andAnd] rest := gives_token rfl rfl
  rw [toList_and]
  simpa [Derivation.tokens] using (hd.operator hmark he).group rest

theorem Derives.or (h : p.Derives) (k : q.Derives) : (Predicate.or p q).Derives := by
  obtain ⟨d, rfl, hd⟩ := h
  obtain ⟨e, rfl, he⟩ := k
  refine ⟨.group (.or (.and d .andEnd) (.orNext (.and e .andEnd) .orEnd)), rfl, fun rest _ => ?_⟩
  have hmark (rest : List Char) : Gives ['|', '|'] [.orOr] rest := gives_token rfl rfl
  rw [toList_or]
  simpa [Derivation.tokens] using (hd.operator hmark he).group rest

theorem Derives.gate (h : p.Derives) (onward : Bool) {v : Version} (hv : v.isKnown = true) :
    (if onward then Predicate.since v p else .before v p).Derives := by
  obtain ⟨d, rfl, hd⟩ := h
  refine ⟨.gate onward (Name.gate onward).keyword ⟨v.text, v, Version.parse_text hv⟩
    (.argument d.whole), rfl, fun rest _ => ?_⟩
  have hcomma (rest : List Char) : Gives [','] [.comma] rest := gives_token rfl rfl
  rw [toList_gate, Derivation.tokens, Derivation.tokens, Derivation.tokens_whole]
  exact ((spells_of_bare v.bare_text).marked rfl hcomma hd).call (Name.bare _) rest

theorem derives_presence (present : Bool) {key : String} (h : ∃ t : Token, t.Bare key) :
    (if present then Predicate.isPresent key else .notPresent key).Derives := by
  obtain ⟨t, ht⟩ := h
  refine ⟨.presence present (Name.presence present).keyword ⟨t, key, ht.1⟩, rfl,
    fun rest _ => ?_⟩
  rw [toList_presence, Derivation.tokens]
  exact (spells_of_bare ht).call (Name.bare _) rest

theorem derives_comparison {key : String} (h : ∃ t : Token, t.Bare key) {value : Literal}
    (hvalue : value.ReadsBack) (negated : Bool) :
    (Predicate.keyEquals key value negated).Derives := by
  obtain ⟨t, ht⟩ := h
  obtain ⟨literal, rfl, hliteral⟩ := hvalue.exists_token
  refine ⟨.comparison ⟨t, key, ht.1⟩ negated literal, rfl, fun rest hrest => ?_⟩
  rw [toList_comparison, Derivation.tokens]
  have hmark (rest : List Char) : Gives ['@'] [.at] rest := gives_token rfl rfl
  have hkey := spells_of_bare ht _ (delimited_equality negated (literal.value.shown.toList ++ rest))
  have hequality := gives_equality negated (literal.value.shown.toList ++ rest)
  have hpair := hequality.append (spells_of_bare hliteral rest hrest)
  rw [← List.append_assoc] at hkey
  exact (hmark _).append (hkey.append hpair)

theorem derives_of_writable (h : p.Writable) : p.Derives := by
  induction p with
  | const b => exact derives_const b
  | not p ih => exact (ih h).not
  | and p q ihp ihq => exact (ihp h.1).and (ihq h.2)
  | or p q ihp ihq => exact (ihp h.1).or (ihq h.2)
  | since v p ih => exact (ih h.2).gate true h.1
  | before v p ih => exact (ih h.2).gate false h.1
  | isPresent key => exact derives_presence true h
  | notPresent key => exact derives_presence false h
  | keyEquals key value negated => exact derives_comparison h.1 h.2 negated

/-- A condition of known versions, whose keys and values are single words or numbers that read back,
is read back from its own text. -/
theorem parse_text_of_writable (h : p.Writable) : parse p.text = .ok p := by
  obtain ⟨d, rfl, hd⟩ := derives_of_writable h
  have htokens : tokens d.tree.text.toList = .ok d.tokens := (hd [] delimited_nil).tokens_eq
  have hread : ofTokens d.tokens = .ok d.tree :=
    (ofTokens_eq_ok_iff (lexed_of_tokens htokens)).2 (.inr ⟨d.whole, d.tokens_whole, rfl⟩)
  rw [parse, ofText, htokens]
  change (ofTokens d.tokens).mapError _ = _
  rw [hread]
  rfl

end Predicate

/-! Marks in front of parentheses, a sign behind a comparison, and keys that start like numbers. -/
namespace Glued

open Predicate

def tree : Predicate :=
  .or (.not (.since ⟨1, 5⟩ (.keyEquals "3D" (.integer (-2)) true)))
    (.and (.keyEquals "N" (.text "-.5x") false) (.before .two (.notPresent "1.")))

def text : String :=
  "(!(fn:SinceVersion(1.5,@3D!=-2)) || (@N==-.5x && fn:BeforeVersion(2.0,fn:NotPresent(1.))))"

theorem bare_digitLed : Token.Bare (.word "3D") "3D" := ⟨rfl, by decide +kernel⟩

theorem bare_letter : Token.Bare (.word "N") "N" := ⟨rfl, by decide +kernel⟩

theorem bare_signed : Token.Bare (.word "-.5x") "-.5x" := ⟨rfl, by decide +kernel⟩

theorem bare_pointed : Token.Bare (.word "1.") "1." := ⟨rfl, by decide +kernel⟩

theorem text_tree : tree.text = text := by decide +kernel

theorem parse_signed : Literal.parse "-.5x" = some (.text "-.5x") := by decide +kernel

theorem writable : tree.Writable :=
  ⟨⟨by decide, ⟨_, bare_digitLed⟩, trivial⟩, ⟨⟨_, bare_letter⟩, ⟨_, bare_signed⟩, parse_signed⟩,
    by decide, ⟨_, bare_pointed⟩⟩

end Glued

theorem Predicate.parse_text_of_writable_glued :
    Glued.tree.Writable ∧ parse Glued.text = .ok Glued.tree := by
  refine ⟨Glued.writable, ?_⟩
  rw [← Glued.text_tree]
  exact parse_text_of_writable Glued.writable

end PdfConform
