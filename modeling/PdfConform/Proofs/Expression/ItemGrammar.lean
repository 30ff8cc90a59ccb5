import PdfConform.Proofs.Expression.ItemsRead

/-! The grammar of possible values. As with conditions a derivation holds the tokens that it stands
for; `parse` succeeds exactly on the texts that have one, with the items that it prescribes, and no
text has two. -/
namespace PdfConform

open Expression Predicate

structure NumberToken where
  number : String
  value : Binary64
  parsed : Number.readReal number.toList = some value

theorem NumberToken.ext {k l : NumberToken} (h : k.number = l.number) : k = l := by
  obtain ⟨s, x, hk⟩ := k
  obtain ⟨t, y, hl⟩ := l
  obtain rfl : s = t := h
  obtain rfl := Option.some.inj (hk.symm.trans hl)
  rfl

namespace Operand

/-- `operand := NUMBER | "@" KEY` -/
inductive Derivation
  | number : NumberToken → Derivation
  | sibling : KeyToken → Derivation

namespace Derivation

def tokens : Derivation → List Token
  | .number n => [.number n.number]
  | .sibling key => [.at, key.token]

def operand : Derivation → Operand
  | .number n => .number n.value
  | .sibling key => .sibling key.key

/-- An operand shows by its first token where it ends. -/
theorem tokens_inj {d e : Derivation} {r r' : List Token}
    (h : d.tokens ++ r = e.tokens ++ r') : d = e ∧ r = r' := by
  cases d <;> cases e <;> simp only [tokens, List.cons_append, List.nil_append, List.cons.injEq,
    reduceCtorEq, false_and, Token.number.injEq, true_and] at h
  next n n' =>
    obtain rfl := NumberToken.ext h.1
    exact ⟨rfl, h.2⟩
  next key key' =>
    obtain rfl := KeyToken.ext h.1
    exact ⟨rfl, h.2⟩

theorem spelled (d : Derivation) : d.operand.Spelled d.tokens := by
  cases d with
  | number n => exact .number n.parsed
  | sibling key => exact .sibling key.bare

end Derivation

theorem Spelled.exists_derivation {operand : Operand} {ts : List Token} (h : operand.Spelled ts) :
    ∃ d : Derivation, d.tokens = ts ∧ d.operand = operand := by
  cases h with
  | number hreal => exact ⟨.number ⟨_, _, hreal⟩, rfl, rfl⟩
  | sibling hbare => exact ⟨.sibling ⟨_, _, hbare⟩, rfl, rfl⟩

end Operand

/-- The mark of a comparison. -/
def Comparison.token : Comparison → Token
  | .less => .less
  | .lessEqual => .lessEqual
  | .greater => .greater
  | .greaterEqual => .greaterEqual

theorem Comparison.ofToken?_eq_some_iff {t : Token} {op : Comparison} :
    ofToken? t = some op ↔ t = op.token := by
  constructor
  · intro h
    cases t <;> cases h <;> rfl
  · rintro rfl
    cases op <;> rfl

namespace ValueItem

/-- Derivations of the grammar
`item := LITERAL | operand ".." operand | ("<" | "<=" | ">" | ">=") operand | "@" KEY |
gate "(" VERSION "," item ")"`. -/
inductive Derivation
  | literal : LiteralToken → Derivation
  | range : Operand.Derivation → Operand.Derivation → Derivation
  | compare : Comparison → Operand.Derivation → Derivation
  | sibling : KeyToken → Derivation
  | gate (onward : Bool) : Keyword (.gate onward) → VersionToken → Derivation → Derivation

namespace Derivation

def tokens : Derivation → List Token
  | .literal l => [l.token]
  | .range low high => low.tokens ++ .dots :: high.tokens
  | .compare op bound => op.token :: bound.tokens
  | .sibling key => [.at, key.token]
  | .gate _ name version inner => .word name.word :: .leftParen :: .number version.number ::
      .comma :: (inner.tokens ++ [.rightParen])

def item : Derivation → ValueItem
  | .literal l => .literal l.value
  | .range low high => .range low.operand high.operand
  | .compare op bound => .compare op bound.operand
  | .sibling key => .sibling key.key
  | .gate onward _ version inner =>
    if onward then .since version.version inner.item else .before version.version inner.item

end Derivation

/-- `list := item ("," item)*` -/
inductive ListDerivation
  | one : Derivation → ListDerivation
  | more : Derivation → ListDerivation → ListDerivation

namespace ListDerivation

def tokens : ListDerivation → List Token
  | .one d => d.tokens
  | .more d rest => d.tokens ++ .comma :: rest.tokens

def items : ListDerivation → List ValueItem
  | .one d => [d.item]
  | .more d rest => d.item :: rest.items

end ListDerivation

end ValueItem

namespace PossibleValues

/-- `possible := "" | "[" "]" | list | "[" list "]"` -/
inductive Derivation
  | nothing
  | brackets
  | bare : ValueItem.ListDerivation → Derivation
  | bracketed : ValueItem.ListDerivation → Derivation

namespace Derivation

def tokens : Derivation → List Token
  | .nothing => []
  | .brackets => [.leftBracket, .rightBracket]
  | .bare list => list.tokens
  | .bracketed list => .leftBracket :: (list.tokens ++ [.rightBracket])

def items : Derivation → List ValueItem
  | .nothing => []
  | .brackets => []
  | .bare list => list.items
  | .bracketed list => list.items

end Derivation

end PossibleValues

/-! No text has two derivations -/

namespace ValueItem

/-- The rule of the grammar by which an item is derived. -/
inductive Rule
  | literal
  | range
  | compare
  | sibling
  | gate

def Derivation.rule : Derivation → Rule
  | .literal _ => .literal
  | .range _ _ => .range
  | .compare _ _ => .compare
  | .sibling _ => .sibling
  | .gate _ _ _ _ => .gate

/-- The rule that the first tokens of an item tell. -/
def Rule.ofTokens : List Token → Rule
  | .at :: _ :: .dots :: _ => .range
  | .at :: _ => .sibling
  | .number _ :: .dots :: _ => .range
  | .word _ :: .leftParen :: _ => .gate
  | t :: _ => if (Comparison.ofToken? t).isSome then .compare else .literal
  | [] => .literal

namespace Derivation

theorem rule_of_tokens (d : Derivation) {r : List Token} (hr : Ends r) :
    Rule.ofTokens (d.tokens ++ r) = d.rule := by
  cases d with
  | literal l =>
    obtain ⟨t, value, htaken⟩ := l
    cases t <;> cases htaken
    · cases r with
      | nil => rfl
      | cons next r => cases next <;> first | rfl | exact absurd rfl hr.1
    · cases r with
      | nil => rfl
      | cons next r => cases next <;> first | rfl | exact absurd rfl hr.2
    · rfl
  | range low high => cases low <;> rfl
  | compare op bound => cases op <;> rfl
  | sibling key =>
    cases r with
    | nil => rfl
    | cons next r => cases next <;> first | rfl | exact absurd rfl hr.1
  | gate onward name version inner => rfl

/-- The first tokens tell the rule, and the parts are known by where they end. -/
theorem tokens_inj (d e : Derivation) {r r' : List Token} (hr : Ends r) (hr' : Ends r')
    (h : d.tokens ++ r = e.tokens ++ r') : d = e ∧ r = r' := by
  have hrule : d.rule = e.rule := by rw [← d.rule_of_tokens hr, h, e.rule_of_tokens hr']
  induction d generalizing e r r' with
  | literal l =>
    cases e <;> cases hrule
    next l' =>
      simp only [tokens, List.cons_append, List.nil_append, List.cons.injEq] at h
      obtain rfl := LiteralToken.ext h.1
      exact ⟨rfl, h.2⟩
  | range low high =>
    cases e <;> cases hrule
    next low' high' =>
      simp only [tokens, List.append_assoc, List.cons_append] at h
      obtain ⟨rfl, hhigh⟩ := Operand.Derivation.tokens_inj h
      obtain ⟨rfl, hrest⟩ := Operand.Derivation.tokens_inj (List.cons.inj hhigh).2
      exact ⟨rfl, hrest⟩
  | compare op bound =>
    cases e <;> cases hrule
    next op' bound' =>
      simp only [tokens, List.cons_append, List.cons.injEq] at h
      obtain ⟨hmark, hbound⟩ := h
      obtain ⟨rfl, hrest⟩ := Operand.Derivation.tokens_inj hbound
      have hop := Comparison.ofToken?_eq_some_iff.2 hmark
      rw [Comparison.ofToken?_eq_some_iff.2 rfl] at hop
      cases hop
      exact ⟨rfl, hrest⟩
  | sibling key =>
    cases e <;> cases hrule
    next key' =>
      simp only [tokens, List.cons_append, List.nil_append, List.cons.injEq, true_and] at h
      obtain rfl := KeyToken.ext h.1
      exact ⟨rfl, h.2⟩
  | gate onward name version inner ih =>
    cases e <;> cases hrule
    next onward' name' version' inner' =>
      simp only [tokens, List.cons_append, List.append_assoc, List.nil_append, List.cons.injEq,
        Token.word.injEq, Token.number.injEq, true_and] at h
      obtain ⟨hname, hversion, hinner⟩ := h
      cases name.unique name' hname
      obtain rfl := Keyword.ext hname
      obtain rfl := VersionToken.ext hversion
      have hclose (r : List Token) : Ends (.rightParen :: r) :=
        ends_cons (t := .rightParen) nofun nofun r
      have hsame : inner.rule = inner'.rule := by
        rw [← inner.rule_of_tokens (hclose r), hinner, inner'.rule_of_tokens (hclose r')]
      obtain ⟨rfl, hrest⟩ := ih inner' (hclose r) (hclose r') hinner hsame
      exact ⟨rfl, (List.cons.inj hrest).2⟩

end Derivation

namespace ListDerivation

/-- A list ends in front of these tokens. -/
def Ends (rest : List Token) : Prop := ValueItem.Ends rest ∧ rest.head? ≠ some .comma

theorem ends_nil : Ends [] := ⟨⟨nofun, nofun⟩, nofun⟩

theorem ends_rightBracket (rest : List Token) : Ends (.rightBracket :: rest) :=
  ⟨ends_cons (t := .rightBracket) nofun nofun rest, nofun⟩

theorem tokens_inj (d e : ListDerivation) {r r' : List Token} (hr : Ends r) (hr' : Ends r')
    (h : d.tokens ++ r = e.tokens ++ r') : d = e ∧ r = r' := by
  have hcomma (r : List Token) : ValueItem.Ends (.comma :: r) :=
    ends_cons (t := .comma) nofun nofun r
  induction d generalizing e r r' with
  | one d =>
    cases e with
    | one d' =>
      obtain ⟨rfl, hrest⟩ := d.tokens_inj d' hr.1 hr'.1 h
      exact ⟨rfl, hrest⟩
    | more d' rest' =>
      simp only [tokens, List.append_assoc, List.cons_append] at h
      obtain ⟨_, rfl⟩ := d.tokens_inj d' hr.1 (hcomma _) h
      exact absurd rfl hr.2
  | more d rest ih =>
    cases e with
    | one d' =>
      simp only [tokens, List.append_assoc, List.cons_append] at h
      obtain ⟨_, rfl⟩ := d.tokens_inj d' (hcomma _) hr'.1 h
      exact absurd rfl hr'.2
    | more d' rest' =>
      simp only [tokens, List.append_assoc, List.cons_append] at h
      obtain ⟨rfl, hmore⟩ := d.tokens_inj d' (hcomma _) (hcomma _) h
      obtain ⟨rfl, hrest⟩ := ih rest' hr hr' (List.cons.inj hmore).2
      exact ⟨rfl, hrest⟩

end ListDerivation

/-! Derivations and spellings -/

theorem gate?_of_keyword {onward : Bool} (name : Keyword (.gate onward)) :
    gate? name.word = some (if onward then .since else .before) := by
  cases onward with
  | true => exact if_pos name.same
  | false =>
    have hnot : ¬Literal.equalsIgnoringCase name.word (Name.gate true).text = true :=
      fun hsame => nomatch name.unique ⟨name.word, hsame⟩ rfl
    exact (if_neg hnot).trans (if_pos name.same)

theorem keyword_of_gate? {name : String} {gate : Version → ValueItem → ValueItem}
    (h : gate? name = some gate) : ∃ (onward : Bool) (k : Keyword (.gate onward)),
      k.word = name ∧ gate = if onward then .since else .before := by
  unfold gate? at h
  split at h
  · next hsame => cases h; exact ⟨true, ⟨name, hsame⟩, rfl, rfl⟩
  · split at h
    · next hsame => cases h; exact ⟨false, ⟨name, hsame⟩, rfl, rfl⟩
    · cases h

theorem Derivation.spelled (d : Derivation) : d.item.Spelled d.tokens := by
  induction d with
  | literal l =>
    obtain ⟨t, value, htaken⟩ := l
    cases t <;> cases htaken
    · exact .bare rfl
    · exact .bare rfl
    · exact .quoted _
  | range low high => exact .range low.spelled high.spelled
  | compare op bound => exact .compare (Comparison.ofToken?_eq_some_iff.2 rfl) bound.spelled
  | sibling key => exact .sibling key.bare
  | gate onward name version inner ih =>
    have hspelled := Spelled.gate (gate?_of_keyword name) version.parsed ih
    cases onward <;> exact hspelled

theorem Spelled.exists_derivation {item : ValueItem} {ts : List Token} (h : item.Spelled ts) :
    ∃ d : Derivation, d.tokens = ts ∧ d.item = item := by
  induction h with
  | @bare t s hbare =>
    have htaken : t.literal? = some (.ofWord s) := by cases t <;> cases hbare <;> rfl
    exact ⟨.literal ⟨t, _, htaken⟩, rfl, rfl⟩
  | quoted s => exact ⟨.literal ⟨.quoted s, _, rfl⟩, rfl, rfl⟩
  | sibling hbare => exact ⟨.sibling ⟨_, _, hbare⟩, rfl, rfl⟩
  | range hlow hhigh =>
    obtain ⟨low, rfl, rfl⟩ := hlow.exists_derivation
    obtain ⟨high, rfl, rfl⟩ := hhigh.exists_derivation
    exact ⟨.range low high, rfl, rfl⟩
  | compare hop hbound =>
    obtain ⟨bound, rfl, rfl⟩ := hbound.exists_derivation
    obtain rfl := Comparison.ofToken?_eq_some_iff.1 hop
    exact ⟨.compare _ bound, rfl, rfl⟩
  | gate hgate hparse _ ih =>
    obtain ⟨inner, rfl, rfl⟩ := ih
    obtain ⟨onward, name, rfl, rfl⟩ := keyword_of_gate? hgate
    refine ⟨.gate onward name ⟨_, _, hparse⟩ inner, rfl, ?_⟩
    cases onward <;> rfl

theorem ListDerivation.spelled (d : ListDerivation) : ListSpelled d.items d.tokens := by
  induction d with
  | one d => exact .one d.spelled
  | more d rest ih => exact .cons d.spelled ih

theorem ListSpelled.exists_derivation {items : List ValueItem} {ts : List Token}
    (h : ListSpelled items ts) : ∃ d : ListDerivation, d.tokens = ts ∧ d.items = items := by
  induction h with
  | one hitem =>
    obtain ⟨d, rfl, rfl⟩ := hitem.exists_derivation
    exact ⟨.one d, rfl, rfl⟩
  | cons hitem _ ih =>
    obtain ⟨d, rfl, rfl⟩ := hitem.exists_derivation
    obtain ⟨rest, rfl, rfl⟩ := ih
    exact ⟨.more d rest, rfl, rfl⟩

namespace ListDerivation

theorem exists_cons (d : ListDerivation) :
    ∃ t us, d.tokens = t :: us ∧ t ≠ .leftBracket ∧ t ≠ .rightBracket :=
  d.spelled.exists_cons

theorem ne_nil (d : ListDerivation) : d.tokens ≠ [] := by
  obtain ⟨t, us, htokens, _⟩ := d.exists_cons
  rw [htokens]
  exact List.cons_ne_nil t us

theorem ne_leftBracket (d : ListDerivation) (rest : List Token) :
    d.tokens ≠ .leftBracket :: rest := by
  obtain ⟨t, us, htokens, hleft, _⟩ := d.exists_cons
  rw [htokens]
  exact fun h => hleft (List.cons.inj h).1

theorem append_ne (d : ListDerivation) (ts : List Token) : d.tokens ++ ts ≠ ts :=
  fun h => d.ne_nil (List.append_cancel_right (h.trans (List.nil_append ts).symm))

end ListDerivation

end ValueItem

namespace PossibleValues

/-- The tokens of a column are possible values exactly if they have a derivation. -/
theorem ofTokens_eq_ok_iff {ts : List Token} {p : PossibleValues} :
    ofTokens ts = .ok p ↔ ∃ d : Derivation, d.tokens = ts ∧ d.items = p.items := by
  constructor
  · intro h
    rcases spelled_of_ofTokens h with rfl | rfl | hspelled | ⟨us, rfl, hspelled⟩
    · cases h; exact ⟨.nothing, rfl, rfl⟩
    · cases h; exact ⟨.brackets, rfl, rfl⟩
    · obtain ⟨list, rfl, hitems⟩ := hspelled.exists_derivation
      exact ⟨.bare list, rfl, hitems⟩
    · obtain ⟨list, rfl, hitems⟩ := hspelled.exists_derivation
      exact ⟨.bracketed list, rfl, hitems⟩
  · obtain ⟨items⟩ := p
    rintro ⟨d, rfl, rfl⟩
    cases d with
    | nothing => rfl
    | brackets => rfl
    | bare list => exact ofTokens_of_bare list.spelled
    | bracketed list => exact ofTokens_of_spelled list.spelled

/-- No item starts with a bracket, so the brackets around a list are no part of it. -/
theorem Derivation.tokens_inj {d e : Derivation} (h : d.tokens = e.tokens) : d = e := by
  cases d <;> cases e <;> simp only [tokens, List.cons.injEq, reduceCtorEq, true_and] at h
  case nothing.nothing => rfl
  case brackets.brackets => rfl
  case nothing.bare list => exact absurd h.symm list.ne_nil
  case bare.nothing list => exact absurd h list.ne_nil
  case brackets.bare list => exact absurd h.symm (list.ne_leftBracket _)
  case bare.brackets list => exact absurd h (list.ne_leftBracket _)
  case brackets.bracketed list => exact absurd h.symm (list.append_ne _)
  case bracketed.brackets list => exact absurd h (list.append_ne _)
  case bare.bracketed list _ => exact absurd h (list.ne_leftBracket _)
  case bracketed.bare _ list => exact absurd h.symm (list.ne_leftBracket _)
  case bare.bare list list' =>
    have hsame : list.tokens ++ [] = list'.tokens ++ [] := by rw [h]
    rw [(list.tokens_inj list' ValueItem.ListDerivation.ends_nil
      ValueItem.ListDerivation.ends_nil hsame).1]
  case bracketed.bracketed list list' =>
    rw [(list.tokens_inj list' (ValueItem.ListDerivation.ends_rightBracket [])
      (ValueItem.ListDerivation.ends_rightBracket []) h).1]

end PossibleValues

/-- A text that has tokens is read as possible values exactly if they have a derivation, and then as
the items that it prescribes. There is one at most. -/
theorem PossibleValues.parse_iff_derivation {s : String} {ts : List Token}
    (h : tokens s.toList = .ok ts) :
    (∀ p, parse s = .ok p ↔ ∃ d : Derivation, d.tokens = ts ∧ d.items = p.items) ∧
      ∀ d e : Derivation, d.tokens = ts → e.tokens = ts → d = e := by
  constructor
  · intro p
    rw [← ofTokens_eq_ok_iff, parse, ofText, h]
    change (ofTokens ts).mapError _ = _ ↔ _
    constructor
    · exact ok_of_mapError
    · intro hok
      rw [hok]
      rfl
  · rintro d e rfl htokens
    exact Derivation.tokens_inj htokens.symm

/-! A list in brackets with every kind of item, and a gate within a gate. -/
namespace Spectrum

open ValueItem

def text : String :=
  "[ Off, <=@Max,fn:sinceversion(1.5, fn:BeforeVersion(2.0,-2..@N)),@Rotate , 'a, b' ]"

def tokens : List Token :=
  [.leftBracket, .word "Off", .comma, .lessEqual, .at, .word "Max", .comma,
    .word "fn:sinceversion", .leftParen, .number "1.5", .comma, .word "fn:BeforeVersion",
    .leftParen, .number "2.0", .comma, .number "-2", .dots, .at, .word "N", .rightParen,
    .rightParen, .comma, .at, .word "Rotate", .comma, .quoted "a, b", .rightBracket]

theorem tokens_text : Expression.tokens text.toList = .ok tokens := by decide +kernel

theorem parse_onward : Version.parse "1.5" = .ok ⟨1, 5⟩ := by decide +kernel

theorem parse_until : Version.parse "2.0" = .ok .two := by decide +kernel

theorem readReal_low : Number.readReal "-2".toList = some (.ofInt (-2)) := by decide +kernel

def key (s : String) : KeyToken := ⟨.word s, s, rfl⟩

def derivation : PossibleValues.Derivation :=
  .bracketed
    (.more (.literal ⟨.word "Off", .ofWord "Off", rfl⟩)
    (.more (.compare .lessEqual (.sibling (key "Max")))
    (.more
      (.gate true ⟨"fn:sinceversion", by decide⟩ ⟨"1.5", ⟨1, 5⟩, parse_onward⟩
        (.gate false ⟨"fn:BeforeVersion", by decide⟩ ⟨"2.0", .two, parse_until⟩
          (.range (.number ⟨"-2", .ofInt (-2), readReal_low⟩) (.sibling (key "N")))))
    (.more (.sibling (key "Rotate"))
    (.one (.literal ⟨.quoted "a, b", .text "a, b", rfl⟩))))))

def items : List ValueItem :=
  [.literal (.text "Off"), .compare .lessEqual (.sibling "Max"),
    .since ⟨1, 5⟩ (.before .two (.range (.number (.ofInt (-2))) (.sibling "N"))),
    .sibling "Rotate", .literal (.text "a, b")]

end Spectrum

theorem PossibleValues.parse_iff_derivation_spectrum :
    Expression.tokens Spectrum.text.toList = .ok Spectrum.tokens ∧
      parse Spectrum.text = .ok ⟨Spectrum.items⟩ ∧
      ∀ e : Derivation, e.tokens = Spectrum.tokens → e = Spectrum.derivation := by
  obtain ⟨hparse, hunique⟩ := parse_iff_derivation Spectrum.tokens_text
  have hitems : Spectrum.derivation.items = Spectrum.items := by decide +kernel
  refine ⟨Spectrum.tokens_text, ?_, fun e he => hunique e Spectrum.derivation he rfl⟩
  exact (hparse ⟨Spectrum.items⟩).2 ⟨Spectrum.derivation, rfl, hitems⟩

end PdfConform
