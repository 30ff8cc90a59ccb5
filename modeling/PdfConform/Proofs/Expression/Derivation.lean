import PdfConform.Expression.Predicate
import PdfConform.Proofs.Expression.Scan

/-! The grammar of conditions. A derivation holds the tokens that it stands for and prescribes a
tree; `parse` succeeds exactly on the texts that have a derivation, and no text has two. -/
namespace PdfConform

open Expression

/-- A word, number or quoted text as a literal. -/
def Token.literal? : Token → Option Literal
  | .word s => some (.ofWord s)
  | .number s => some (.ofWord s)
  | .quoted s => some (.text s)
  | _ => none

namespace Predicate

/-- The names with a meaning of their own. A gate is open from a version onward, or before it. -/
inductive Name
  | truth (value : Bool)
  | gate (onward : Bool)
  | presence (present : Bool)

def Name.text : Name → String
  | .truth value => if value then "TRUE" else "FALSE"
  | .gate onward => if onward then "fn:SinceVersion" else "fn:BeforeVersion"
  | .presence present => if present then "fn:IsPresent" else "fn:NotPresent"

/-- A word for the name, in any case of letters. -/
structure Keyword (name : Name) where
  word : String
  same : Literal.equalsIgnoringCase word name.text = true

structure KeyToken where
  token : Token
  key : String
  bare : token.bare? = some key

structure VersionToken where
  number : String
  version : Version
  parsed : Version.parse number = .ok version

structure LiteralToken where
  token : Token
  value : Literal
  taken : token.literal? = some value

inductive Symbol
  | or
  | orMore
  | and
  | andMore
  | unary
  | argument

/-- Derivations of the grammar
`or := and ("||" and)*`, `and := unary ("&&" unary)*`,
`unary := "!" unary | "(" or ")" | TRUE | FALSE | gate "(" VERSION argument ")" |
presence "(" KEY ")" | "@" KEY ("==" | "!=") LITERAL`, `argument := ["," or]`. -/
inductive Derivation : Symbol → Type
  | or : Derivation .and → Derivation .orMore → Derivation .or
  | orEnd : Derivation .orMore
  | orNext : Derivation .and → Derivation .orMore → Derivation .orMore
  | and : Derivation .unary → Derivation .andMore → Derivation .and
  | andEnd : Derivation .andMore
  | andNext : Derivation .unary → Derivation .andMore → Derivation .andMore
  | not : Derivation .unary → Derivation .unary
  | group : Derivation .or → Derivation .unary
  | const (value : Bool) : Keyword (.truth value) → Derivation .unary
  | gate (onward : Bool) : Keyword (.gate onward) → VersionToken → Derivation .argument →
    Derivation .unary
  | presence (present : Bool) : Keyword (.presence present) → KeyToken → Derivation .unary
  | comparison : KeyToken → (negated : Bool) → LiteralToken → Derivation .unary
  | noArgument : Derivation .argument
  | argument : Derivation .or → Derivation .argument

/-- What follows a first operand says what becomes of it. -/
abbrev Symbol.Meaning : Symbol → Type
  | .orMore => Predicate → Predicate
  | .andMore => Predicate → Predicate
  | _ => Predicate

namespace Derivation

def tokens {s : Symbol} : Derivation s → List Token
  | .or first more => first.tokens ++ more.tokens
  | .orEnd => []
  | .orNext next more => .orOr :: (next.tokens ++ more.tokens)
  | .and first more => first.tokens ++ more.tokens
  | .andEnd => []
  | .andNext next more => .andAnd :: (next.tokens ++ more.tokens)
  | .not inner => .bang :: inner.tokens
  | .group inner => .leftParen :: (inner.tokens ++ [.rightParen])
  | .const _ name => [.word name.word]
  | .gate _ name version inside =>
    .word name.word :: .leftParen :: .number version.number :: (inside.tokens ++ [.rightParen])
  | .presence _ name key => [.word name.word, .leftParen, key.token, .rightParen]
  | .comparison key negated literal =>
    [.at, key.token, if negated then .notEqual else .equal, literal.token]
  | .noArgument => []
  | .argument inner => .comma :: inner.tokens

/-- The tree that a derivation prescribes: operators of one kind join from left to right, and a
version that stands alone asks for nothing more. -/
def tree {s : Symbol} : Derivation s → s.Meaning
  | .or first more => more.tree first.tree
  | .orEnd => fun left => left
  | .orNext next more => fun left => more.tree (.or left next.tree)
  | .and first more => more.tree first.tree
  | .andEnd => fun left => left
  | .andNext next more => fun left => more.tree (.and left next.tree)
  | .not inner => Predicate.not inner.tree
  | .group inner => inner.tree
  | .const value _ => Predicate.const value
  | .gate onward _ version inside =>
    if onward then Predicate.since version.version inside.tree
    else Predicate.before version.version inside.tree
  | .presence present _ key =>
    if present then Predicate.isPresent key.key else Predicate.notPresent key.key
  | .comparison key negated literal => Predicate.keyEquals key.key literal.value negated
  | .noArgument => Predicate.const true
  | .argument inner => inner.tree

/-- A unary condition by itself. -/
def whole (d : Derivation .unary) : Derivation .or := .or (.and d .andEnd) .orEnd

theorem tokens_whole (d : Derivation .unary) : d.whole.tokens = d.tokens := by
  simp [whole, tokens]

end Derivation

/-- The two operators. Each joins operands of its own level from left to right. -/
inductive Operator
  | or
  | and

namespace Operator

def mark : Operator → Token
  | .or => .orOr
  | .and => .andAnd

def join : Operator → Predicate → Predicate → Predicate
  | .or => .or
  | .and => .and

def operand : Operator → Symbol
  | .or => .and
  | .and => .unary

def joined : Operator → Symbol
  | .or => .or
  | .and => .and

/-- What follows the first operand. -/
def more : Operator → Symbol
  | .or => .orMore
  | .and => .andMore

def chain : (o : Operator) → Derivation o.operand → Derivation o.more → Derivation o.joined
  | .or => .or
  | .and => .and

def stop : (o : Operator) → Derivation o.more
  | .or => .orEnd
  | .and => .andEnd

def next : (o : Operator) → Derivation o.operand → Derivation o.more → Derivation o.more
  | .or => .orNext
  | .and => .andNext

variable (o : Operator)

theorem tokens_chain (first : Derivation o.operand) (more : Derivation o.more) :
    (o.chain first more).tokens = first.tokens ++ more.tokens := by
  cases o <;> rfl

theorem tokens_stop : o.stop.tokens = [] := by
  cases o <;> rfl

theorem tokens_next (next : Derivation o.operand) (more : Derivation o.more) :
    (o.next next more).tokens = o.mark :: (next.tokens ++ more.tokens) := by
  cases o <;> rfl

theorem exists_chain (d : Derivation o.joined) : ∃ first more, d = o.chain first more := by
  cases o <;> cases d <;> exact ⟨_, _, rfl⟩

theorem stop_or_next (d : Derivation o.more) : d = o.stop ∨ ∃ next more, d = o.next next more := by
  cases o <;> cases d <;> first | exact .inl rfl | exact .inr ⟨_, _, rfl⟩

end Operator

/-! No text has two derivations -/

/-- The tokens that would be read on as part of a derivation in front of them. -/
def Symbol.goesOn : Symbol → List Token
  | .or => [.orOr, .andAnd]
  | .orMore => [.orOr, .andAnd]
  | .and => [.andAnd]
  | .andMore => [.andAnd]
  | .unary => []
  | .argument => [.comma, .orOr, .andAnd]

/-- A derivation of the symbol ends in front of these tokens. -/
def Symbol.Ends (s : Symbol) (rest : List Token) : Prop := ∀ t ∈ rest.head?, t ∉ s.goesOn

theorem Symbol.Ends.head?_ne {s : Symbol} {rest : List Token} (h : s.Ends rest) {t : Token}
    (ht : t ∈ s.goesOn) : rest.head? ≠ some t :=
  fun hhead => h t hhead ht

theorem Symbol.Ends.nil (s : Symbol) : s.Ends [] := nofun

theorem Symbol.Ends.rightParen (s : Symbol) (rest : List Token) : s.Ends (.rightParen :: rest) := by
  intro t ht
  cases ht
  cases s <;> decide

theorem Symbol.Ends.unary (rest : List Token) : Symbol.unary.Ends rest := nofun

theorem Symbol.Ends.or {rest : List Token} (h : Symbol.argument.Ends rest) :
    Symbol.or.Ends rest :=
  fun t ht hmem => h t ht (List.mem_cons_of_mem _ hmem)

namespace Operator

variable {o : Operator} {rest : List Token}

theorem ends_more (h : o.joined.Ends rest) : o.more.Ends rest := by
  cases o <;> exact h

theorem head?_ne_mark (h : o.more.Ends rest) : rest.head? ≠ some o.mark :=
  h.head?_ne (by cases o <;> decide)

/-- An operand ends in front of its operator, and wherever the whole may end. -/
theorem ends_operand (more : Derivation o.more) (h : o.more.Ends rest) :
    o.operand.Ends (more.tokens ++ rest) := by
  cases o with
  | and => exact .unary _
  | or =>
    cases more with
    | orEnd => exact fun t ht hmem => h t ht (List.mem_cons_of_mem _ hmem)
    | orNext next more =>
      intro t ht
      cases ht
      decide

end Operator

theorem Name.text_inj {n m : Name} (h : Literal.equalsIgnoringCase n.text m.text = true) :
    n = m := by
  rcases n with b | b | b <;> rcases m with c | c | c <;> cases b <;> cases c <;>
    first | rfl | exact absurd h (by decide)

theorem Keyword.ext {n : Name} {k l : Keyword n} (h : k.word = l.word) : k = l := by
  cases k; cases l; cases h; rfl

/-- No word is for two names. -/
theorem Keyword.unique {n m : Name} (k : Keyword n) (l : Keyword m) (h : k.word = l.word) :
    n = m := by
  have hk := k.same
  have hl := l.same
  simp only [Literal.equalsIgnoringCase, beq_iff_eq] at hk hl
  refine Name.text_inj ?_
  rw [Literal.equalsIgnoringCase, beq_iff_eq, ← hk, h, hl]

theorem KeyToken.ext {k l : KeyToken} (h : k.token = l.token) : k = l := by
  obtain ⟨t, key, hk⟩ := k
  obtain ⟨u, other, hl⟩ := l
  obtain rfl : t = u := h
  obtain rfl := Option.some.inj (hk.symm.trans hl)
  rfl

theorem VersionToken.ext {k l : VersionToken} (h : k.number = l.number) : k = l := by
  obtain ⟨s, v, hk⟩ := k
  obtain ⟨t, w, hl⟩ := l
  obtain rfl : s = t := h
  obtain rfl := Except.ok.inj (hk.symm.trans hl)
  rfl

theorem LiteralToken.ext {k l : LiteralToken} (h : k.token = l.token) : k = l := by
  obtain ⟨t, v, hk⟩ := k
  obtain ⟨u, w, hl⟩ := l
  obtain rfl : t = u := h
  obtain rfl := Option.some.inj (hk.symm.trans hl)
  rfl

namespace Derivation

/-- The tokens of the derivation, where it ends, are those of no other one. -/
def Unique {s : Symbol} (d : Derivation s) : Prop :=
  ∀ (e : Derivation s) {r r' : List Token}, s.Ends r → s.Ends r' →
    d.tokens ++ r = e.tokens ++ r' → d = e ∧ r = r'

section

variable {o : Operator} {operand : Derivation o.operand} {more : Derivation o.more}

theorem Unique.chain (hfirst : operand.Unique) (hmore : more.Unique) :
    (o.chain operand more).Unique := by
  intro e r r' hr hr' h
  obtain ⟨first', more', rfl⟩ := o.exists_chain e
  rw [o.tokens_chain, o.tokens_chain, List.append_assoc, List.append_assoc] at h
  have hends := Operator.ends_more hr
  have hends' := Operator.ends_more hr'
  obtain ⟨rfl, hrest⟩ :=
    hfirst first' (Operator.ends_operand more hends) (Operator.ends_operand more' hends') h
  obtain ⟨rfl, rfl⟩ := hmore more' hends hends' hrest
  exact ⟨rfl, rfl⟩

theorem unique_stop (o : Operator) : o.stop.Unique := by
  intro e r r' hr _ h
  obtain rfl | ⟨next', more', rfl⟩ := o.stop_or_next e
  · rw [o.tokens_stop] at h
    exact ⟨rfl, h⟩
  · rw [o.tokens_stop, o.tokens_next] at h
    exact absurd (congrArg List.head? h) (Operator.head?_ne_mark hr)

theorem Unique.next (hnext : operand.Unique) (hmore : more.Unique) :
    (o.next operand more).Unique := by
  intro e r r' hr hr' h
  obtain rfl | ⟨next', more', rfl⟩ := o.stop_or_next e
  · rw [o.tokens_stop, o.tokens_next] at h
    exact absurd (congrArg List.head? h.symm) (Operator.head?_ne_mark hr')
  · simp only [o.tokens_next, List.cons_append, List.append_assoc, List.cons.injEq, true_and] at h
    obtain ⟨rfl, hrest⟩ :=
      hnext next' (Operator.ends_operand more hr) (Operator.ends_operand more' hr') h
    obtain ⟨rfl, rfl⟩ := hmore more' hr hr' hrest
    exact ⟨rfl, rfl⟩

end

/-- Tokens that end where a derivation does have one derivation at most. -/
theorem unique {s : Symbol} (d : Derivation s) : d.Unique := by
  induction d with
  | or _ _ ihfirst ihmore => exact .chain (o := .or) ihfirst ihmore
  | orEnd => exact unique_stop .or
  | orNext _ _ ihnext ihmore => exact .next (o := .or) ihnext ihmore
  | and _ _ ihfirst ihmore => exact .chain (o := .and) ihfirst ihmore
  | andEnd => exact unique_stop .and
  | andNext _ _ ihnext ihmore => exact .next (o := .and) ihnext ihmore
  | not inner ih =>
    intro e r r' hr hr' h
    cases e <;> simp only [tokens, List.cons_append, List.cons.injEq, reduceCtorEq, false_and,
      true_and] at h
    next inner' =>
      obtain ⟨rfl, rfl⟩ := ih inner' (.unary _) (.unary _) h
      exact ⟨rfl, rfl⟩
  | group inner ih =>
    intro e r r' hr hr' h
    cases e <;> simp only [tokens, List.cons_append, List.cons.injEq, reduceCtorEq, false_and,
      true_and, List.append_assoc, List.nil_append] at h
    next inner' =>
      obtain ⟨rfl, hclose⟩ := ih inner' (.rightParen _ _) (.rightParen _ _) h
      exact ⟨rfl, (List.cons.inj hclose).2⟩
  | const value name =>
    intro e r r' hr hr' h
    cases e <;> simp only [tokens, List.cons_append, List.cons.injEq, reduceCtorEq, false_and,
      Token.word.injEq, List.nil_append] at h
    next value' name' =>
      cases name.unique name' h.1
      exact ⟨congrArg _ (Keyword.ext h.1), h.2⟩
    next name' _ _ => cases name.unique name' h.1
    next name' _ => cases name.unique name' h.1
  | gate onward name version inside ih =>
    intro e r r' hr hr' h
    cases e <;> simp only [tokens, List.cons_append, List.cons.injEq, reduceCtorEq, false_and,
      Token.word.injEq, Token.number.injEq, true_and, List.append_assoc, List.nil_append] at h
    next name' => cases name.unique name' h.1
    next onward' name' version' inside' =>
      obtain ⟨hname, hversion, hinside⟩ := h
      cases name.unique name' hname
      obtain rfl := Keyword.ext hname
      obtain rfl := VersionToken.ext hversion
      obtain ⟨rfl, hclose⟩ := ih inside' (.rightParen _ _) (.rightParen _ _) hinside
      exact ⟨rfl, (List.cons.inj hclose).2⟩
    next name' _ => cases name.unique name' h.1
  | presence present name key =>
    intro e r r' hr hr' h
    cases e <;> simp only [tokens, List.cons_append, List.cons.injEq, reduceCtorEq, false_and,
      Token.word.injEq, true_and, List.append_assoc, List.nil_append] at h
    next name' => cases name.unique name' h.1
    next name' _ _ => cases name.unique name' h.1
    next present' name' key' =>
      obtain ⟨hname, hkey, hrest⟩ := h
      cases name.unique name' hname
      obtain rfl := Keyword.ext hname
      obtain rfl := KeyToken.ext hkey
      exact ⟨rfl, hrest⟩
  | comparison key negated literal =>
    intro e r r' hr hr' h
    cases e <;> simp only [tokens, List.cons_append, List.cons.injEq, reduceCtorEq, false_and,
      true_and, List.nil_append] at h
    next key' negated' literal' =>
      obtain ⟨hkey, hmark, hliteral, hrest⟩ := h
      obtain rfl := KeyToken.ext hkey
      obtain rfl := LiteralToken.ext hliteral
      obtain rfl : negated = negated' := by
        cases negated <;> cases negated' <;> first | rfl | cases hmark
      exact ⟨rfl, hrest⟩
  | noArgument =>
    intro e r r' hr hr' h
    cases e with
    | noArgument => exact ⟨rfl, h⟩
    | argument inner' =>
      simp only [tokens, List.nil_append, List.cons_append] at h
      exact absurd (congrArg List.head? h) (hr.head?_ne (by decide))
  | argument inner ih =>
    intro e r r' hr hr' h
    cases e with
    | noArgument =>
      simp only [tokens, List.nil_append, List.cons_append] at h
      exact absurd (congrArg List.head? h.symm) (hr'.head?_ne (by decide))
    | argument inner' =>
      simp only [tokens, List.cons_append, List.cons.injEq, true_and] at h
      obtain ⟨rfl, rfl⟩ := ih inner' hr.or hr'.or h
      exact ⟨rfl, rfl⟩

end Derivation

end Predicate

end PdfConform
