import PdfConform.Proofs.Expression.Derivation

/-! Reading a condition follows its grammar. With enough fuel every derivation is read back from
its tokens, and whatever is read has a derivation. -/
namespace PdfConform

open Expression

/-- Words and numbers among these tokens read as literals for what they look like. -/
def Expression.Lexed (ts : List Token) : Prop :=
  ∀ t ∈ ts, ∀ s, t.bare? = some s → Literal.parse s = some (.ofWord s)

theorem Literal.parse_of_bare {t : Token} {s : String} (h : t.Bare s) :
    Literal.parse s = some (.ofWord s) := by
  obtain ⟨hne, hword⟩ := isWordChar_of_bare h
  obtain ⟨c, cs, hcs⟩ := List.exists_cons_of_ne_nil hne
  have hblank : ∀ d ∈ s.toList, Text.isBlank d = false :=
    fun d hd => isBlank_of_isWordChar (hword d hd)
  have hfirst {mark : Char} (hmark : isWordChar mark = false) : c ≠ mark := by
    rintro rfl
    rw [hword c (hcs ▸ List.mem_cons_self)] at hmark
    cases hmark
  have hopen {first last : Char} (hmark : isWordChar first = false) :
      Text.between first last s.toList = none := by
    rw [hcs, Text.between, if_neg (hfirst hmark)]
  have hany : s.toList.any Text.isBlank = false := by
    rw [List.any_eq_false]
    exact fun d hd => by simp [hblank d hd]
  have hempty : s.toList.isEmpty = false := by rw [hcs]; rfl
  unfold Literal.parse
  rw [Text.trim_of_noBlank hblank]
  simp only [hopen (show isWordChar '[' = false from rfl), Option.map_none, Option.getD_none,
    hempty, hany, hopen (show isWordChar '\'' = false from rfl), Bool.false_and, Bool.or_self,
    Bool.false_eq_true, if_false, String.ofList_toList]

theorem Expression.lexed_of_tokens {cs : List Char} {ts : List Token} (h : tokens cs = .ok ts) :
    Lexed ts :=
  fun _ ht _ hbare => Literal.parse_of_bare (bare_of_mem_tokens h ht hbare)

namespace Expression

theorem Lexed.append_right {ts us : List Token} (h : Lexed (ts ++ us)) : Lexed us :=
  fun t ht => h t (List.mem_append_right ts ht)

theorem Lexed.tail {t : Token} {ts : List Token} (h : Lexed (t :: ts)) : Lexed ts :=
  fun u hu => h u (List.mem_cons_of_mem t hu)

theorem readKey_of_bare {t : Token} {key : String} (h : t.bare? = some key) (rest : List Token) :
    readKey (t :: rest) = .ok (key, rest) := by
  cases t <;> cases h <;> rfl

theorem expect_self (t : Token) (rest : List Token) : expect t (t :: rest) = .ok ((), rest) :=
  if_pos rfl

theorem readVersion_of_parse {s : String} {v : Version} (h : Version.parse s = .ok v)
    (rest : List Token) : readVersion (.number s :: rest) = .ok (v, rest) := by
  rw [readVersion, h]

end Expression

namespace Predicate

theorem readLiteral_of_token (literal : LiteralToken) {rest : List Token}
    (h : Lexed (literal.token :: rest)) :
    readLiteral (literal.token :: rest) = .ok (literal.value, rest) := by
  obtain ⟨t, value, htaken⟩ := literal
  have hparse := h t List.mem_cons_self
  cases t <;> cases htaken
  · rw [readLiteral, literalOfWord, hparse _ rfl]
  · rw [readLiteral, literalOfWord, hparse _ rfl]
  · rfl

theorem token_of_readLiteral {ts rest : List Token} {value : Literal} (hlexed : Lexed ts)
    (h : readLiteral ts = .ok (value, rest)) :
    ∃ literal : LiteralToken, ts = literal.token :: rest ∧ literal.value = value := by
  have hword (t : Token) (s : String) (tail : List Token) (hts : ts = t :: tail)
      (hbare : t.bare? = some s) (hliteral : t.literal? = some (.ofWord s))
      (hread : literalOfWord s tail = .ok (value, rest)) :
      ∃ literal : LiteralToken, ts = literal.token :: rest ∧ literal.value = value := by
    rw [literalOfWord, hlexed t (hts ▸ List.mem_cons_self) s hbare] at hread
    cases hread
    exact ⟨⟨t, _, hliteral⟩, hts, rfl⟩
  unfold readLiteral at h
  split at h
  · exact hword _ _ _ rfl rfl rfl h
  · exact hword _ _ _ rfl rfl rfl h
  · cases h
    exact ⟨⟨_, _, rfl⟩, rfl, rfl⟩
  · cases h

theorem readEquality_of_mark (negated : Bool) (rest : List Token) :
    readEquality ((if negated then .notEqual else .equal) :: rest) = .ok (negated, rest) := by
  cases negated <;> rfl

theorem mark_of_readEquality {ts rest : List Token} {negated : Bool}
    (h : readEquality ts = .ok (negated, rest)) :
    ts = (if negated then .notEqual else .equal) :: rest := by
  unfold readEquality at h
  split at h <;> cases h <;> rfl

theorem equalsIgnoringCase_congr {name other : String}
    (h : Literal.equalsIgnoringCase name other = true) (s : String) :
    Literal.equalsIgnoringCase s name = Literal.equalsIgnoringCase s other := by
  rw [Literal.equalsIgnoringCase, beq_iff_eq] at h
  rw [Literal.equalsIgnoringCase, Literal.equalsIgnoringCase, h]

theorem equalsIgnoringCase_true (s : String) :
    Literal.equalsIgnoringCase s "true" = Literal.equalsIgnoringCase s (Name.truth true).text :=
  equalsIgnoringCase_congr (by decide) s

theorem equalsIgnoringCase_false (s : String) :
    Literal.equalsIgnoringCase s "false" = Literal.equalsIgnoringCase s (Name.truth false).text :=
  equalsIgnoringCase_congr (by decide) s

/-- The function that a name stands for. -/
def Name.function? : Name → Option Function
  | .truth _ => none
  | .gate onward => some (if onward then .since else .before)
  | .presence present => some (if present then .isPresent else .notPresent)

theorem function?_of_keyword {n : Name} (k : Keyword n) : function? k.word = n.function? := by
  have hsame := k.same
  simp only [Literal.equalsIgnoringCase, beq_iff_eq] at hsame
  rw [function?, hsame]
  rcases n with b | b | b <;> cases b <;> decide

theorem not_truth_of_keyword {n : Name} (k : Keyword n) {b : Bool} (h : n ≠ .truth b) :
    Literal.equalsIgnoringCase k.word (Name.truth b).text = false := by
  rw [← Bool.not_eq_true]
  exact fun hsame => h (k.unique ⟨k.word, hsame⟩ rfl)

theorem readComparison_of_tokens (key : KeyToken) (negated : Bool) (literal : LiteralToken)
    {rest : List Token} (h : Lexed (literal.token :: rest)) :
    readComparison (key.token :: (if negated then .notEqual else .equal) :: literal.token :: rest) =
      .ok (.keyEquals key.key literal.value negated, rest) := by
  have hequality := readEquality_of_mark negated (literal.token :: rest)
  simp only [readComparison, readKey_of_bare key.bare, bind, Except.bind, hequality,
    readLiteral_of_token literal h, pure, Except.pure]

/-! What has a derivation is read -/

/-- The tree of the derivation behind an operand, which counts where an operator follows it. -/
def Derivation.treeAfter : {s : Symbol} → Derivation s → Predicate → Predicate
  | .or, d, _ => d.tree
  | .orMore, d, left => d.tree left
  | .and, d, _ => d.tree
  | .andMore, d, left => d.tree left
  | .unary, d, _ => d.tree
  | .argument, d, _ => d.tree

/-- The reader of a symbol, behind an operand. -/
def Symbol.read : Symbol → Nat → Predicate → List Token → Except Cause (Taken Predicate)
  | .or, fuel, _ => readOr fuel
  | .orMore, fuel, left => readOrRest fuel left
  | .and, fuel, _ => readAnd fuel
  | .andMore, fuel, left => readAndRest fuel left
  | .unary, fuel, _ => readUnary fuel
  | .argument, fuel, _ => readInner fuel

/-- The reader of the symbol turns the tokens of the derivation into its tree. -/
def ReadBy {s : Symbol} (d : Derivation s) (fuel : Nat) (rest : List Token) : Prop :=
  ∀ left, s.read fuel left (d.tokens ++ rest) = .ok (d.treeAfter left, rest)

/-- The fuel for a derivation of the symbol, over four for each token and less four. -/
def Symbol.calls : Symbol → Nat
  | .or => 3
  | .and => 2
  | .unary => 1
  | _ => 5

/-- The fewest tokens of a derivation. -/
def Symbol.least : Symbol → Nat
  | .orMore => 0
  | .andMore => 0
  | .argument => 0
  | _ => 1

theorem Derivation.least_le {s : Symbol} (d : Derivation s) : s.least ≤ d.tokens.length := by
  induction d <;> simp only [tokens, Symbol.least, List.length_append, List.length_cons,
    List.length_nil] at * <;> omega

namespace Operator

variable (o : Operator) {fuel : Nat} {left : Predicate} {ts rest : List Token}

theorem treeAfter_chain (first : Derivation o.operand) (more : Derivation o.more) :
    (o.chain first more).treeAfter left = more.treeAfter (first.treeAfter left) := by
  cases o <;> rfl

theorem treeAfter_stop : o.stop.treeAfter left = left := by
  cases o <;> rfl

theorem treeAfter_next (next : Derivation o.operand) (more : Derivation o.more) :
    (o.next next more).treeAfter left = more.treeAfter (o.join left (next.treeAfter left)) := by
  cases o <;> rfl

theorem read_joined : o.joined.read (fuel + 1) left ts = o.operand.read fuel left ts >>=
    fun taken => o.more.read fuel taken.1 taken.2 := by
  cases o <;> rfl

theorem read_mark : o.more.read (fuel + 1) left (o.mark :: ts) = o.operand.read fuel left ts >>=
    fun taken => o.more.read fuel (o.join left taken.1) taken.2 := by
  cases o <;> rfl

theorem read_of_end (h : rest.head? ≠ some o.mark) :
    o.more.read (fuel + 1) left rest = .ok (left, rest) := by
  cases rest with
  | nil => cases o <;> rfl
  | cons t rest => cases o <;> cases t <;> first | rfl | exact absurd rfl h

theorem calls_joined : o.joined.calls = o.operand.calls + 1 := by
  cases o <;> rfl

theorem calls_more : o.more.calls = 5 := by
  cases o <;> rfl

theorem calls_operand : 1 ≤ o.operand.calls ∧ o.operand.calls ≤ 2 := by
  cases o <;> decide

theorem least_operand : o.operand.least = 1 := by
  cases o <;> rfl

end Operator

theorem readInner_of_end {fuel : Nat} {rest : List Token} (h : rest.head? ≠ some .comma) :
    readInner (fuel + 1) rest = .ok (.const true, rest) := by
  cases rest with
  | nil => rfl
  | cons t rest => cases t <;> first | rfl | exact absurd rfl h

/-- A word for a function, in front of its parenthesis. -/
theorem readUnary_of_call {fuel : Nat} {n : Name} (name : Keyword n) (hname : ∀ b, n ≠ .truth b)
    {ts rest : List Token} {p : Predicate}
    (h : readCall fuel name.word ts = .ok (p, .rightParen :: rest)) :
    readUnary (fuel + 1) (.word name.word :: .leftParen :: ts) = .ok (p, rest) := by
  simp only [readUnary, equalsIgnoringCase_true, equalsIgnoringCase_false,
    not_truth_of_keyword name (hname _), Bool.false_eq_true, if_false, bind, Except.bind, h,
    expect_self, pure, Except.pure]

theorem readUnary_of_truth {fuel : Nat} {value : Bool} (name : Keyword (.truth value))
    (rest : List Token) : readUnary (fuel + 1) (.word name.word :: rest) =
      .ok (.const value, rest) := by
  cases value with
  | true => simp only [readUnary, equalsIgnoringCase_true, name.same, if_true]
  | false =>
    have hnot : Literal.equalsIgnoringCase name.word (Name.truth true).text = false :=
      not_truth_of_keyword name nofun
    simp only [readUnary, equalsIgnoringCase_true, hnot, Bool.false_eq_true, if_false,
      equalsIgnoringCase_false, name.same, if_true]

section

variable {fuel : Nat} {rest : List Token}

theorem ReadBy.chain {o : Operator} {first : Derivation o.operand} {more : Derivation o.more}
    (hfirst : ReadBy first fuel (more.tokens ++ rest)) (hmore : ReadBy more fuel rest) :
    ReadBy (o.chain first more) (fuel + 1) rest := by
  intro left
  rw [o.read_joined, o.tokens_chain, List.append_assoc, hfirst left, o.treeAfter_chain]
  exact hmore (first.treeAfter left)

theorem readBy_stop {o : Operator} (h : rest.head? ≠ some o.mark) :
    ReadBy o.stop (fuel + 1) rest := by
  intro left
  rw [o.tokens_stop, o.treeAfter_stop]
  exact o.read_of_end h

theorem ReadBy.next {o : Operator} {next : Derivation o.operand} {more : Derivation o.more}
    (hnext : ReadBy next fuel (more.tokens ++ rest)) (hmore : ReadBy more fuel rest) :
    ReadBy (o.next next more) (fuel + 1) rest := by
  intro left
  rw [o.tokens_next, List.cons_append, List.append_assoc, o.read_mark, hnext left,
    o.treeAfter_next]
  exact hmore (o.join left (next.treeAfter left))

theorem ReadBy.not {inner : Derivation .unary} (hinner : ReadBy inner fuel rest) :
    ReadBy (.not inner) (fuel + 1) rest := by
  intro left
  have hread : readUnary fuel (inner.tokens ++ rest) = .ok (inner.tree, rest) := hinner left
  change readUnary (fuel + 1) (.bang :: (inner.tokens ++ rest)) = _
  simp only [readUnary, bind, Except.bind, hread]
  rfl

theorem ReadBy.group {inner : Derivation .or} (hinner : ReadBy inner fuel (.rightParen :: rest)) :
    ReadBy (.group inner) (fuel + 1) rest := by
  intro left
  have hread : readOr fuel (inner.tokens ++ .rightParen :: rest) =
      .ok (inner.tree, .rightParen :: rest) := hinner left
  change readUnary (fuel + 1) (.leftParen :: (inner.tokens ++ [.rightParen] ++ rest)) = _
  simp only [List.append_assoc, List.cons_append, List.nil_append, readUnary, bind, Except.bind,
    hread, expect_self]
  rfl

theorem ReadBy.gate {onward : Bool} (name : Keyword (.gate onward)) (version : VersionToken)
    {inside : Derivation .argument} (hinside : ReadBy inside fuel (.rightParen :: rest)) :
    ReadBy (.gate onward name version inside) (fuel + 2) rest := by
  intro left
  have hread : readInner fuel (inside.tokens ++ .rightParen :: rest) =
      .ok (inside.tree, .rightParen :: rest) := hinside left
  simp only [Derivation.tokens, List.cons_append, List.append_assoc, List.nil_append]
  refine readUnary_of_call name (fun _ => Name.noConfusion) ?_
  rw [readCall, function?_of_keyword name]
  cases onward <;>
    simp only [Name.function?, Bool.false_eq_true, if_false, if_true, bind, Except.bind,
      readVersion_of_parse version.parsed, hread] <;> rfl

theorem ReadBy.presence {present : Bool} (name : Keyword (.presence present)) (key : KeyToken) :
    ReadBy (.presence present name key) (fuel + 2) rest := by
  intro left
  simp only [Derivation.tokens, List.cons_append, List.nil_append]
  refine readUnary_of_call name (fun _ => Name.noConfusion) ?_
  rw [readCall, function?_of_keyword name]
  cases present <;>
    simp only [Name.function?, Bool.false_eq_true, if_false, if_true, bind, Except.bind,
      readKey_of_bare key.bare] <;> rfl

end

/-- A reader that has the fuel for a derivation can make its first call. -/
theorem Derivation.exists_fuel {s : Symbol} {d : Derivation s} {fuel : Nat}
    (h : 4 * d.tokens.length + s.calls ≤ fuel + 4) : ∃ n, fuel = n + 1 := by
  have hleast := d.least_le
  refine Nat.exists_eq_add_one_of_ne_zero ?_
  cases s <;> simp only [Symbol.calls, Symbol.least] at h hleast <;> omega

/-- The derivation is read with enough fuel, in front of what does not go on with it. -/
def Readable {s : Symbol} (d : Derivation s) : Prop :=
  ∀ {fuel : Nat} {rest : List Token}, 4 * d.tokens.length + s.calls ≤ fuel + 4 → s.Ends rest →
    Lexed (d.tokens ++ rest) → ReadBy d fuel rest

section

variable {o : Operator} {operand : Derivation o.operand} {more : Derivation o.more}

theorem Readable.chain (hfirst : Readable operand) (hmore : Readable more) :
    Readable (o.chain operand more) := by
  intro fuel rest hfuel hends hlexed
  obtain ⟨fuel, rfl⟩ := Derivation.exists_fuel hfuel
  obtain ⟨hcalls, _⟩ := o.calls_operand
  have hpos := operand.least_le
  rw [o.least_operand] at hpos
  rw [o.tokens_chain, List.length_append, o.calls_joined] at hfuel
  rw [o.tokens_chain, List.append_assoc] at hlexed
  have hmoreFuel : 4 * more.tokens.length + o.more.calls ≤ fuel + 4 := by
    rw [o.calls_more]
    omega
  have hends := Operator.ends_more hends
  exact .chain (hfirst (by omega) (Operator.ends_operand more hends) hlexed)
    (hmore hmoreFuel hends hlexed.append_right)

theorem readable_stop (o : Operator) : Readable o.stop := by
  intro fuel rest hfuel hends _
  obtain ⟨fuel, rfl⟩ := Derivation.exists_fuel hfuel
  exact readBy_stop (Operator.head?_ne_mark hends)

theorem Readable.next (hnext : Readable operand) (hmore : Readable more) :
    Readable (o.next operand more) := by
  intro fuel rest hfuel hends hlexed
  obtain ⟨fuel, rfl⟩ := Derivation.exists_fuel hfuel
  obtain ⟨_, hcalls⟩ := o.calls_operand
  have hpos := operand.least_le
  rw [o.least_operand] at hpos
  rw [o.tokens_next, List.length_cons, List.length_append, o.calls_more] at hfuel
  rw [o.tokens_next, List.cons_append, List.append_assoc] at hlexed
  have hmoreFuel : 4 * more.tokens.length + o.more.calls ≤ fuel + 4 := by
    rw [o.calls_more]
    omega
  exact .next (hnext (by omega) (Operator.ends_operand more hends) hlexed.tail)
    (hmore hmoreFuel hends hlexed.tail.append_right)

end

/-- By induction on the derivation: its first token pays for the calls up to the part that takes
it, and what a part leaves may not go on with it. -/
theorem readable {s : Symbol} (d : Derivation s) : Readable d := by
  induction d with
  | or _ _ ihfirst ihmore => exact Readable.chain (o := .or) ihfirst ihmore
  | orEnd => exact readable_stop .or
  | orNext _ _ ihnext ihmore => exact Readable.next (o := .or) ihnext ihmore
  | and _ _ ihfirst ihmore => exact Readable.chain (o := .and) ihfirst ihmore
  | andEnd => exact readable_stop .and
  | andNext _ _ ihnext ihmore => exact Readable.next (o := .and) ihnext ihmore
  | not inner ih =>
    intro fuel rest hfuel _ hlexed
    obtain ⟨fuel, rfl⟩ := Derivation.exists_fuel hfuel
    simp only [Derivation.tokens, List.length_cons, Symbol.calls] at hfuel
    exact .not (ih (by simp only [Symbol.calls]; omega) (.unary _) hlexed.tail)
  | group inner ih =>
    intro fuel rest hfuel _ hlexed
    obtain ⟨fuel, rfl⟩ := Derivation.exists_fuel hfuel
    simp only [Derivation.tokens, List.length_cons, List.length_append, List.length_nil,
      Symbol.calls] at hfuel
    simp only [Derivation.tokens, List.cons_append, List.append_assoc, List.nil_append] at hlexed
    exact .group (ih (by simp only [Symbol.calls]; omega) (.rightParen _ _) hlexed.tail)
  | const value name =>
    intro fuel rest hfuel _ _ left
    obtain ⟨fuel, rfl⟩ := Derivation.exists_fuel hfuel
    exact readUnary_of_truth name rest
  | gate onward name version inside ih =>
    intro fuel rest hfuel _ hlexed
    simp only [Derivation.tokens, List.length_cons, List.length_append, List.length_nil,
      Symbol.calls] at hfuel
    obtain ⟨fuel, rfl⟩ := Nat.exists_eq_add_of_le' (show 2 ≤ fuel by omega)
    simp only [Derivation.tokens, List.cons_append, List.append_assoc, List.nil_append] at hlexed
    exact .gate name version
      (ih (by simp only [Symbol.calls]; omega) (.rightParen _ _) hlexed.tail.tail.tail)
  | presence present name key =>
    intro fuel rest hfuel _ _
    simp only [Derivation.tokens, List.length_cons, List.length_nil, Symbol.calls] at hfuel
    obtain ⟨fuel, rfl⟩ := Nat.exists_eq_add_of_le' (show 2 ≤ fuel by omega)
    exact .presence name key
  | comparison key negated literal =>
    intro fuel rest hfuel _ hlexed left
    obtain ⟨fuel, rfl⟩ := Derivation.exists_fuel hfuel
    exact readComparison_of_tokens key negated literal hlexed.tail.tail.tail
  | noArgument =>
    intro fuel rest hfuel hends _ left
    obtain ⟨fuel, rfl⟩ := Derivation.exists_fuel hfuel
    exact readInner_of_end (hends.head?_ne (by decide))
  | argument inner ih =>
    intro fuel rest hfuel hends hlexed left
    obtain ⟨fuel, rfl⟩ := Derivation.exists_fuel hfuel
    simp only [Derivation.tokens, List.length_cons, Symbol.calls] at hfuel
    exact ih (by simp only [Symbol.calls]; omega) hends.or hlexed.tail left

/-! What is read has a derivation -/

theorem comparison_of_readComparison {ts rest : List Token} {p : Predicate} (hlexed : Lexed ts)
    (h : readComparison ts = .ok (p, rest)) :
    ∃ d : Derivation .unary, .at :: ts = d.tokens ++ rest ∧ d.tree = p := by
  obtain ⟨⟨key, us⟩, hkey, h⟩ := ok_of_bind h
  obtain ⟨⟨negated, vs⟩, hequality, h⟩ := ok_of_bind h
  obtain ⟨⟨value, ws⟩, hliteral, h⟩ := ok_of_bind h
  cases h
  obtain ⟨t, rfl, hbare⟩ := bare_of_readKey hkey
  obtain rfl := mark_of_readEquality hequality
  obtain ⟨literal, rfl, rfl⟩ := token_of_readLiteral hlexed.tail.tail hliteral
  exact ⟨.comparison ⟨t, key, hbare⟩ negated literal, rfl, rfl⟩

theorem keyword_of_function? {name : String} {f : Function} (h : function? name = some f) :
    ∃ n : Name, n.function? = some f ∧ Literal.equalsIgnoringCase name n.text = true := by
  have hsame {lower : String} (n : Name) (hlower : n.text.toList.map Char.toLower = lower.toList)
      (hname : String.ofList (name.toList.map Char.toLower) = lower) :
      Literal.equalsIgnoringCase name n.text = true := by
    rw [Literal.equalsIgnoringCase, beq_iff_eq, hlower, ← hname, String.toList_ofList]
  unfold function? at h
  split at h
  · next heq => cases h; exact ⟨.gate true, rfl, hsame _ (by decide) heq⟩
  · next heq => cases h; exact ⟨.gate false, rfl, hsame _ (by decide) heq⟩
  · next heq => cases h; exact ⟨.presence true, rfl, hsame _ (by decide) heq⟩
  · next heq => cases h; exact ⟨.presence false, rfl, hsame _ (by decide) heq⟩
  · cases h

/-- With this fuel no reader takes tokens without a derivation. -/
structure SoundAt (fuel : Nat) : Prop where
  symbol (s : Symbol) (left : Predicate) {ts rest : List Token} {p : Predicate} : Lexed ts →
    s.read fuel left ts = .ok (p, rest) →
    ∃ d : Derivation s, ts = d.tokens ++ rest ∧ d.treeAfter left = p
  call {name : String} {ts rest : List Token} {p : Predicate} : Lexed ts →
    readCall fuel name ts = .ok (p, .rightParen :: rest) →
    ∃ d : Derivation .unary, .word name :: .leftParen :: ts = d.tokens ++ rest ∧ d.tree = p

variable {fuel : Nat} {ts rest : List Token} {p left : Predicate}

theorem SoundAt.or (ih : SoundAt fuel) (hlexed : Lexed ts) (h : readOr fuel ts = .ok (p, rest)) :
    ∃ d : Derivation .or, ts = d.tokens ++ rest ∧ d.tree = p :=
  ih.symbol .or p hlexed h

theorem SoundAt.unary (ih : SoundAt fuel) (hlexed : Lexed ts)
    (h : readUnary fuel ts = .ok (p, rest)) :
    ∃ d : Derivation .unary, ts = d.tokens ++ rest ∧ d.tree = p :=
  ih.symbol .unary p hlexed h

theorem SoundAt.inner (ih : SoundAt fuel) (hlexed : Lexed ts)
    (h : readInner fuel ts = .ok (p, rest)) :
    ∃ d : Derivation .argument, ts = d.tokens ++ rest ∧ d.tree = p :=
  ih.symbol .argument p hlexed h

theorem SoundAt.joined (ih : SoundAt fuel) (o : Operator) (hlexed : Lexed ts)
    (h : o.joined.read (fuel + 1) left ts = .ok (p, rest)) :
    ∃ d : Derivation o.joined, ts = d.tokens ++ rest ∧ d.treeAfter left = p := by
  rw [o.read_joined] at h
  obtain ⟨⟨value, us⟩, hfirst, hmore⟩ := ok_of_bind h
  obtain ⟨first, rfl, rfl⟩ := ih.symbol o.operand left hlexed hfirst
  obtain ⟨more, rfl, rfl⟩ := ih.symbol o.more (first.treeAfter left) hlexed.append_right hmore
  refine ⟨o.chain first more, ?_, o.treeAfter_chain first more⟩
  rw [o.tokens_chain, List.append_assoc]

theorem SoundAt.more (ih : SoundAt fuel) (o : Operator) (hlexed : Lexed ts)
    (h : o.more.read (fuel + 1) left ts = .ok (p, rest)) :
    ∃ d : Derivation o.more, ts = d.tokens ++ rest ∧ d.treeAfter left = p := by
  by_cases hhead : ts.head? = some o.mark
  · obtain ⟨us, rfl⟩ := List.head?_eq_some_iff.1 hhead
    rw [o.read_mark] at h
    obtain ⟨⟨right, vs⟩, hnext, hmore⟩ := ok_of_bind h
    obtain ⟨next, rfl, rfl⟩ := ih.symbol o.operand left hlexed.tail hnext
    obtain ⟨more, rfl, rfl⟩ := ih.symbol o.more (o.join left (next.treeAfter left))
      hlexed.tail.append_right hmore
    refine ⟨o.next next more, ?_, o.treeAfter_next next more⟩
    rw [o.tokens_next, List.cons_append, List.append_assoc]
  · rw [o.read_of_end hhead] at h
    cases h
    exact ⟨o.stop, by rw [o.tokens_stop, List.nil_append], o.treeAfter_stop⟩

theorem SoundAt.readUnary (ih : SoundAt fuel) (hlexed : Lexed ts)
    (h : readUnary (fuel + 1) ts = .ok (p, rest)) :
    ∃ d : Derivation .unary, ts = d.tokens ++ rest ∧ d.tree = p := by
  cases ts with
  | nil => cases h
  | cons t us =>
    cases t
    case bang =>
      obtain ⟨⟨inner, vs⟩, hinner, h⟩ := ok_of_bind h
      cases h
      obtain ⟨d, rfl, rfl⟩ := ih.unary hlexed.tail hinner
      exact ⟨.not d, rfl, rfl⟩
    case leftParen =>
      obtain ⟨⟨inner, vs⟩, hinner, h⟩ := ok_of_bind h
      obtain ⟨⟨_, ws⟩, hclose, h⟩ := ok_of_bind h
      cases h
      obtain ⟨d, rfl, rfl⟩ := ih.or hlexed.tail hinner
      obtain rfl := eq_cons_of_expect hclose
      exact ⟨.group d, by simp [Derivation.tokens], rfl⟩
    case «at» => exact comparison_of_readComparison hlexed.tail h
    case word s =>
      unfold Predicate.readUnary at h
      dsimp only at h
      rw [equalsIgnoringCase_true, equalsIgnoringCase_false] at h
      split at h
      · next htrue => cases h; exact ⟨.const true ⟨s, htrue⟩, rfl, rfl⟩
      · split at h
        · next hfalse => cases h; exact ⟨.const false ⟨s, hfalse⟩, rfl, rfl⟩
        · split at h
          · obtain ⟨⟨inner, vs⟩, hcall, h⟩ := ok_of_bind h
            obtain ⟨⟨_, ws⟩, hclose, h⟩ := ok_of_bind h
            cases h
            obtain rfl := eq_cons_of_expect hclose
            exact ih.call hlexed.tail.tail hcall
          · cases h
    all_goals cases h

theorem SoundAt.readInner (ih : SoundAt fuel) (hlexed : Lexed ts)
    (h : readInner (fuel + 1) ts = .ok (p, rest)) :
    ∃ d : Derivation .argument, ts = d.tokens ++ rest ∧ d.tree = p := by
  by_cases hhead : ts.head? = some .comma
  · obtain ⟨us, rfl⟩ := List.head?_eq_some_iff.1 hhead
    obtain ⟨d, rfl, rfl⟩ := ih.or hlexed.tail h
    exact ⟨.argument d, rfl, rfl⟩
  · rw [readInner_of_end hhead] at h
    cases h
    exact ⟨.noArgument, rfl, rfl⟩

theorem SoundAt.readCall (ih : SoundAt fuel) {name : String} (hlexed : Lexed ts)
    (h : readCall (fuel + 1) name ts = .ok (p, .rightParen :: rest)) :
    ∃ d : Derivation .unary, .word name :: .leftParen :: ts = d.tokens ++ rest ∧ d.tree = p := by
  rw [Predicate.readCall] at h
  cases hf : function? name with
  | none =>
    rw [hf] at h
    cases h
  | some f =>
    rw [hf] at h
    obtain ⟨n, hn, hsame⟩ := keyword_of_function? hf
    rcases n with b | onward | present
    · cases hn
    · have hgate : ∃ v vs, readVersion ts = .ok (v, vs) ∧ ∃ inner,
          Predicate.readInner fuel vs = .ok (inner, .rightParen :: rest) ∧
            p = if onward then .since v inner else .before v inner := by
        cases onward <;> cases hn <;>
        · obtain ⟨⟨v, vs⟩, hversion, h⟩ := ok_of_bind h
          obtain ⟨⟨inner, ws⟩, hinner, h⟩ := ok_of_bind h
          cases h
          exact ⟨v, vs, hversion, inner, hinner, rfl⟩
      obtain ⟨v, vs, hversion, inner, hinner, rfl⟩ := hgate
      obtain ⟨number, rfl, hparse⟩ := number_of_readVersion hversion
      obtain ⟨d, rfl, rfl⟩ := ih.inner hlexed.tail hinner
      exact ⟨.gate onward ⟨name, hsame⟩ ⟨number, v, hparse⟩ d, by simp [Derivation.tokens], rfl⟩
    · have hpresence : ∃ key, readKey ts = .ok (key, .rightParen :: rest) ∧
          p = if present then .isPresent key else .notPresent key := by
        cases present <;> cases hn <;>
        · obtain ⟨⟨key, vs⟩, hkey, h⟩ := ok_of_bind h
          cases h
          exact ⟨key, hkey, rfl⟩
      obtain ⟨key, hkey, rfl⟩ := hpresence
      obtain ⟨t, rfl, hbare⟩ := bare_of_readKey hkey
      exact ⟨.presence present ⟨name, hsame⟩ ⟨t, key, hbare⟩, rfl, rfl⟩

theorem soundAt (fuel : Nat) : SoundAt fuel := by
  induction fuel with
  | zero =>
    refine ⟨fun s left ts rest p _ h => ?_, fun _ h => ?_⟩
    · cases s <;> cases h
    · cases h
  | succ fuel ih =>
    refine ⟨fun s left ts rest p hlexed h => ?_, ih.readCall⟩
    cases s with
    | or => exact ih.joined .or hlexed h
    | orMore => exact ih.more .or hlexed h
    | and => exact ih.joined .and hlexed h
    | andMore => exact ih.more .and hlexed h
    | unary => exact ih.readUnary hlexed h
    | argument => exact ih.readInner hlexed h

/-- The tokens of a column are a condition exactly if they are none, which is false, or those of a
derivation, and then its tree. -/
theorem ofTokens_eq_ok_iff {ts : List Token} (hlexed : Lexed ts) {p : Predicate} :
    ofTokens ts = .ok p ↔
      ts = [] ∧ p = .const false ∨ ∃ d : Derivation .or, d.tokens = ts ∧ d.tree = p := by
  have hread : (readOr (4 * ts.length + 4) ts >>= finish) = .ok p ↔
      ∃ d : Derivation .or, d.tokens = ts ∧ d.tree = p := by
    constructor
    · intro h
      obtain ⟨taken, hread, hfinish⟩ := ok_of_bind h
      obtain rfl := eq_of_finish hfinish
      obtain ⟨d, hts, rfl⟩ := (soundAt _).or hlexed hread
      exact ⟨d, by simpa using hts.symm, rfl⟩
    · rintro ⟨d, rfl, rfl⟩
      have hfuel : 4 * d.tokens.length + Symbol.or.calls ≤ 4 * d.tokens.length + 4 + 4 := by
        simp only [Symbol.calls]; omega
      have hd : readOr (4 * d.tokens.length + 4) (d.tokens ++ []) = .ok (d.tree, []) :=
        readable d hfuel (.nil _) (by simpa using hlexed) d.tree
      rw [List.append_nil] at hd
      rw [hd]
      rfl
  cases ts with
  | nil =>
    have hnone (d : Derivation .or) : d.tokens ≠ [] :=
      List.ne_nil_of_length_pos d.least_le
    simp only [ofTokens, Except.ok.injEq, true_and]
    constructor
    · exact fun h => .inl h.symm
    · rintro (h | ⟨d, hd, _⟩)
      · exact h.symm
      · exact absurd hd (hnone d)
  | cons t ts => simpa [ofTokens] using hread

end Predicate

/-- A text that has tokens is a condition exactly if it has none of them, and then it is false, or
if they have a derivation, and then it is the tree that this prescribes. There is one at most. -/
theorem Predicate.parse_eq_ok_iff {s : String} {ts : List Token} (h : tokens s.toList = .ok ts) :
    (∀ p, parse s = .ok p ↔
      ts = [] ∧ p = .const false ∨ ∃ d : Derivation .or, d.tokens = ts ∧ d.tree = p) ∧
    ∀ d e : Derivation .or, d.tokens = ts → e.tokens = ts → d = e := by
  constructor
  · intro p
    rw [← ofTokens_eq_ok_iff (lexed_of_tokens h), parse, ofText, h]
    change (ofTokens ts).mapError _ = _ ↔ _
    constructor
    · exact ok_of_mapError
    · intro hok
      rw [hok]
      rfl
  · rintro d e rfl htokens
    have hsame : d.tokens ++ [] = e.tokens ++ [] := by rw [htokens]
    exact (d.unique e (.nil _) (.nil _) hsame).1

/-! A condition with both operators, in which the one that binds tighter comes first. -/
namespace Mixture

open Predicate

def text : String := "fn:sinceVERSION(1.5,@Type!=3D)&&!True||(@N==-2)"

def tokens : List Token :=
  [.word "fn:sinceVERSION", .leftParen, .number "1.5", .comma, .at, .word "Type", .notEqual,
    .word "3D", .rightParen, .andAnd, .bang, .word "True", .orOr, .leftParen, .at, .word "N",
    .equal, .number "-2", .rightParen]

theorem tokens_text : Expression.tokens text.toList = .ok tokens := by decide +kernel

theorem parse_version : Version.parse "1.5" = .ok ⟨1, 5⟩ := by decide +kernel

def typed : Derivation .unary :=
  .comparison ⟨.word "Type", "Type", rfl⟩ true ⟨.word "3D", .ofWord "3D", rfl⟩

def counted : Derivation .unary :=
  .comparison ⟨.word "N", "N", rfl⟩ false ⟨.number "-2", .ofWord "-2", rfl⟩

def derivation : Derivation .or :=
  .or
    (.and
      (.gate true ⟨"fn:sinceVERSION", by decide⟩ ⟨"1.5", ⟨1, 5⟩, parse_version⟩
        (.argument typed.whole))
      (.andNext (.not (.const true ⟨"True", by decide⟩)) .andEnd))
    (.orNext (.and (.group counted.whole) .andEnd) .orEnd)

def tree : Predicate :=
  .or
    (.and (.since ⟨1, 5⟩ (.keyEquals "Type" (.text "3D") true)) (.not (.const true)))
    (.keyEquals "N" (.integer (-2)) false)

end Mixture

theorem Predicate.parse_eq_ok_iff_mixture :
    tokens Mixture.text.toList = .ok Mixture.tokens ∧ parse Mixture.text = .ok Mixture.tree ∧
      ∀ e : Derivation .or, e.tokens = Mixture.tokens → e = Mixture.derivation := by
  obtain ⟨hparse, hunique⟩ := parse_eq_ok_iff Mixture.tokens_text
  have htree : Mixture.derivation.tree = Mixture.tree := by decide +kernel
  refine ⟨Mixture.tokens_text, ?_, fun e he => hunique e Mixture.derivation he rfl⟩
  exact (hparse Mixture.tree).2 (.inr ⟨Mixture.derivation, rfl, htree⟩)

end PdfConform
