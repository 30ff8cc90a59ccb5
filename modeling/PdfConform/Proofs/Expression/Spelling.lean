import PdfConform.Proofs.Expression.Writing

/-! What tokens keep of a text. Their spellings are all of it but the blanks outside quotes, and
with blanks between them the spellings are scanned as the same tokens again, although what followed
a token in the text helped to decide where it ends. -/
namespace PdfConform

namespace Expression

/-- The text without the blanks outside quotes; every quotation mark opens or closes. -/
def unspaced (quoted : Bool) : List Char → List Char
  | [] => []
  | c :: cs =>
    if c = '\'' then c :: unspaced (!quoted) cs
    else if !quoted && Text.isBlank c then unspaced quoted cs
    else c :: unspaced quoted cs

/-- No character is a blank or opens a quoted text. -/
def Solid (cs : List Char) : Prop := ∀ c ∈ cs, c ≠ '\'' ∧ Text.isBlank c = false

instance (cs : List Char) : Decidable (Solid cs) :=
  List.decidableBAll (fun c => c ≠ '\'' ∧ Text.isBlank c = false) cs

theorem unspaced_blank {c : Char} (h : Text.isBlank c = true) (cs : List Char) :
    unspaced false (c :: cs) = unspaced false cs := by
  have hquote : c ≠ '\'' := by
    rintro rfl
    cases h
  rw [unspaced, if_neg hquote, h]
  rfl

theorem Solid.unspaced_append {cs : List Char} (h : Solid cs) (rest : List Char) :
    unspaced false (cs ++ rest) = cs ++ unspaced false rest := by
  induction cs with
  | nil => rfl
  | cons c cs ih =>
    obtain ⟨hquote, hblank⟩ := h c List.mem_cons_self
    rw [List.cons_append, unspaced, if_neg hquote, hblank, ih fun d hd => h d (.tail c hd)]
    rfl

theorem unspaced_inside {inner : List Char} (h : '\'' ∉ inner) (rest : List Char) :
    unspaced true (inner ++ '\'' :: rest) = inner ++ '\'' :: unspaced false rest := by
  induction inner with
  | nil => rfl
  | cons c inner ih =>
    obtain ⟨hc, hinner⟩ := List.ne_and_not_mem_of_not_mem_cons h
    rw [List.cons_append, unspaced, if_neg (Ne.symm hc), ih hinner]
    rfl

/-- Nothing follows, or a blank does. -/
def Apart (rest : List Char) : Prop := ∀ c ∈ rest.head?, Text.isBlank c = true

theorem apart_nil : Apart [] := nofun

theorem apart_space (rest : List Char) : Apart (' ' :: rest) := by
  intro c hc
  cases hc
  rfl

theorem Apart.delimited {rest : List Char} (h : Apart rest) : Delimited rest := by
  intro c hc
  rw [← Bool.not_eq_true]
  intro hword
  cases (h c hc).symm.trans (isBlank_of_isWordChar hword)

theorem Apart.ne_equal {rest : List Char} (h : Apart rest) (tail : List Char) :
    rest ≠ '=' :: tail := by
  rintro rfl
  cases h '=' rfl

/-- Wherever it stands apart the spelling gives the token, and nothing of it is left out. -/
structure Settled (t : Token) : Prop where
  gives : ∀ {rest}, Apart rest → Gives t.spelling [t] rest
  kept : ∀ rest, unspaced false (t.spelling ++ rest) = t.spelling ++ unspaced false rest

theorem Rescans.settled {c : Char} {cs after text : List Char} {t : Token}
    (h : Rescans c cs after t text) : Settled t := by
  have hspelling : t.spelling = c :: text := by
    rw [Token.spelling_of_bare h.bare, String.toList_ofList]
  constructor
  · intro rest hrest
    rw [hspelling]
    exact h.tokens_append (hrest.delimited.stops _)
  · intro rest
    rw [hspelling]
    refine Solid.unspaced_append (fun d hd => ⟨?_, isBlank_of_isWordChar (h.word d hd)⟩) rest
    rintro rfl
    cases h.word _ hd

theorem settled_quoted {s : String} (h : '\'' ∉ s.toList) : Settled (.quoted s) := by
  constructor
  · intro rest _
    have hspan : (s.toList ++ '\'' :: rest).span (· != '\'') = (s.toList, '\'' :: rest) := by
      refine span_append (fun c hc => ?_) (by simp)
      simpa using ne_of_mem_of_not_mem hc h
    refine gives_token rfl ?_
    rw [List.append_assoc, List.singleton_append]
    change scanQuoted (s.toList ++ '\'' :: rest) = _
    rw [scanQuoted, hspan]
    exact congrArg (fun u => Except.ok (Token.quoted u, rest)) String.ofList_toList
  · intro rest
    rw [Token.spelling, List.cons_append, List.append_assoc, List.singleton_append, unspaced,
      if_pos rfl, Bool.not_false, unspaced_inside h]
    simp

theorem settled_mark {t : Token} (hbare : t.bare? = none) (hquoted : ∀ s, t ≠ .quoted s) :
    Settled t := by
  have hmark {c : Char} {tail : List Char} (hspelling : t.spelling = c :: tail)
      (hsolid : Solid (c :: tail))
      (hscan : ∀ {rest}, Apart rest → scan c (tail ++ rest) = .ok (t, rest)) : Settled t := by
    rw [← hspelling] at hsolid
    refine ⟨fun hrest => ?_, hsolid.unspaced_append⟩
    rw [hspelling] at hsolid ⊢
    exact gives_token (hsolid c List.mem_cons_self).2 (hscan hrest)
  cases t with
  | number s => cases hbare
  | word s => cases hbare
  | quoted s => exact absurd rfl (hquoted s)
  -- These three are read on if an equality sign follows.
  | bang | less | greater =>
    refine hmark rfl (by decide) fun hrest => ?_
    rw [List.nil_append, scan]
    exact hrest.ne_equal
  | _ => exact hmark rfl (by decide) fun _ => rfl

theorem quote_not_mem_of_scan {c : Char} {cs after : List Char} {s : String}
    (h : scan c cs = .ok (.quoted s, after)) : '\'' ∉ s.toList := by
  obtain ⟨rfl, _⟩ := List.cons.inj (spelling_append_of_scan h)
  change scanQuoted cs = _ at h
  rw [scanQuoted, List.span_eq_takeWhile_dropWhile] at h
  split at h
  · next heq =>
    cases h
    rw [String.toList_ofList, ← (Prod.mk.inj heq).1]
    exact fun hmem => absurd (List.mem_takeWhile_imp hmem) (by decide)
  · cases h

theorem settled_of_scan {c : Char} {cs after : List Char} {t : Token}
    (h : scan c cs = .ok (t, after)) : Settled t := by
  rcases rescans_of_scan h with ⟨text, hagain⟩ | ⟨hbare, _⟩
  · exact hagain.settled
  · by_cases hquoted : ∃ s, t = .quoted s
    · obtain ⟨s, rfl⟩ := hquoted
      exact settled_quoted (quote_not_mem_of_scan h)
    · exact settled_mark hbare (not_exists.1 hquoted)

theorem settled_of_tokens {cs : List Char} {ts : List Token} (h : tokens cs = .ok ts) :
    ∀ t ∈ ts, Settled t := by
  refine tokens_induct (motive := fun _ ts => ∀ t ∈ ts, Settled t) nofun (fun _ ih => ih) ?_ h
  intro c cs t after ts _ hscan ih
  exact List.forall_mem_cons.2 ⟨settled_of_scan hscan, ih⟩

theorem spellings_eq_unspaced {cs : List Char} {ts : List Token} (h : tokens cs = .ok ts) :
    ts.flatMap Token.spelling = unspaced false cs := by
  refine tokens_induct (motive := fun cs ts => ts.flatMap Token.spelling = unspaced false cs)
    rfl (fun hblank ih => ?_) (fun _ hscan ih => ?_) h
  · rw [unspaced_blank hblank, ih]
  · rw [← spelling_append_of_scan hscan, (settled_of_scan hscan).kept, List.flatMap_cons, ih]

theorem gives_spellings {ts : List Token} (h : ∀ t ∈ ts, Settled t) :
    Gives ([' '].intercalate (ts.map Token.spelling)) ts [] := by
  induction ts with
  | nil => rfl
  | cons t ts ih =>
    obtain ⟨ht, hts⟩ := List.forall_mem_cons.1 h
    cases ts with
    | nil =>
      rw [List.map_singleton, List.intercalate_singleton]
      exact ht.gives apart_nil
    | cons u us =>
      rw [List.map_cons, List.map_cons, List.intercalate_cons_cons, List.append_assoc]
      exact (ht.gives (apart_space _)).append ((gives_space _).append (ih hts))

/-- The spellings of the tokens are the text without the blanks outside quotes, and with a space
between any two they have the same tokens. -/
theorem tokens_lossless {cs : List Char} {ts : List Token} (h : tokens cs = .ok ts) :
    ts.flatMap Token.spelling = unspaced false cs ∧
      tokens ([' '].intercalate (ts.map Token.spelling)) = .ok ts :=
  ⟨spellings_eq_unspaced h, (gives_spellings (settled_of_tokens h)).tokens_eq⟩

/-! Marks, words and numbers without blanks between them, and a quoted text with blanks. -/
namespace Crowd

def text : String := "[1..3, 3D,-.5..+1.5..a...b 1.5.5!=!<= <\t' a  b'!]"

def tokens : List Token :=
  [.leftBracket, .number "1", .dots, .number "3", .comma, .word "3D", .comma, .word "-.5", .dots,
    .number "+1.5", .dots, .word "a", .dots, .word ".b", .word "1.5.5", .notEqual, .bang,
    .lessEqual, .less, .quoted " a  b", .bang, .rightBracket]

def spaced : String :=
  "[ 1 .. 3 , 3D , -.5 .. +1.5 .. a .. .b 1.5.5 != ! <= < ' a  b' ! ]"

theorem tokens_text : Expression.tokens text.toList = .ok tokens := by decide +kernel

end Crowd

theorem tokens_lossless_crowd :
    Expression.tokens Crowd.text.toList = .ok Crowd.tokens ∧
      unspaced false Crowd.text.toList =
        "[1..3,3D,-.5..+1.5..a...b1.5.5!=!<=<' a  b'!]".toList ∧
      Expression.tokens Crowd.spaced.toList = .ok Crowd.tokens := by
  obtain ⟨hspelled, hspaced⟩ := tokens_lossless Crowd.tokens_text
  have hjoined : [' '].intercalate (Crowd.tokens.map Token.spelling) = Crowd.spaced.toList := by
    decide +kernel
  refine ⟨Crowd.tokens_text, ?_, hjoined ▸ hspaced⟩
  rw [← hspelled]
  decide +kernel

end Expression

end PdfConform
