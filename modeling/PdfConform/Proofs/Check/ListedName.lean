import PdfConform.Proofs.Check.Conformance
import PdfConform.Proofs.Expression.Items

/-! Names in lists of possible values. A word without quotes is read for what it looks like, not
for the type beside it, so a list of names allows those of its words that look like nothing else. -/
namespace PdfConform

namespace Literal

/-- The word looks neither like a truth value nor like a number. -/
structure LooksPlain (word : String) : Prop where
  notTrue : equalsIgnoringCase word "true" = false
  notFalse : equalsIgnoringCase word "false" = false
  notInteger : Number.readInt64 word.toList = none
  notReal : Number.readReal word.toList = none

theorem ofWord_eq_text_iff {word : String} : ofWord word = .text word ↔ LooksPlain word := by
  unfold ofWord
  constructor
  · intro h
    split at h
    · cases h
    · next htrue =>
      split at h
      · cases h
      · next hfalse =>
        split at h
        · cases h
        · next hinteger =>
          split at h
          · cases h
          · next hreal => exact ⟨by simpa using htrue, by simpa using hfalse, hinteger, hreal⟩
  · rintro ⟨htrue, hfalse, hinteger, hreal⟩
    simp [htrue, hfalse, hinteger, hreal]

theorem agrees_text_iff {literal : Literal} {s : String} :
    literal.agrees (.text s) = true ↔ literal = .text s := by
  cases literal <;> simp [agrees, toReal?]

end Literal

namespace Row

theorem eq_of_modifyHead {c : Char} {found : List (List Char)} {segment : List Char}
    (h : found.modifyHead (c :: ·) = [segment]) :
    ∃ rest, found = [rest] ∧ segment = c :: rest := by
  cases found with
  | nil => cases h
  | cons rest others => cases h; exact ⟨rest, rfl, rfl⟩

/-- A column in one segment is that segment. -/
theorem eq_of_segments {depth : Int} {quoted : Bool} {cs segment : List Char}
    (h : segments depth quoted cs = [segment]) : segment = cs := by
  fun_induction segments depth quoted cs generalizing segment with
  | case1 => cases h; rfl
  | case2 depth quoted c rest _ ih =>
    exact absurd (List.cons.inj h).2 (segments_ne_nil depth quoted rest)
  | case3 depth quoted rest _ ih =>
    obtain ⟨inner, hinner, rfl⟩ := eq_of_modifyHead h
    rw [ih hinner]
  | case4 depth quoted c rest _ _ ih =>
    obtain ⟨inner, hinner, rfl⟩ := eq_of_modifyHead h
    rw [ih hinner]

theorem eq_of_splitAligned {name field : String} {found : List String}
    (h : splitAligned name 1 field = .ok found) : found = [field] := by
  unfold splitAligned at h
  split at h
  · next hempty =>
    cases h
    rw [String.isEmpty_iff.1 hempty]
    rfl
  · dsimp only at h
    split at h
    · next hone =>
      cases h
      obtain ⟨segment, hsegment⟩ := List.length_eq_one_iff.1 hone
      rw [hsegment, eq_of_segments hsegment]
      simp
    · cases h

/-- The list for the only type of a row is its whole column. -/
theorem ReadFrom.possible_of_one {row : Row} {fields : List String} {type : TypeToken}
    (h : row.ReadFrom fields) (htypes : row.types = [type]) :
    ∃ possible, row.possible = [possible] ∧
      PossibleValues.parse (column fields 8) = .ok possible := by
  obtain ⟨found, hfound, hpossible⟩ := h.possible
  rw [htypes] at hfound
  rw [eq_of_splitAligned hfound, List.mapM_cons, List.mapM_nil] at hpossible
  obtain ⟨possible, hparse, hrest⟩ := ok_of_bind hpossible
  exact ⟨possible, (Except.ok.inj hrest).symm, ok_of_mapError hparse⟩

/-- A word or number stands by itself in the column of possible values. -/
def Lists (fields : List String) (word : String) : Prop :=
  ∃ ts, Expression.tokens (column fields 8).toList = .ok ts ∧ Token.Listed ts word

theorem mem_of_lists {fields : List String} {word : String} {possible : PossibleValues}
    (hparse : PossibleValues.parse (column fields 8) = .ok possible) (hword : Lists fields word) :
    .literal (.ofWord word) ∈ possible.items := by
  obtain ⟨ts, htokens, hlisted⟩ := hword
  unfold PossibleValues.parse Expression.ofText at hparse
  rw [htokens] at hparse
  exact PossibleValues.mem_of_listed (ok_of_mapError hparse) hlisted

end Row

namespace Scope

variable {s : Scope} {row : Row}

/-- A name that an item of the list allows is not turned down for its value. -/
theorem not_violation_of_name {possible : PossibleValues} (htypes : row.types = [.known .name])
    (hvalue : row.requiredValue = none) (hpossible : row.possible = [possible]) {word : String}
    (hallows : possible.allows s.context (.text word) = true) {value : Option Object}
    {reference : Option ObjectId}
    (hpresent : value.bind s.store.present = some (.name word, reference)) {label : String}
    {f : Finding} (hf : f ∈ s.entryFindings row label value) :
    f.kind ≠ .possibleValueViolation := by
  have hindex : TypeToken.select? s.store (.name word) row.types = some 0 := by
    rw [htypes]; rfl
  have hlist : row.possibleFor? 0 = some possible := by
    rw [Row.possibleFor?, hpossible]; rfl
  have hmessage : s.valueMessage? row 0 (.text word) = none :=
    valueMessage?_eq_none (by rw [hvalue]; rfl) (by rw [hlist]; exact hallows)
  simp only [entryFindings, hpresent, hindex, typedFindings, Literal.ofObject?, Option.bind_some,
    hmessage, List.append_nil] at hf
  rcases List.mem_append.1 hf with hversion | hindirect
  · split at hversion
    · cases hversion
    · rw [List.mem_singleton.1 hversion]; simp [finding]
  · split at hindirect
    · rw [List.mem_singleton.1 hindirect]; simp [finding]
    · cases hindirect

end Scope

/-- A row for names only takes each of its listed words for what it looks like. The word's own item
allows the name exactly if the word looks plain, and then no such name is turned down. -/
theorem Row.listed_name {line : Nat} {fields : List String} {row : Row}
    (hrow : ofFields line fields = .ok row) (htypes : row.types = [.known .name])
    (hvalue : row.requiredValue = none) {word : String} (hword : Lists fields word) :
    ∃ possible, row.possible = [possible] ∧ .literal (.ofWord word) ∈ possible.items ∧
      (∀ c, (ValueItem.literal (.ofWord word)).allows c (.text word) = true ↔
        Literal.LooksPlain word) ∧
      (Literal.LooksPlain word →
        ∀ (s : Scope) (label : String) (value : Option Object) (reference : Option ObjectId),
          value.bind s.store.present = some (.name word, reference) →
          ∀ f ∈ s.entryFindings row label value, f.kind ≠ .possibleValueViolation) := by
  obtain ⟨possible, hpossible, hparse⟩ := (readFrom_of_ofFields hrow).possible_of_one htypes
  have hmem := mem_of_lists hparse hword
  have hitem (c : Context) : (ValueItem.literal (.ofWord word)).allows c (.text word) = true ↔
      Literal.LooksPlain word := Literal.agrees_text_iff.trans Literal.ofWord_eq_text_iff
  refine ⟨possible, hpossible, hmem, hitem, ?_⟩
  intro hplain s label value reference hpresent f hf
  have hallows : possible.allows s.context (.text word) = true := by
    rw [PossibleValues.allows, Bool.or_eq_true]
    exact .inr (List.any_eq_true.2 ⟨_, hmem, (hitem s.context).2 hplain⟩)
  exact Scope.not_violation_of_name htypes hvalue hpossible hallows hpresent hf

/-! A key for names, one of which looks like a number. -/
namespace Mixed

def fields : List String :=
  ["Version", "name", "1.4", "", "FALSE", "", "", "", "[Latest,1.4]", "", ""]

def row : Row where
  line := 3
  key := .name "Version"
  types := [.known .name]
  since := some ⟨1, 4⟩
  deprecated := none
  required := .const false
  indirect := .const false
  requiredValue := none
  defaultText := ""
  possible := [⟨[.literal (.text "Latest"), .literal (.ofWord "1.4")]⟩]
  special := none
  links := [[]]

theorem read_row : Row.ofFields 3 fields = .ok row := by decide +kernel

def tokens : List Token :=
  [.leftBracket, .word "Latest", .comma, .number "1.4", .rightBracket]

theorem tokens_eq : Expression.tokens (Row.column fields 8).toList = .ok tokens := by
  decide +kernel

theorem lists_latest : Row.Lists fields "Latest" :=
  ⟨tokens, tokens_eq, [.leftBracket], .word "Latest", [.comma, .number "1.4", .rightBracket],
    rfl, rfl, by constructor <;> simp⟩

theorem lists_number : Row.Lists fields "1.4" :=
  ⟨tokens, tokens_eq, [.leftBracket, .word "Latest", .comma], .number "1.4", [.rightBracket],
    rfl, rfl, by constructor <;> simp⟩

def scope (name : String) : Scope where
  store := .empty
  version := ⟨1, 7⟩
  table := ⟨"FileTrailer", "grammar/FileTrailer.tsv", Row.columns, [row], []⟩
  container := .dictionary [("Version", .name name)]
  path := "Trailer"

end Mixed

/-- The listed name that looks like nothing else is allowed. -/
theorem Row.listed_name_latest :
    Literal.LooksPlain "Latest" ∧
      ∀ f ∈ (Mixed.scope "Latest").entryFindings Mixed.row "Version" (some (.name "Latest")),
        f.kind ≠ .possibleValueViolation := by
  have hplain : Literal.LooksPlain "Latest" := Literal.ofWord_eq_text_iff.1 (by decide +kernel)
  obtain ⟨_, _, _, _, hallowed⟩ := listed_name Mixed.read_row rfl rfl Mixed.lists_latest
  exact ⟨hplain, hallowed hplain (Mixed.scope "Latest") "Version" (some (.name "Latest")) none rfl⟩

/-- The listed name that looks like a number is turned down. -/
theorem Row.listed_number_denied :
    ofFields 3 Mixed.fields = .ok Mixed.row ∧ Mixed.row.types = [.known .name] ∧
      Mixed.row.requiredValue = none ∧ Lists Mixed.fields "1.4" ∧
      ∃ f ∈ (Mixed.scope "1.4").entryFindings Mixed.row "Version" (some (.name "1.4")),
        f.kind = .possibleValueViolation := by
  refine ⟨Mixed.read_row, rfl, rfl, Mixed.lists_number, ?_⟩
  decide +kernel

end PdfConform
