import Mathlib.Data.List.Basic
import PdfConform.Schema.Row

/-! The segments of a column and the column that they make up. Brackets and quotes are counted over
the whole column, so a semicolon separates only where the text before it has closed both; segments
that close what they open can be told from how they are joined. -/
namespace PdfConform.Row

/-- How deep in brackets the next character stands, and whether in quotes. -/
structure Nesting where
  depth : Int
  quoted : Bool
  deriving DecidableEq

namespace Nesting

def outside : Nesting := ⟨0, false⟩

/-- A quotation mark opens or closes; brackets count outside quotes only. -/
def step (n : Nesting) (c : Char) : Nesting :=
  if c = '\'' then ⟨n.depth, !n.quoted⟩
  else if n.quoted then n
  else ⟨depthAfter n.depth c, false⟩

def through (n : Nesting) (cs : List Char) : Nesting := cs.foldl step n

/-- No semicolon of the text stands outside brackets and quotes. -/
def Unbroken (n : Nesting) (cs : List Char) : Prop :=
  ∀ before after, cs = before ++ ';' :: after → n.through before ≠ outside

theorem unbroken_nil (n : Nesting) : n.Unbroken [] := by
  intro before after h
  cases before <;> cases h

theorem unbroken_cons {n : Nesting} {c : Char} {cs : List Char} :
    n.Unbroken (c :: cs) ↔ ¬(c = ';' ∧ n = outside) ∧ (n.step c).Unbroken cs := by
  constructor
  · refine fun h => ⟨?_, fun before after heq => h (c :: before) after (by rw [heq]; rfl)⟩
    rintro ⟨rfl, rfl⟩
    exact h [] cs rfl rfl
  · rintro ⟨hfirst, hrest⟩ before after heq
    cases before with
    | nil =>
      cases heq
      exact fun hn => hfirst ⟨rfl, hn⟩
    | cons d before =>
      cases heq
      exact hrest before after rfl

instance decidableUnbroken (n : Nesting) : (cs : List Char) → Decidable (n.Unbroken cs)
  | [] => isTrue (unbroken_nil n)
  | c :: cs =>
    have := decidableUnbroken (n.step c) cs
    decidable_of_iff _ unbroken_cons.symm

/-- The segments of a text of which the first begins at this nesting. -/
def segments (n : Nesting) (cs : List Char) : List (List Char) := Row.segments n.depth n.quoted cs

theorem segments_split (cs : List Char) :
    outside.segments (';' :: cs) = [] :: outside.segments cs := rfl

theorem segments_step {n : Nesting} {c : Char} (h : ¬(c = ';' ∧ n = outside)) (cs : List Char) :
    n.segments (c :: cs) = ((n.step c).segments cs).modifyHead (c :: ·) := by
  obtain ⟨depth, quoted⟩ := n
  have hnot : (c = ';' && depth = 0 && !quoted) = false := by
    rw [← Bool.not_eq_true]
    intro hsplit
    simp only [Bool.and_eq_true, decide_eq_true_eq, Bool.not_eq_true'] at hsplit
    obtain ⟨⟨rfl, rfl⟩, rfl⟩ := hsplit
    exact h ⟨rfl, rfl⟩
  unfold segments step
  rw [Row.segments, hnot]
  by_cases hquote : c = '\''
  · simp [hquote]
  · cases quoted <;> simp [hquote]

theorem segments_of_unbroken {n : Nesting} {cs : List Char} (h : n.Unbroken cs) :
    n.segments cs = [cs] := by
  induction cs generalizing n with
  | nil => rfl
  | cons c cs ih =>
    obtain ⟨hfirst, hrest⟩ := unbroken_cons.1 h
    rw [segments_step hfirst, ih hrest]
    rfl

theorem segments_append {n : Nesting} {cs : List Char} (h : n.Unbroken cs)
    (hclosed : n.through cs = outside) (rest : List Char) :
    n.segments (cs ++ ';' :: rest) = cs :: outside.segments rest := by
  induction cs generalizing n with
  | nil =>
    obtain rfl : n = outside := hclosed
    exact segments_split rest
  | cons c cs ih =>
    obtain ⟨hfirst, hrest⟩ := unbroken_cons.1 h
    rw [List.cons_append, segments_step hfirst, ih hrest hclosed]
    rfl

/-- What is found from a nesting on: no semicolon is left in a segment where it separates, and the
last segment alone can leave something open. -/
theorem of_segments_eq {n : Nesting} {cs first : List Char} {more : List (List Char)}
    (h : n.segments cs = first :: more) :
    [';'].intercalate (first :: more) = cs ∧ n.Unbroken first ∧ (∀ s ∈ more, outside.Unbroken s) ∧
      (n.through cs = outside →
        n.through first = outside ∧ ∀ s ∈ more, outside.through s = outside) := by
  induction cs generalizing n first more with
  | nil =>
    cases h
    exact ⟨rfl, unbroken_nil n, nofun, fun hclosed => ⟨hclosed, nofun⟩⟩
  | cons c cs ih =>
    obtain ⟨next, others, hmore⟩ : ∃ next others, (n.step c).segments cs = next :: others :=
      List.exists_cons_of_ne_nil (segments_ne_nil _ _ _)
    obtain ⟨hjoin, hnext, hothers, hclosed⟩ := ih hmore
    by_cases hsplit : c = ';' ∧ n = outside
    · obtain ⟨rfl, rfl⟩ := hsplit
      rw [segments_split] at h
      obtain ⟨rfl, rfl⟩ := List.cons.inj h
      change outside.segments cs = _ at hmore
      rw [hmore]
      refine ⟨?_, unbroken_nil _, List.forall_mem_cons.2 ⟨hnext, hothers⟩, fun hcs => ?_⟩
      · rw [List.intercalate_cons_cons, hjoin]
        rfl
      · exact ⟨rfl, List.forall_mem_cons.2 (hclosed hcs)⟩
    · rw [segments_step hsplit, hmore] at h
      obtain ⟨rfl, rfl⟩ := List.cons.inj h
      refine ⟨?_, unbroken_cons.2 ⟨hsplit, hnext⟩, hothers, hclosed⟩
      rw [← hjoin]
      cases others <;> simp

end Nesting

open Nesting

/-- A text that can stand between two semicolons: it closes what it opens, and no semicolon in it
separates. -/
structure IsSegment (cs : List Char) : Prop where
  closed : outside.through cs = outside
  unbroken : outside.Unbroken cs

instance (cs : List Char) : Decidable (IsSegment cs) :=
  decidable_of_iff (outside.through cs = outside ∧ outside.Unbroken cs)
    ⟨fun h => ⟨h.1, h.2⟩, fun h => ⟨h.closed, h.unbroken⟩⟩

theorem segments_join {found : List (List Char)} (hne : found ≠ [])
    (h : ∀ s ∈ found, IsSegment s) : outside.segments ([';'].intercalate found) = found := by
  induction found with
  | nil => exact absurd rfl hne
  | cons s found ih =>
    obtain ⟨hs, hfound⟩ := List.forall_mem_cons.1 h
    cases found with
    | nil =>
      rw [List.intercalate_singleton]
      exact segments_of_unbroken hs.unbroken
    | cons next found =>
      rw [List.intercalate_cons_cons, List.append_assoc, List.singleton_append,
        segments_append hs.unbroken hs.closed, ih (List.cons_ne_nil _ _) hfound]

theorem splitAligned_eq_ok_iff {column field : String} {types : Nat} {found : List String}
    (h : field ≠ "") : splitAligned column types field = .ok found ↔
      outside.segments field.toList = found.map String.toList ∧ found.length = types := by
  have hback (pieces : List (List Char)) :
      (pieces.map String.ofList).map String.toList = pieces := by
    simp
  have hsplit : splitAligned column types field =
      if (outside.segments field.toList).length = types then
        .ok ((outside.segments field.toList).map String.ofList)
      else .error (.segments column (outside.segments field.toList).length types) := by
    rw [splitAligned, if_neg (by simpa using h)]
    rfl
  rw [hsplit]
  constructor
  · intro hok
    split at hok
    · next hlength =>
      cases hok
      exact ⟨(hback _).symm, by rw [List.length_map, hlength]⟩
    · cases hok
  · rintro ⟨hfound, rfl⟩
    rw [hfound, List.length_map, if_pos rfl]
    simp

theorem toList_join (found : List String) :
    (";".intercalate found).toList = [';'].intercalate (found.map String.toList) :=
  String.toList_intercalate

theorem segments_toList_join {found : List String} (hne : found ≠ [])
    (h : ∀ s ∈ found, IsSegment s.toList) :
    outside.segments (";".intercalate found).toList = found.map String.toList := by
  rw [toList_join]
  refine segments_join (by simpa using hne) fun cs hcs => ?_
  obtain ⟨s, hs, rfl⟩ := List.mem_map.1 hcs
  exact h s hs

theorem splitAligned_join (column : String) {found : List String} (hne : found ≠ [])
    (h : ∀ s ∈ found, IsSegment s.toList) :
    splitAligned column found.length (";".intercalate found) = .ok found := by
  have hsegments := segments_toList_join hne h
  by_cases hempty : ";".intercalate found = ""
  · -- An empty column is split by a rule of its own, which agrees where one segment is empty.
    rw [hempty] at hsegments
    obtain rfl : found = [""] := by
      refine (List.map_inj_right fun _ _ => String.toList_inj.1).1 (hsegments.symm.trans ?_)
      rfl
    rfl
  · exact (splitAligned_eq_ok_iff hempty).2 ⟨hsegments, rfl⟩

theorem join_of_splitAligned {column field : String} {types : Nat} {found : List String}
    (hne : field ≠ "") (h : splitAligned column types field = .ok found) :
    ";".intercalate found = field ∧ (outside.through field.toList = outside →
      ∀ s ∈ found, IsSegment s.toList) := by
  obtain ⟨hsegments, _⟩ := (splitAligned_eq_ok_iff hne).1 h
  obtain ⟨first, more, hmore⟩ : ∃ first more, outside.segments field.toList = first :: more :=
    List.exists_cons_of_ne_nil (segments_ne_nil _ _ _)
  obtain ⟨hjoin, hfirst, hunbroken, hclosed⟩ := of_segments_eq hmore
  rw [hsegments] at hmore
  refine ⟨String.toList_inj.1 ?_, fun houtside s hs => ?_⟩
  · rw [toList_join, hmore, hjoin]
  · have hmem : s.toList ∈ first :: more := hmore ▸ List.mem_map_of_mem hs
    obtain ⟨hfirst', hclosed'⟩ := hclosed houtside
    rcases List.mem_cons.1 hmem with heq | hmem
    · rw [heq]
      exact ⟨hfirst', hfirst⟩
    · exact ⟨hclosed' _ hmem, hunbroken _ hmem⟩

/-- Segments are found again in the column that they make up; a column that is accepted is made up
of the segments found in it, one for each type, and if it closes what it opens then so do they. -/
theorem splitAligned_inverts_join (column : String) :
    (∀ found : List String, found ≠ [] → (∀ s ∈ found, IsSegment s.toList) →
      splitAligned column found.length (";".intercalate found) = .ok found) ∧
    ∀ (field : String) (types : Nat) (found : List String), field ≠ "" →
      splitAligned column types field = .ok found →
      found.length = types ∧ ";".intercalate found = field ∧
        (outside.through field.toList = outside → ∀ s ∈ found, IsSegment s.toList) :=
  ⟨fun _ hne h => splitAligned_join column hne h,
    fun _ _ _ hne h => ⟨length_of_splitAligned h, join_of_splitAligned hne h⟩⟩

/-! Segments with semicolons in brackets and quotes, brackets in quotes, and an empty one at the
end; and a column that never closes its last bracket. -/
namespace Column

def found : List String := ["[fn:SinceVersion(1.5,a;b)]", "['x;y','](;',]", "';'", ""]

def field : String := "[fn:SinceVersion(1.5,a;b)];['x;y','](;',];';';"

def ragged : String := ")(;[A;'"

end Column

theorem splitAligned_inverts_join_column :
    (∀ s ∈ Column.found, IsSegment s.toList) ∧
      splitAligned "possible value" 4 Column.field = .ok Column.found ∧
      splitAligned "link" 2 Column.ragged = .ok [")(", "[A;'"] ∧
      ";".intercalate [")(", "[A;'"] = Column.ragged := by
  have hsegments : ∀ s ∈ Column.found, IsSegment s.toList := by decide +kernel
  have hragged : splitAligned "link" 2 Column.ragged = .ok [")(", "[A;'"] := by decide +kernel
  have hjoined : ";".intercalate Column.found = Column.field := by decide +kernel
  refine ⟨hsegments, ?_, hragged, ?_⟩
  · rw [← hjoined]
    exact (splitAligned_inverts_join _).1 Column.found (List.cons_ne_nil _ _) hsegments
  · exact ((splitAligned_inverts_join _).2 Column.ragged 2 _ (by decide) hragged).2.1

end PdfConform.Row
