import PdfConform.Proofs.Json.Lexeme

/-! What it is for a text to be a value written out: its strings and numerals as they are always
written, with blanks anywhere between the parts. Such a text reads as the value, and both forms
of writing are such texts. -/
namespace PdfConform

namespace Json

mutual

inductive Written : Json → List Char → Prop
  | null : Written .null ['n', 'u', 'l', 'l']
  | bool (b : Bool) : Written (.bool b) (writeBool b)
  | number {n : Numeral} : n.WellFormed → Written (.number n) (writeNumeral n)
  | string (s : String) : Written (.string (some s)) (writeString s)
  | emptyArray {blank : List Char} : Blank blank → Written (.array []) ('[' :: blank ++ [']'])
  | array {items : List Json} {cs : List Char} : WrittenItems items cs →
    Written (.array items) ('[' :: cs)
  | emptyObject {blank : List Char} : Blank blank →
    Written (.object []) ('\x7b' :: blank ++ ['\x7d'])
  | object {members : List (Option String × Json)} {cs : List Char} : WrittenMembers members cs →
    Written (.object members) ('\x7b' :: cs)

/-- The items of an array up to its closing bracket, of which there is at least one. -/
inductive WrittenItems : List Json → List Char → Prop
  | last {item : Json} {before cs after : List Char} : Blank before → Written item cs →
    Blank after → WrittenItems [item] (before ++ (cs ++ (after ++ [']'])))
  | more {item : Json} {items : List Json} {before cs after rest : List Char} : Blank before →
    Written item cs → Blank after → WrittenItems items rest →
    WrittenItems (item :: items) (before ++ (cs ++ (after ++ ',' :: rest)))

/-- The members of an object up to its closing brace, of which there is at least one. -/
inductive WrittenMembers : List (Option String × Json) → List Char → Prop
  | last {key : String} {value : Json} {before colon gap cs after : List Char} : Blank before →
    Blank colon → Blank gap → Written value cs → Blank after →
    WrittenMembers [(some key, value)]
      (before ++ (writeString key ++ (colon ++ ':' :: (gap ++ (cs ++ (after ++ ['\x7d']))))))
  | more {key : String} {value : Json} {members : List (Option String × Json)}
    {before colon gap cs after rest : List Char} : Blank before → Blank colon → Blank gap →
    Written value cs → Blank after → WrittenMembers members rest →
    WrittenMembers ((some key, value) :: members)
      (before ++ (writeString key ++ (colon ++ ':' :: (gap ++ (cs ++ (after ++ ',' :: rest))))))

end

theorem Written.head {j : Json} {cs : List Char} (h : Written j cs) :
    ∃ c tail, cs = c :: tail ∧ isSpace c = false ∧ c ≠ ']' := by
  cases h with
  | null => exact ⟨_, _, rfl, by decide⟩
  | bool b => cases b <;> exact ⟨_, _, rfl, by decide⟩
  | number hn =>
    obtain ⟨c, tail, heq, hc⟩ := exists_head_writeNumeral hn
    exact ⟨c, tail, heq, isSpace_of_numeral hc, ne_of_numeral hc (by decide)⟩
  | string s => exact ⟨_, _, rfl, by decide⟩
  | emptyArray hblank => exact ⟨_, _, rfl, by decide⟩
  | array hitems => exact ⟨_, _, rfl, by decide⟩
  | emptyObject hblank => exact ⟨_, _, rfl, by decide⟩
  | object hmembers => exact ⟨_, _, rfl, by decide⟩

/-- Behind its blanks an array that holds items does not close at once. -/
theorem WrittenItems.head {items : List Json} {cs : List Char} (h : WrittenItems items cs)
    (rest : List Char) : ∃ c tail, skipSpace (cs ++ rest) = c :: tail ∧ c ≠ ']' := by
  have hskip {before tail : List Char} {item : Json} {cs : List Char} (hbefore : Blank before)
      (hitem : Written item cs) :
      ∃ c tail', skipSpace (before ++ (cs ++ tail) ++ rest) = c :: tail' ∧ c ≠ ']' := by
    obtain ⟨c, tail', rfl, hspace, hne⟩ := hitem.head
    rw [List.append_assoc, skipSpace_append hbefore]
    exact ⟨c, _, skipSpace_cons hspace _, hne⟩
  cases h with
  | last hbefore hitem => exact hskip hbefore hitem
  | more hbefore hitem => exact hskip hbefore hitem

theorem WrittenMembers.head {members : List (Option String × Json)} {cs : List Char}
    (h : WrittenMembers members cs) (rest : List Char) :
    ∃ tail, skipSpace (cs ++ rest) = '"' :: tail := by
  cases h with
  | last hbefore => exact ⟨_, by rw [List.append_assoc, skipSpace_append hbefore]; rfl⟩
  | more hbefore => exact ⟨_, by rw [List.append_assoc, skipSpace_append hbefore]; rfl⟩

theorem readValue_skipSpace (fuel : Nat) (cs : List Char) :
    readValue fuel (skipSpace cs) = readValue fuel cs := by
  cases fuel with
  | zero => rfl
  | succ fuel => rw [readValue, readValue, skipSpace_skipSpace]

theorem readItems_skipSpace (fuel : Nat) (soFar : List Json) (cs : List Char) :
    readItems fuel soFar (skipSpace cs) = readItems fuel soFar cs := by
  cases fuel with
  | zero => rfl
  | succ fuel => rw [readItems, readItems, readValue_skipSpace]

theorem readMembers_skipSpace (fuel : Nat) (soFar : List (Option String × Json))
    (cs : List Char) : readMembers fuel soFar (skipSpace cs) = readMembers fuel soFar cs := by
  cases fuel with
  | zero => rfl
  | succ fuel => rw [readMembers, readMembers, skipSpace_skipSpace]

theorem readValue_numeral {c : Char} (h : c = '-' ∨ c.isDigit = true) (fuel : Nat)
    (cs : List Char) :
    readValue (fuel + 1) (c :: cs) =
      (readNumeral (c :: cs)).map fun (n, rest) => (.number n, rest) := by
  rw [readValue, skipSpace_cons (isSpace_of_numeral h)]
  split
  iterate 6 · next heq => exact absurd (List.cons.inj heq).1 (ne_of_numeral h (by decide))
  rfl

-- Two levels of reading go down for each pair of brackets, and a bracket is a character each, so
-- fuel for the length of what was written is enough.
mutual

theorem readValue_of_written {j : Json} {cs : List Char} (h : Written j cs) (fuel : Nat)
    (hfuel : cs.length ≤ fuel) {before rest : List Char} (hbefore : Blank before)
    (hrest : EndsNumeral rest) : readValue fuel (before ++ (cs ++ rest)) = some (j, rest) := by
  rw [← readValue_skipSpace, skipSpace_append hbefore, readValue_skipSpace]
  cases fuel with
  | zero =>
    obtain ⟨c, tail, rfl, _⟩ := h.head
    simp at hfuel
  | succ fuel =>
  match h with
  | .null => rfl
  | .bool true => rfl
  | .bool false => rfl
  | .number hn =>
    obtain ⟨c, tail, heq, hc⟩ := exists_head_writeNumeral hn
    have hread := readNumeral_writeNumeral hn hrest
    rw [heq, List.cons_append] at hread ⊢
    rw [readValue_numeral hc, hread]
    rfl
  | .string s =>
    rw [writeString_append]
    change (readString (some []) (s.toList.flatMap escape ++ '"' :: rest)).map _ = _
    rw [readString_writeString]
    rfl
  | .emptyArray hblank =>
    rw [List.append_assoc, List.cons_append, readValue, skipSpace_cons (by decide)]
    simp [skipSpace_append hblank, skipSpace_cons, isSpace]
  | .array hitems =>
    obtain ⟨c, tail, hskip, hne⟩ := hitems.head rest
    have hread := readItems_of_written hitems fuel (by simpa using hfuel) [] rest
    rw [← readItems_skipSpace, hskip] at hread
    rw [List.cons_append, readValue, skipSpace_cons (by decide)]
    simp [hskip, hne, hread]
  | .emptyObject hblank =>
    rw [List.append_assoc, List.cons_append, readValue, skipSpace_cons (by decide)]
    simp [skipSpace_append hblank, skipSpace_cons, isSpace]
  | .object hmembers =>
    obtain ⟨tail, hskip⟩ := hmembers.head rest
    have hread := readMembers_of_written hmembers fuel (by simpa using hfuel) [] rest
    rw [← readMembers_skipSpace, hskip] at hread
    rw [List.cons_append, readValue, skipSpace_cons (by decide)]
    simp [hskip, hread]

theorem readItems_of_written {items : List Json} {cs : List Char} (h : WrittenItems items cs)
    (fuel : Nat) (hfuel : cs.length ≤ fuel) (soFar : List Json) (rest : List Char) :
    readItems fuel soFar (cs ++ rest) = some (.array (soFar.reverse ++ items), rest) := by
  cases fuel with
  | zero => cases h <;> simp at hfuel
  | succ fuel =>
  match h with
  | .last hbefore hitem hafter =>
    simp only [List.length_append, List.length_cons] at hfuel
    have hread := readValue_of_written hitem fuel (by omega) hbefore
      (endsNumeral_append hafter (endsNumeral_cons (c := ']') (by decide) rest))
    simp [readItems, hread, skipSpace_append hafter, skipSpace_cons, isSpace]
  | .more hbefore hitem hafter hitems =>
    simp only [List.length_append, List.length_cons] at hfuel
    have hread (tail : List Char) := readValue_of_written hitem fuel (by omega) hbefore
      (endsNumeral_append hafter (endsNumeral_cons (c := ',') (by decide) tail))
    have hrest := readItems_of_written hitems fuel (by omega)
    simp [readItems, hread, skipSpace_append hafter, skipSpace_cons, isSpace, hrest]

theorem readMembers_of_written {members : List (Option String × Json)} {cs : List Char}
    (h : WrittenMembers members cs) (fuel : Nat) (hfuel : cs.length ≤ fuel)
    (soFar : List (Option String × Json)) (rest : List Char) :
    readMembers fuel soFar (cs ++ rest) = some (.object (soFar.reverse ++ members), rest) := by
  cases fuel with
  | zero => cases h <;> simp at hfuel
  | succ fuel =>
  match h with
  | .last hbefore hcolon hgap hvalue hafter =>
    simp only [List.length_append, List.length_cons] at hfuel
    have hread := readValue_of_written hvalue fuel (by omega) hgap
      (endsNumeral_append hafter (endsNumeral_cons (c := '\x7d') (by decide) rest))
    simp [readMembers, skipSpace_append hbefore, writeString_append, skipSpace_cons, isSpace,
      readString_writeString, skipSpace_append hcolon, hread, skipSpace_append hafter]
  | .more hbefore hcolon hgap hvalue hafter hmembers =>
    simp only [List.length_append, List.length_cons] at hfuel
    have hread (tail : List Char) := readValue_of_written hvalue fuel (by omega) hgap
      (endsNumeral_append hafter (endsNumeral_cons (c := ',') (by decide) tail))
    have hrest := readMembers_of_written hmembers fuel (by omega)
    simp [readMembers, skipSpace_append hbefore, writeString_append, skipSpace_cons, isSpace,
      readString_writeString, skipSpace_append hcolon, hread, skipSpace_append hafter, hrest]

end

theorem ofChars_of_written {j : Json} {cs : List Char} (h : Written j cs) :
    ofChars cs = some j := by
  have hread : readValue (cs.length + 1) ([] ++ (cs ++ [])) = some (j, []) :=
    readValue_of_written h _ (Nat.le_succ _) blank_nil nofun
  rw [List.nil_append, List.append_nil] at hread
  simp [ofChars, hread, skipSpace]

/-- The values that have a text: every string in them stands for one. -/
inductive WellFormed : Json → Prop
  | null : WellFormed .null
  | bool (b : Bool) : WellFormed (.bool b)
  | number {n : Numeral} : n.WellFormed → WellFormed (.number n)
  | text (s : String) : WellFormed (.text s)
  | array {items : List Json} : (∀ item ∈ items, WellFormed item) → WellFormed (.array items)
  | record {members : List (String × Json)} : (∀ member ∈ members, WellFormed member.2) →
    WellFormed (.record members)

theorem WellFormed.int (i : Int) : WellFormed (.int i) := .number (Numeral.wellFormed_ofInt i)

section Layout

/-! Items and members that are all laid out alike. -/

variable {write : Json → List Char} {before gap after : List Char}

theorem writtenItems_flatMap (hbefore : Blank before) (hafter : Blank after) {item : Json}
    {items : List Json} (h : ∀ i ∈ item :: items, Written i (write i)) :
    WrittenItems (item :: items)
      (before ++ (write item ++ (items.flatMap (fun i => ',' :: before ++ write i) ++
        (after ++ [']'])))) := by
  induction items generalizing item with
  | nil => exact .last hbefore (h item List.mem_cons_self) hafter
  | cons next items ih =>
    have hrest := ih fun i hi => h i (List.mem_cons_of_mem _ hi)
    simpa using WrittenItems.more hbefore (h item List.mem_cons_self) blank_nil hrest

theorem writtenMembers_flatMap (hbefore : Blank before) (hgap : Blank gap) (hafter : Blank after)
    {member : String × Json} {members : List (String × Json)}
    (h : ∀ m ∈ member :: members, Written m.2 (write m.2)) :
    WrittenMembers ((some member.1, member.2) :: members.map fun (key, value) => (some key, value))
      (before ++ (writeString member.1 ++ ':' :: (gap ++ (write member.2 ++
        (members.flatMap (fun m => ',' :: before ++ writeString m.1 ++ ':' :: gap ++ write m.2) ++
          (after ++ ['\x7d'])))))) := by
  induction members generalizing member with
  | nil => exact .last hbefore blank_nil hgap (h member List.mem_cons_self) hafter
  | cons next members ih =>
    have hrest := ih fun m hm => h m (List.mem_cons_of_mem _ hm)
    have hmore : WrittenMembers ((some member.1, member.2) :: _) _ :=
      .more hbefore blank_nil hgap (h member List.mem_cons_self) blank_nil hrest
    simpa using hmore

end Layout

theorem prettyItems_eq (depth : Nat) (items : List Json) :
    prettyItems depth items =
      items.flatMap fun i => ',' :: indent depth ++ writePretty depth i := by
  induction items with
  | nil => rfl
  | cons item items ih => simp [prettyItems, ih]

theorem prettyMembers_eq (depth : Nat) (members : List (String × Json)) :
    prettyMembers depth (members.map fun (key, value) => (some key, value)) =
      members.flatMap fun m =>
        ',' :: indent depth ++ writeString m.1 ++ ':' :: [' '] ++ writePretty depth m.2 := by
  induction members with
  | nil => rfl
  | cons m members ih => simp [prettyMembers, writeText, ih]

theorem WellFormed.written_pretty {j : Json} (h : j.WellFormed) (depth : Nat) :
    Written j (writePretty depth j) := by
  induction h generalizing depth with
  | null => exact .null
  | bool b => exact .bool b
  | number hn => exact .number hn
  | text s => exact .string s
  | @array items _ ih =>
    cases items with
    | nil => exact .emptyArray blank_nil
    | cons item items =>
      have hitems := writtenItems_flatMap (blank_indent (depth + 1)) (blank_indent depth)
        fun i hi => ih i hi (depth + 1)
      simpa [writePretty, prettyItems_eq] using Written.array hitems
  | @record members _ ih =>
    cases members with
    | nil => exact .emptyObject blank_nil
    | cons member members =>
      have hgap : Blank [' '] := by simp [Blank, isSpace]
      have hmembers := writtenMembers_flatMap (blank_indent (depth + 1)) hgap (blank_indent depth)
        fun m hm => ih m hm (depth + 1)
      simpa [Json.record, writePretty, writeText, prettyMembers_eq] using Written.object hmembers

theorem parse_pretty {j : Json} (h : j.WellFormed) : parse j.pretty = some j := by
  rw [parse, pretty, String.toList_ofList]
  exact ofChars_of_written (h.written_pretty 0)

theorem compactItems_eq (items : List Json) :
    compactItems items = items.flatMap fun i => ',' :: writeCompact i := by
  induction items with
  | nil => rfl
  | cons item items ih => simp [compactItems, ih]

theorem compactMembers_eq (members : List (String × Json)) :
    compactMembers (members.map fun (key, value) => (some key, value)) =
      members.flatMap fun m => ',' :: writeString m.1 ++ ':' :: writeCompact m.2 := by
  induction members with
  | nil => rfl
  | cons m members ih => simp [compactMembers, writeText, ih]

theorem WellFormed.written_compact {j : Json} (h : j.WellFormed) : Written j (writeCompact j) := by
  induction h with
  | null => exact .null
  | bool b => exact .bool b
  | number hn => exact .number hn
  | text s => exact .string s
  | @array items _ ih =>
    cases items with
    | nil => exact .emptyArray blank_nil
    | cons item items =>
      simpa [writeCompact, compactItems_eq] using
        Written.array (writtenItems_flatMap blank_nil blank_nil ih)
  | @record members _ ih =>
    cases members with
    | nil => exact .emptyObject blank_nil
    | cons member members =>
      simpa [Json.record, writeCompact, writeText, compactMembers_eq] using
        Written.object (writtenMembers_flatMap blank_nil blank_nil blank_nil ih)

theorem parse_compact {j : Json} (h : j.WellFormed) : parse j.compact = some j := by
  rw [parse, compact, String.toList_ofList]
  exact ofChars_of_written h.written_compact

end Json

end PdfConform
