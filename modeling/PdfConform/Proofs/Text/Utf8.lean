import Mathlib.Tactic.SplitIfs

/-! The bytes of a text are those of its characters in turn, and texts stand in the order of their
bytes: where two characters differ, the first byte that differs tells which is the lesser. -/
namespace PdfConform.Text

private theorem toList_loop (bytes : ByteArray) (i : Nat) (soFar : List UInt8) :
    ByteArray.toList.loop bytes i soFar = soFar.reverse ++ bytes.data.toList.drop i := by
  fun_induction ByteArray.toList.loop bytes i soFar with
  | case1 i soFar h ih =>
    have hi : i < bytes.data.toList.length := h
    have hget : bytes.get! i = bytes.data.toList[i] := getElem!_pos bytes.data i h
    rw [ih, List.drop_eq_getElem_cons hi, hget]
    simp
  | case2 i soFar h =>
    have hi : bytes.data.toList.length ≤ i := Nat.not_lt.1 h
    rw [List.drop_eq_nil_of_le hi, List.append_nil]

theorem toList_bytes (bytes : ByteArray) : bytes.toList = bytes.data.toList :=
  toList_loop bytes 0 []

theorem toList_toUTF8 (s : String) : s.toUTF8.toList = s.toList.flatMap String.utf8EncodeChar := by
  have hencode : s.toUTF8 = s.toList.utf8Encode := String.utf8Encode_toList.symm
  rw [hencode, toList_bytes, List.utf8Encode, List.toList_data_toByteArray]

theorem toList_toUTF8_append (s t : String) :
    (s ++ t).toUTF8.toList = s.toUTF8.toList ++ t.toUTF8.toList := by
  simp only [toList_toUTF8, String.toList_append, List.flatMap_append]

theorem utf8EncodeChar_ne_nil (c : Char) : String.utf8EncodeChar c ≠ [] := by
  rw [← List.length_pos_iff, String.length_utf8EncodeChar]
  exact c.utf8Size_pos

/-! The order of the bytes -/

/-- How many bytes of a character follow its first. -/
def following (n : Nat) : Nat :=
  if n ≤ 0x7f then 0 else if n ≤ 0x7ff then 1 else if n ≤ 0xffff then 2 else 3

/-- What the first byte of a character adds to its highest digit in base 64. -/
def mark : Nat → Nat
  | 0 => 0
  | 1 => 0xc0
  | 2 => 0xe0
  | _ => 0xf0

/-- What is left of a number in base 64 without so many of its low digits. -/
def leading64 : Nat → Nat → Nat
  | 0, n => n
  | count + 1, n => leading64 count (n / 64)

def first (n : Nat) : Nat := leading64 (following n) n + mark (following n)

/-- The low digits themselves, in bytes that begin no character. -/
def digits64 : Nat → Nat → List UInt8
  | 0, _ => []
  | count + 1, n => digits64 count (n / 64) ++ [UInt8.ofNat (n % 64 + 0x80)]

theorem leading64_le {m n : Nat} (h : m ≤ n) (count : Nat) :
    leading64 count m ≤ leading64 count n := by
  induction count generalizing m n with
  | zero => exact h
  | succ count ih => exact ih (Nat.div_le_div_right h)

theorem toNat_val_lt (c : Char) : c.val.toNat < 0x110000 := by
  rcases c.valid with h | ⟨_, h⟩
  · exact Nat.lt_trans h (by decide)
  · exact h

theorem utf8EncodeChar_eq (c : Char) :
    String.utf8EncodeChar c = UInt8.ofNat (first c.val.toNat) ::
      digits64 (following c.val.toNat) c.val.toNat := by
  have hc := toNat_val_lt c
  simp only [String.utf8EncodeChar, first]
  generalize c.val.toNat = n at *
  unfold following
  split_ifs <;> simp [digits64, leading64, mark, Nat.div_div_eq_div_mul] <;> congr 1 <;> omega

theorem digits64_append_lt {m n count : Nat} (hlt : m < n)
    (hleading : leading64 count m = leading64 count n) (x y : List UInt8) :
    digits64 count m ++ x < digits64 count n ++ y := by
  induction count generalizing m n x y with
  | zero => exact absurd hleading (Nat.ne_of_lt hlt)
  | succ count ih =>
    have hle : m / 64 ≤ n / 64 := Nat.div_le_div_right (Nat.le_of_lt hlt)
    rw [digits64, digits64, List.append_assoc, List.append_assoc]
    rcases Nat.lt_or_eq_of_le hle with hless | hequal
    · exact ih hless hleading _ _
    · rw [hequal]
      refine List.append_left_lt (List.cons_lt_cons_iff.2 (.inl ?_))
      rw [UInt8.lt_iff_toNat_lt, UInt8.toNat_ofNat', UInt8.toNat_ofNat']
      omega

theorem first_lt {n : Nat} (h : n < 0x110000) : first n < 0x100 := by
  unfold first following
  split_ifs <;> simp only [leading64, mark] <;> omega

/-- The first byte of a character tells how many follow. -/
theorem first_lt_or_eq {m n : Nat} (h : m < n) (hn : n < 0x110000) :
    first m < first n ∨ following m = following n ∧
      leading64 (following m) m = leading64 (following m) n := by
  by_cases hcount : following m = following n
  · have hle := leading64_le (Nat.le_of_lt h) (following m)
    refine (Nat.lt_or_eq_of_le hle).imp (fun hless => ?_) fun hequal => ⟨hcount, hequal⟩
    rw [first, first, ← hcount]
    exact Nat.add_lt_add_right hless _
  · left
    revert hcount
    unfold first following
    split_ifs <;> simp only [leading64, mark, not_true_eq_false, false_implies] <;> omega

/-- Of two characters the lesser has the lesser bytes, whatever follows either. -/
theorem utf8EncodeChar_append_lt {c d : Char} (h : c < d) (x y : List UInt8) :
    String.utf8EncodeChar c ++ x < String.utf8EncodeChar d ++ y := by
  have hlt : c.val.toNat < d.val.toNat := h
  have hc := toNat_val_lt c
  have hd := toNat_val_lt d
  rw [utf8EncodeChar_eq, utf8EncodeChar_eq, List.cons_append, List.cons_append,
    List.cons_lt_cons_iff]
  rcases first_lt_or_eq hlt hd with hfirst | ⟨hcount, hleading⟩
  · left
    rw [UInt8.lt_iff_toNat_lt, UInt8.toNat_ofNat_of_lt' (first_lt hc),
      UInt8.toNat_ofNat_of_lt' (first_lt hd)]
    exact hfirst
  · right
    have hfirst : first c.val.toNat = first d.val.toNat := by
      rw [first, first, ← hcount, hleading]
    rw [hfirst, ← hcount]
    exact ⟨rfl, digits64_append_lt hlt hleading x y⟩

/-- Texts in the order of their characters are in the order of their bytes. -/
theorem toList_toUTF8_lt {s t : String} (h : s < t) : s.toUTF8.toList < t.toUTF8.toList := by
  rw [toList_toUTF8, toList_toUTF8]
  have hchars : s.toList < t.toList := h
  generalize s.toList = cs at hchars
  generalize t.toList = ds at hchars
  induction hchars with
  | @nil d ds =>
    obtain ⟨b, bs, hb⟩ := List.exists_cons_of_ne_nil (utf8EncodeChar_ne_nil d)
    rw [List.flatMap_nil, List.flatMap_cons, hb]
    exact List.nil_lt_cons _ _
  | cons _ ih =>
    rw [List.flatMap_cons, List.flatMap_cons]
    exact List.append_left_lt ih
  | rel hlt =>
    rw [List.flatMap_cons, List.flatMap_cons]
    exact utf8EncodeChar_append_lt hlt _ _

end PdfConform.Text
