import PdfConform.Document.Fingerprint
import PdfConform.Proofs.Text.Utf8

/-! The bytes that are hashed for a direct object can be read back in one way only:
tags and counts say where each part ends, whatever follows. -/
namespace PdfConform

theorem Sha256.bigEndian_inj {width m n : Nat} (hm : m < Nat.pow 256 width)
    (hn : n < Nat.pow 256 width) (h : bigEndian width m = bigEndian width n) : m = n := by
  induction width generalizing m n with
  | zero =>
    have hm : m < 1 := hm
    have hn : n < 1 := hn
    omega
  | succ width ih =>
    obtain ⟨hhigh, hlow⟩ := List.append_inj' h rfl
    have hm : m < Nat.pow 256 width * 256 := hm
    have hn : n < Nat.pow 256 width * 256 := hn
    have hquotient : m / 256 = n / 256 := by
      apply ih _ _ hhigh
      · omega
      · omega
    have hremainder : m % 256 = n % 256 := by
      have := congrArg UInt8.toNat (List.cons.inj hlow).1
      simpa using this
    omega

namespace Object

mutual

/-- Every length in the encoding fits its 64 bits. -/
def fitsCounts : Object → Bool
  | .string s | .name s => s.utf8ByteSize < UInt64.size
  | .array items => items.length < UInt64.size && itemsFit items
  | .dictionary entries => entries.length < UInt64.size && entriesFit entries
  | .stream entries data =>
    data.length < UInt64.size && entries.length < UInt64.size && entriesFit entries
  | _ => true

def itemsFit : List Object → Bool
  | [] => true
  | item :: items => fitsCounts item && itemsFit items

def entriesFit : List (String × Object) → Bool
  | [] => true
  | (key, value) :: entries =>
    key.utf8ByteSize < UInt64.size && fitsCounts value && entriesFit entries

end

/-- Two things of one width with something behind them. -/
theorem bigEndian_append_inj {width m n : Nat} {x y : List UInt8} (hm : m < Nat.pow 256 width)
    (hn : n < Nat.pow 256 width)
    (h : Sha256.bigEndian width m ++ x = Sha256.bigEndian width n ++ y) : m = n ∧ x = y := by
  have hlength : (Sha256.bigEndian width m).length = (Sha256.bigEndian width n).length := by
    rw [Sha256.length_bigEndian, Sha256.length_bigEndian]
  obtain ⟨hword, hrest⟩ := List.append_inj h hlength
  exact ⟨Sha256.bigEndian_inj hm hn hword, hrest⟩

theorem encodeText_append_inj {s t : String} {x y : List UInt8}
    (hs : s.utf8ByteSize < UInt64.size) (ht : t.utf8ByteSize < UInt64.size)
    (h : encodeText s ++ x = encodeText t ++ y) : s = t ∧ x = y := by
  have length_toList (r : String) : r.toUTF8.toList.length = r.utf8ByteSize := by
    rw [Text.toList_bytes]; rfl
  simp only [encodeText, encodeCount, List.append_assoc] at h
  obtain ⟨hcount, hrest⟩ := bigEndian_append_inj (by rw [length_toList]; exact hs)
    (by rw [length_toList]; exact ht) h
  obtain ⟨hbytes, hrest⟩ := List.append_inj hrest hcount
  rw [Text.toList_bytes, Text.toList_bytes] at hbytes
  exact ⟨String.toByteArray_inj.1 (ByteArray.ext (Array.toList_inj.1 hbytes)), hrest⟩

mutual

/-- The encoding by recursion instead of a stack: each part directly after what holds it. -/
def encode : Object → List UInt8
  | .null => [tag 'n']
  | .boolean b => [tag (if b then 't' else 'f')]
  | .integer i => tag 'i' :: Sha256.bigEndian 8 i.toUInt64.toNat
  | .real x => tag 'r' :: Sha256.bigEndian 8 x.bits.toNat
  | .string s => tag 's' :: encodeText s
  | .name s => tag '/' :: encodeText s
  | .array items => tag '[' :: encodeCount items.length ++ encodeItems items
  | .dictionary entries => tag '<' :: encodeCount entries.length ++ encodeEntries entries
  | .stream entries data =>
    tag 'S' :: encodeCount data.length ++ data ++
      encodeCount entries.length ++ encodeEntries entries
  | .reference id =>
    tag 'R' :: Sha256.bigEndian 4 id.number.toNat ++ Sha256.bigEndian 2 id.generation.toNat

def encodeItems : List Object → List UInt8
  | [] => []
  | item :: items => encode item ++ encodeItems items

def encodeEntries : List (String × Object) → List UInt8
  | [] => []
  | (key, value) :: entries => tag 'k' :: encodeText key ++ encode value ++ encodeEntries entries

end

def Piece.encode : Piece → List UInt8
  | .object value => value.encode
  | .key text => tag 'k' :: encodeText text

theorem flatMap_encode_items (items : List Object) :
    (items.map Piece.object).flatMap Piece.encode = encodeItems items := by
  induction items with
  | nil => rfl
  | cons item items ih => rw [List.map_cons, List.flatMap_cons, ih]; rfl

theorem flatMap_encode_entries (entries : List (String × Object)) :
    (entries.flatMap Piece.ofEntry).flatMap Piece.encode = encodeEntries entries := by
  induction entries with
  | nil => rfl
  | cons entry entries ih =>
    rw [List.flatMap_cons, List.flatMap_append, ih]
    simp [Piece.ofEntry, Piece.encode, encodeEntries]

theorem encode_eq_lead_append (object : Object) :
    object.encode = object.lead ++ object.inside.flatMap Piece.encode := by
  cases object with
  | array items => rw [inside, flatMap_encode_items]; rfl
  | dictionary entries => rw [inside, flatMap_encode_entries]; rfl
  | stream entries data => rw [inside, flatMap_encode_entries]; rfl
  | _ => exact (List.append_nil _).symm

/-- The stack puts out its pieces one after another, each with all that it holds. -/
theorem encodePieces_eq (pieces : List Piece) :
    encodePieces pieces = pieces.flatMap Piece.encode := by
  fun_induction encodePieces pieces with
  | case1 => rfl
  | case2 key rest ih => rw [ih]; rfl
  | case3 object rest ih =>
    rw [ih, List.flatMap_append, ← List.append_assoc, ← encode_eq_lead_append]
    rfl

theorem bytes_eq_encode (object : Object) : object.bytes = object.encode := by
  rw [bytes, encodePieces_eq, List.flatMap_cons, List.flatMap_nil, List.append_nil]
  rfl

/-- The kind of object whose encoding starts with a byte. -/
def kindOf (lead : UInt8) : String :=
  if lead = tag 'n' then "null"
  else if lead = tag 't' || lead = tag 'f' then "boolean"
  else if lead = tag 'i' then "integer"
  else if lead = tag 'r' then "number"
  else if lead = tag 's' then "string"
  else if lead = tag '/' then "name"
  else if lead = tag '[' then "array"
  else if lead = tag '<' then "dictionary"
  else if lead = tag 'S' then "stream"
  else "reference"

theorem kindOf_head (a : Object) (x : List UInt8) :
    (a.encode ++ x).head?.map kindOf = some a.kind := by
  cases a with
  | boolean value => cases value <;> rfl
  | _ => rfl

theorem kind_eq_of_encode {a b : Object} {x y : List UInt8} (h : a.encode ++ x = b.encode ++ y) :
    a.kind = b.kind := by
  have ha := kindOf_head a x
  rw [h, kindOf_head b y] at ha
  exact (Option.some.inj ha).symm

mutual

/-- The induction is on the first object; its tag rules out a second one of another kind. -/
theorem encode_append_inj : ∀ {a b : Object} {x y : List UInt8}, a.fitsCounts = true →
    b.fitsCounts = true → a.encode ++ x = b.encode ++ y → a = b ∧ x = y
  | .null, b, x, y, _, _, h => by
    cases b with
    | null => exact ⟨rfl, (List.cons.inj h).2⟩
    | _ => exact absurd (kind_eq_of_encode h) (by simp [kind])
  | .boolean v, b, x, y, _, _, h => by
    cases b with
    | boolean w =>
      obtain ⟨htag, hrest⟩ := List.cons.inj h
      have hvalue : v = w := by cases v <;> cases w <;> simp_all [tag]
      exact ⟨congrArg _ hvalue, hrest⟩
    | _ => exact absurd (kind_eq_of_encode h) (by simp [kind])
  | .integer i, b, x, y, _, _, h => by
    cases b with
    | integer j =>
      simp only [encode, List.cons_append, List.cons.injEq, true_and] at h
      obtain ⟨hbits, hrest⟩ := bigEndian_append_inj i.toUInt64.toNat_lt j.toUInt64.toNat_lt h
      have hvalue : i = j := congrArg UInt64.toInt64 (UInt64.toNat_inj.1 hbits)
      exact ⟨congrArg _ hvalue, hrest⟩
    | _ => exact absurd (kind_eq_of_encode h) (by simp [kind])
  | .real v, b, x, y, _, _, h => by
    cases b with
    | real w =>
      simp only [encode, List.cons_append, List.cons.injEq, true_and] at h
      obtain ⟨hbits, hrest⟩ := bigEndian_append_inj v.bits.toNat_lt w.bits.toNat_lt h
      have hvalue : v = w := congrArg Binary64.mk (UInt64.toNat_inj.1 hbits)
      exact ⟨congrArg _ hvalue, hrest⟩
    | _ => exact absurd (kind_eq_of_encode h) (by simp [kind])
  | .string s, b, x, y, ha, hb, h => by
    cases b with
    | string t =>
      simp only [fitsCounts, decide_eq_true_eq] at ha hb
      simp only [encode, List.cons_append, List.cons.injEq, true_and] at h
      obtain ⟨rfl, hrest⟩ := encodeText_append_inj ha hb h
      exact ⟨rfl, hrest⟩
    | _ => exact absurd (kind_eq_of_encode h) (by simp [kind])
  | .name s, b, x, y, ha, hb, h => by
    cases b with
    | name t =>
      simp only [fitsCounts, decide_eq_true_eq] at ha hb
      simp only [encode, List.cons_append, List.cons.injEq, true_and] at h
      obtain ⟨rfl, hrest⟩ := encodeText_append_inj ha hb h
      exact ⟨rfl, hrest⟩
    | _ => exact absurd (kind_eq_of_encode h) (by simp [kind])
  | .array items, b, x, y, ha, hb, h => by
    cases b with
    | array others =>
      simp only [fitsCounts, Bool.and_eq_true, decide_eq_true_eq] at ha hb
      simp only [encode, List.cons_append, List.append_assoc, List.cons.injEq, true_and] at h
      obtain ⟨hcount, hitems⟩ := bigEndian_append_inj ha.1 hb.1 h
      obtain ⟨rfl, hrest⟩ := encodeItems_append_inj hcount ha.2 hb.2 hitems
      exact ⟨rfl, hrest⟩
    | _ => exact absurd (kind_eq_of_encode h) (by simp [kind])
  | .dictionary entries, b, x, y, ha, hb, h => by
    cases b with
    | dictionary others =>
      simp only [fitsCounts, Bool.and_eq_true, decide_eq_true_eq] at ha hb
      simp only [encode, List.cons_append, List.append_assoc, List.cons.injEq, true_and] at h
      obtain ⟨hcount, hentries⟩ := bigEndian_append_inj ha.1 hb.1 h
      obtain ⟨rfl, hrest⟩ := encodeEntries_append_inj hcount ha.2 hb.2 hentries
      exact ⟨rfl, hrest⟩
    | _ => exact absurd (kind_eq_of_encode h) (by simp [kind])
  | .stream entries data, b, x, y, ha, hb, h => by
    cases b with
    | stream others bytes =>
      simp only [fitsCounts, Bool.and_eq_true, decide_eq_true_eq] at ha hb
      simp only [encode, List.cons_append, List.append_assoc, List.cons.injEq, true_and] at h
      obtain ⟨hsize, hdata⟩ := bigEndian_append_inj ha.1.1 hb.1.1 h
      obtain ⟨rfl, hafter⟩ := List.append_inj hdata hsize
      obtain ⟨hcount, hentries⟩ := bigEndian_append_inj ha.1.2 hb.1.2 hafter
      obtain ⟨rfl, hrest⟩ := encodeEntries_append_inj hcount ha.2 hb.2 hentries
      exact ⟨rfl, hrest⟩
    | _ => exact absurd (kind_eq_of_encode h) (by simp [kind])
  | .reference id, b, x, y, _, _, h => by
    cases b with
    | reference other =>
      simp only [encode, List.cons_append, List.append_assoc, List.cons.injEq, true_and] at h
      obtain ⟨hnumber, hafter⟩ := bigEndian_append_inj id.number.toNat_lt other.number.toNat_lt h
      obtain ⟨hgeneration, hrest⟩ :=
        bigEndian_append_inj id.generation.toNat_lt other.generation.toNat_lt hafter
      have hid : id = other := by
        cases id; cases other
        simp_all [UInt32.toNat_inj, UInt16.toNat_inj]
      exact ⟨congrArg _ hid, hrest⟩
    | _ => exact absurd (kind_eq_of_encode h) (by simp [kind])

theorem encodeItems_append_inj : ∀ {as bs : List Object} {x y : List UInt8},
    as.length = bs.length → itemsFit as = true → itemsFit bs = true →
    encodeItems as ++ x = encodeItems bs ++ y → as = bs ∧ x = y
  | [], [], x, y, _, _, _, h => ⟨rfl, h⟩
  | a :: as, b :: bs, x, y, hlength, ha, hb, h => by
    simp only [itemsFit, Bool.and_eq_true] at ha hb
    simp only [encodeItems, List.append_assoc] at h
    obtain ⟨hhead, htail⟩ := encode_append_inj ha.1 hb.1 h
    obtain ⟨hitems, hrest⟩ := encodeItems_append_inj (Nat.succ.inj hlength) ha.2 hb.2 htail
    exact ⟨by rw [hhead, hitems], hrest⟩

theorem encodeEntries_append_inj : ∀ {as bs : List (String × Object)} {x y : List UInt8},
    as.length = bs.length → entriesFit as = true → entriesFit bs = true →
    encodeEntries as ++ x = encodeEntries bs ++ y → as = bs ∧ x = y
  | [], [], x, y, _, _, _, h => ⟨rfl, h⟩
  | (k, v) :: as, (l, w) :: bs, x, y, hlength, ha, hb, h => by
    simp only [entriesFit, Bool.and_eq_true, decide_eq_true_eq] at ha hb
    simp only [encodeEntries, List.cons_append, List.append_assoc, List.cons.injEq, true_and] at h
    obtain ⟨rfl, hvalue⟩ := encodeText_append_inj ha.1.1 hb.1.1 h
    obtain ⟨hhead, htail⟩ := encode_append_inj ha.1.2 hb.1.2 hvalue
    obtain ⟨hentries, hrest⟩ := encodeEntries_append_inj (Nat.succ.inj hlength) ha.2 hb.2 htail
    exact ⟨by rw [hhead, hentries], hrest⟩

end

/-- Equal bytes come from equal objects, none are the beginning of others, and as far as
the hash tells the bytes apart so does the identity of direct objects. -/
theorem bytes_determine {a b : Object} (ha : a.fitsCounts = true) (hb : b.fitsCounts = true) :
    (a.bytes = b.bytes → a = b) ∧
    (a.bytes <+: b.bytes → a.bytes = b.bytes) ∧
    ((Sha256.digest a.bytes = Sha256.digest b.bytes → a.bytes = b.bytes) →
      Identity.of a none = Identity.of b none → a = b) := by
  have hbegins : a.bytes <+: b.bytes → a = b := by
    rw [bytes_eq_encode, bytes_eq_encode]
    rintro ⟨rest, hrest⟩
    exact (encode_append_inj ha hb (hrest.trans (List.append_nil _).symm)).1
  refine ⟨fun h => hbegins (h ▸ List.prefix_refl _), fun h => congrArg _ (hbegins h), ?_⟩
  intro hcollision hidentity
  have hbytes := hcollision (Identity.direct.inj hidentity)
  exact hbegins (hbytes ▸ List.prefix_refl _)

/-- Where a key ends and its value begins is part of the encoding. -/
theorem bytes_tell_boundaries :
    let one := dictionary [("ab", string "c"), ("d", array [null])]
    let two := dictionary [("a", string "bc"), ("d", array [null])]
    one.fitsCounts = true ∧ two.fitsCounts = true ∧ ¬one.bytes <+: two.bytes ∧
      Identity.of one none ≠ Identity.of two none := by
  intro one two
  have hone : one.fitsCounts = true := by decide
  have htwo : two.fitsCounts = true := by decide
  have hne : one ≠ two := by simp [one, two]
  obtain ⟨hequal, hbegins, hidentity⟩ := bytes_determine hone htwo
  refine ⟨hone, htwo, fun h => hne (hequal (hbegins h)), fun h => hne (hidentity ?_ h)⟩
  have hdigest : Sha256.digest one.encode ≠ Sha256.digest two.encode := by decide +kernel
  rw [bytes_eq_encode, bytes_eq_encode]
  exact fun h => absurd h hdigest

end Object

end PdfConform
