import Mathlib.Data.Option.Basic
import PdfConform.Proofs.Document.Order
import PdfConform.Proofs.Json.Written

/-! What a dump keeps. A document without reals reads back from its dump as it was, as long as the
dump nests no deeper than reading allows. -/
namespace PdfConform

theorem Text.isBlank_of_isDigit {c : Char} (h : c.isDigit = true) : isBlank c = false := by
  have hrange : 48 ≤ c.toNat ∧ c.toNat ≤ 57 := by
    simpa [Char.isDigit, UInt32.le_iff_toNat_le] using h
  simp [isBlank]
  omega

namespace Version

theorem toList_text (v : Version) :
    v.text.toList = Number.digits v.major ++ '.' :: Number.digits v.minor := by
  simp [text, Number.showNat]

theorem parse_text {v : Version} (h : v.isKnown = true) : parse v.text = .ok v := by
  have hdigit (n : Nat) : ∀ c ∈ Number.digits n, c.isDigit = true :=
    List.all_eq_true.1 (Number.all_isDigit_digits n)
  have htrim : Text.trim v.text.toList = v.text.toList := by
    refine Text.trim_of_noBlank fun c hc => ?_
    rw [toList_text, List.mem_append, List.mem_cons] at hc
    rcases hc with hc | rfl | hc
    · exact Text.isBlank_of_isDigit (hdigit _ c hc)
    · rfl
    · exact Text.isBlank_of_isDigit (hdigit _ c hc)
  have hspan : v.text.toList.span (· != '.') =
      (Number.digits v.major, '.' :: Number.digits v.minor) := by
    rw [toList_text]
    refine span_append (fun c hc => ?_) (by simp)
    rw [bne_iff_ne]
    rintro rfl
    exact absurd (hdigit _ _ hc) (by decide)
  have hmajor : v.major < 256 := v.first.toNat_lt
  have hminor : v.minor < 256 := v.second.toNat_lt
  have hbytes : (⟨.ofNat v.major, .ofNat v.minor⟩ : Version) = v := by simp [major, minor]
  simp only [parse, htrim, hspan, Number.readBelow_digits hmajor,
    Number.readBelow_digits hminor, hbytes, h, if_true]

/-- The known versions are those that some text reads as. -/
theorem isKnown_iff {v : Version} : v.isKnown = true ↔ ∃ s, parse s = .ok v :=
  ⟨fun h => ⟨v.text, parse_text h⟩, fun ⟨_, h⟩ => isKnown_of_parse h⟩

end Version

namespace Json

mutual

/-- How many arrays and records are nested in one another. -/
def depth : Json → Nat
  | .array items => depthOfItems items + 1
  | .object members => depthOfMembers members + 1
  | _ => 0

def depthOfItems : List Json → Nat
  | [] => 0
  | item :: items => max (depth item) (depthOfItems items)

def depthOfMembers : List (Option String × Json) → Nat
  | [] => 0
  | (_, value) :: members => max (depth value) (depthOfMembers members)

end

theorem depthOfItems_le {items : List Json} {n : Nat} :
    depthOfItems items ≤ n ↔ ∀ item ∈ items, item.depth ≤ n := by
  induction items with
  | nil => simp [depthOfItems]
  | cons item items ih => simp only [depthOfItems, Nat.max_le, ih, List.forall_mem_cons]

theorem depthOfMembers_le {members : List (Option String × Json)} {n : Nat} :
    depthOfMembers members ≤ n ↔ ∀ member ∈ members, member.2.depth ≤ n := by
  induction members with
  | nil => simp [depthOfMembers]
  | cons member members ih => simp only [depthOfMembers, Nat.max_le, ih, List.forall_mem_cons]

theorem exists_inner_room {d room : Nat} :
    d + 1 ≤ room ↔ ∃ inner, room = inner + 1 ∧ d ≤ inner := by
  constructor
  · exact fun h => ⟨room - 1, by omega⟩
  · rintro ⟨inner, rfl, h⟩
    exact Nat.succ_le_succ h

/-- Where an array fits, there is room for its items with one level less. -/
theorem depth_array_le {items : List Json} {room : Nat} :
    (Json.array items).depth ≤ room ↔
      ∃ inner, room = inner + 1 ∧ ∀ item ∈ items, item.depth ≤ inner := by
  simp only [depth, exists_inner_room, depthOfItems_le]

theorem depth_object_le {members : List (Option String × Json)} {room : Nat} :
    (Json.object members).depth ≤ room ↔
      ∃ inner, room = inner + 1 ∧ ∀ member ∈ members, member.2.depth ≤ inner := by
  simp only [depth, exists_inner_room, depthOfMembers_le]

theorem toNatBelow?_int {bound n : Nat} (h : n < bound) :
    (Json.int n).toNatBelow? bound = some n := by
  simp [Json.int, toNatBelow?, Numeral.toInt?_ofInt, h]

theorem toByte?_int (b : UInt8) : (Json.int b.toNat).toByte? = some b := by
  simp [toByte?, toNatBelow?_int b.toNat_lt]

end Json

theorem mapM_map_eq_some {α β : Type} {f : β → Option α} {g : α → β} {xs : List α}
    (h : ∀ x ∈ xs, f (g x) = some x) : (xs.map g).mapM f = some xs := by
  induction xs with
  | nil => rfl
  | cons x xs ih =>
    simp [h x List.mem_cons_self, ih fun y hy => h y (List.mem_cons_of_mem _ hy)]

namespace ObjectId

theorem ofParts?_int (id : ObjectId) :
    ofParts? (.int id.number.toNat) (.int id.generation.toNat) = some id := by
  rw [ofParts?, Json.toNatBelow?_int id.number.toNat_lt_size,
    Json.toNatBelow?_int id.generation.toNat_lt_size]
  change some (⟨UInt32.ofNat id.number.toNat, UInt16.ofNat id.generation.toNat⟩ : ObjectId) = _
  rw [UInt32.ofNat_toNat, UInt16.ofNat_toNat]

-- Said of any two values: those of a given id are not to be computed here.
theorem ofMembers?_parts (number generation : Json) :
    ofMembers? [(some "number", number), (some "generation", generation)] =
      ofParts? number generation := by
  simp [ofMembers?, Json.hasTextKeys, Json.field?]

theorem exists_members (id : ObjectId) :
    ∃ members, id.toJson = .object members ∧ ofMembers? members = some id :=
  ⟨_, rfl, (ofMembers?_parts _ _).trans id.ofParts?_int⟩

theorem ofJson?_toJson (id : ObjectId) : ofJson? id.toJson = some id := by
  obtain ⟨members, hjson, hread⟩ := id.exists_members
  rw [hjson]
  exact hread

theorem wellFormed_toJson (id : ObjectId) : id.toJson.WellFormed :=
  .record (by simp [Json.WellFormed.int])

end ObjectId

namespace Object

def HoldsReal (object : Object) : Prop := ∃ x, .real x ∈ object.parts

theorem HoldsReal.outer {object part : Object} (h : part.HoldsReal) (hpart : part ∈ object.inner) :
    object.HoldsReal := by
  obtain ⟨x, hx⟩ := h
  exact ⟨x, parts_trans hx (object.inner_subset_parts hpart)⟩

theorem itemsToJson_eq (items : List Object) : itemsToJson items = items.map toJson := by
  induction items with
  | nil => rfl
  | cons item items ih => simp [itemsToJson, ih]

theorem entriesToJson_eq (entries : List (String × Object)) :
    entriesToJson entries = entries.map fun entry => (some entry.1, entry.2.toJson) := by
  induction entries with
  | nil => rfl
  | cons entry entries ih => simp [entriesToJson, ih]

theorem itemsOfJson?_eq (room : Nat) (items : List Json) :
    itemsOfJson? room items = items.mapM (ofJson? room) := by
  induction items with
  | nil => rfl
  | cons item items ih => simp [itemsOfJson?, ih]

theorem itemsOfJson?_itemsToJson {room : Nat} {items : List Object}
    (h : ∀ item ∈ items, ofJson? room item.toJson = some item) :
    itemsOfJson? room (itemsToJson items) = some items := by
  rw [itemsOfJson?_eq, itemsToJson_eq, mapM_map_eq_some h]

theorem entriesOfJson?_entriesToJson {room : Nat} {soFar entries : Dictionary}
    (h : ∀ entry ∈ entries, ofJson? room entry.2.toJson = some entry.2)
    (hsorted : Ordered.Sorted (soFar ++ entries)) :
    entriesOfJson? room soFar (entriesToJson entries) = some (soFar ++ entries) := by
  induction entries generalizing soFar with
  | nil => simp [entriesToJson, entriesOfJson?]
  | cons entry entries ih =>
    obtain ⟨key, value⟩ := entry
    have hset : soFar.set key value = soFar ++ [(key, value)] :=
      Ordered.set_of_greater value fun d hd =>
        (List.pairwise_append.1 hsorted).2.2 d hd _ List.mem_cons_self
    have hnext : Ordered.Sorted (soFar ++ [(key, value)] ++ entries) := by simpa using hsorted
    have hrest := ih (fun e he => h e (List.mem_cons_of_mem _ he)) hnext
    simp [entriesToJson, entriesOfJson?, h _ List.mem_cons_self, hset, hrest]

theorem ofJson?_record {room : Nat} {kind : String} {payload : Json}
    (h : (Json.record [(kind, payload)]).depth ≤ room) :
    ∃ inner, payload.depth ≤ inner ∧
      ofJson? room (.record [(kind, payload)]) = ofPayload? inner kind payload := by
  obtain ⟨inner, rfl, hinner⟩ := Json.depth_object_le.1 h
  exact ⟨inner, hinner _ (List.mem_singleton.2 rfl), rfl⟩

theorem entriesOfJson?_of_inner {object : Object} {entries : Dictionary} {room : Nat}
    (hentries : object.entries? = some entries) (hordered : object.IsOrdered)
    (hinner : ∀ part ∈ object.inner, ∀ {room}, part.toJson.depth ≤ room →
      ofJson? room part.toJson = some part)
    (hroom : ∀ member ∈ entriesToJson entries, member.2.depth ≤ room) :
    entriesOfJson? room [] (entriesToJson entries) = some entries := by
  refine entriesOfJson?_entriesToJson (fun entry hentry => ?_)
    (hordered object (mem_parts_self object) entries hentries)
  exact hinner entry.2 (inner_entry hentries hentry)
    (hroom (some entry.1, entry.2.toJson) (entriesToJson_eq entries ▸ List.mem_map_of_mem hentry))

theorem ofJson?_toJson (object : Object) (hordered : object.IsOrdered) (hreal : ¬object.HoldsReal)
    {room : Nat} (hroom : object.toJson.depth ≤ room) :
    ofJson? room object.toJson = some object := by
  induction object using inner_induct generalizing room with
  | step object ih =>
  have hinner : ∀ part ∈ object.inner, ∀ {room}, part.toJson.depth ≤ room →
      ofJson? room part.toJson = some part := fun part hpart _ =>
    ih part hpart (hordered.inner hpart) fun h => hreal (h.outer hpart)
  cases object with
  | null => simp [toJson, Json.text, ofJson?]
  | boolean b =>
    obtain ⟨inner, -, heq⟩ := ofJson?_record hroom
    rw [toJson, heq]
    rfl
  | integer i =>
    obtain ⟨inner, -, heq⟩ := ofJson?_record hroom
    rw [toJson, heq]
    simp [ofPayload?, Json.int, Numeral.toInt?_ofInt, Number.toInt64?_toInt]
  | real x => exact absurd ⟨x, mem_parts_self _⟩ hreal
  | string s =>
    obtain ⟨inner, -, heq⟩ := ofJson?_record hroom
    rw [toJson, heq]
    rfl
  | name s =>
    obtain ⟨inner, -, heq⟩ := ofJson?_record hroom
    rw [toJson, heq]
    rfl
  | array items =>
    obtain ⟨inner, hpayload, heq⟩ := ofJson?_record hroom
    obtain ⟨room, rfl, hitems⟩ := Json.depth_array_le.1 hpayload
    have hread : ∀ item ∈ items, ofJson? room item.toJson = some item := fun item hitem =>
      hinner item (inner_item hitem) (hitems _ (itemsToJson_eq items ▸ List.mem_map_of_mem hitem))
    rw [toJson, heq]
    simp [ofPayload?, itemsOfJson?_itemsToJson hread]
  | dictionary entries =>
    obtain ⟨inner, hpayload, heq⟩ := ofJson?_record hroom
    obtain ⟨room, rfl, hentries⟩ := Json.depth_object_le.1 hpayload
    have hread := entriesOfJson?_of_inner rfl hordered hinner hentries
    rw [toJson, heq]
    simp [ofPayload?, hread]
  | stream entries data =>
    obtain ⟨inner, hpayload, heq⟩ := ofJson?_record hroom
    obtain ⟨room, rfl, hfields⟩ := Json.depth_object_le.1 hpayload
    obtain ⟨room, rfl, hentries⟩ := Json.depth_object_le.1 (hfields _ List.mem_cons_self)
    have hread := entriesOfJson?_of_inner rfl hordered hinner hentries
    have hdata : (data.map fun b => Json.int b.toNat).mapM Json.toByte? = some data :=
      mapM_map_eq_some fun b _ => Json.toByte?_int b
    rw [toJson, heq]
    simp [Json.record, ofPayload?, streamOfMembers?, hread, hdata]
  | reference id =>
    obtain ⟨members, hjson, hread⟩ := id.exists_members
    obtain ⟨inner, hpayload, heq⟩ := ofJson?_record hroom
    rw [toJson, heq]
    rw [hjson] at hpayload ⊢
    obtain ⟨room, rfl, -⟩ := Json.depth_object_le.1 hpayload
    simp [ofPayload?, hread]

theorem wellFormed_entriesToJson {entries : Dictionary}
    (h : ∀ entry ∈ entries, entry.2.toJson.WellFormed) :
    (Json.object (entriesToJson entries)).WellFormed := by
  have heq : Json.object (entriesToJson entries) =
      .record (entries.map fun entry => (entry.1, entry.2.toJson)) := by
    simp [entriesToJson_eq, Json.record]
  rw [heq]
  exact .record (List.forall_mem_map.2 h)

theorem wellFormed_toJson (object : Object) (hreal : ¬object.HoldsReal) :
    object.toJson.WellFormed := by
  induction object using inner_induct with
  | step object ih =>
  have hinner : ∀ part ∈ object.inner, part.toJson.WellFormed := fun part hpart =>
    ih part hpart fun h => hreal (h.outer hpart)
  cases object with
  | null => exact .text _
  | boolean b => exact .record (by simp [Json.WellFormed.bool])
  | integer i => exact .record (by simp [Json.WellFormed.int])
  | real x => exact absurd ⟨x, mem_parts_self _⟩ hreal
  | string s => exact .record (by simp [Json.WellFormed.text])
  | name s => exact .record (by simp [Json.WellFormed.text])
  | array items =>
    have hitems : (Json.array (itemsToJson items)).WellFormed := by
      rw [itemsToJson_eq]
      exact .array (List.forall_mem_map.2 fun item hitem => hinner item (inner_item hitem))
    exact .record (by simp [hitems])
  | dictionary entries =>
    have hentries := wellFormed_entriesToJson fun entry hentry =>
      hinner entry.2 (inner_entry rfl hentry)
    exact .record (by simp [hentries])
  | stream entries data =>
    have hentries := wellFormed_entriesToJson fun entry hentry =>
      hinner entry.2 (inner_entry rfl hentry)
    have hdata : (Json.array (data.map fun b => .int b.toNat)).WellFormed :=
      .array (List.forall_mem_map.2 fun b _ => .int b.toNat)
    have hstream : (Json.record [("dictionary", .object (entriesToJson entries)),
        ("data", .array (data.map fun b => .int b.toNat))]).WellFormed :=
      .record (by simp only [List.forall_mem_cons, hentries, hdata]; simp)
    exact .record (by simp [hstream])
  | reference id => exact .record (by simp [id.wellFormed_toJson])

end Object

namespace Store

def HoldsReal (s : Store) : Prop :=
  (Object.dictionary s.trailer).HoldsReal ∨ ∃ entry ∈ s.objects, entry.2.HoldsReal

theorem indirectOfJson?_record {room : Nat} {idJson json : Json} {id : ObjectId} {object : Object}
    (hid : ObjectId.ofJson? idJson = some id) (h : Object.ofJson? (room - 1) json = some object) :
    indirectOfJson? room (.record [("id", idJson), ("object", json)]) = some (id, object) := by
  simp [indirectOfJson?, Json.record, Json.hasTextKeys, Json.field?, hid, h]

theorem versionOfJson?_text {version : Option Version} (h : ∀ v ∈ version, v.isKnown = true) :
    versionOfJson? (version.elim .null fun v => .text v.text) = some version := by
  cases version with
  | none => rfl
  | some v => simp [versionOfJson?, Json.text, Version.parse_text (h v rfl), Except.toOption]

def indirectToJson (entry : ObjectId × Object) : Json :=
  .record [("id", entry.1.toJson), ("object", entry.2.toJson)]

theorem toJson_eq (s : Store) :
    s.toJson = .record [
      ("version", s.version.elim .null fun v => .text v.text),
      ("trailer", .object (Object.entriesToJson s.trailer)),
      ("objects", .array (s.objects.map indirectToJson))] := rfl

theorem wellFormed_toJson {s : Store} (hreal : ¬s.HoldsReal) : s.toJson.WellFormed := by
  refine .record fun member hmember => ?_
  simp only [List.mem_cons, List.not_mem_nil, or_false] at hmember
  rcases hmember with rfl | rfl | rfl
  · cases s.version with
    | none => exact .null
    | some v => exact .text v.text
  · refine Object.wellFormed_entriesToJson fun entry hentry => entry.2.wellFormed_toJson fun h => ?_
    exact hreal (.inl (h.outer (Object.inner_entry rfl hentry)))
  · refine .array fun value hvalue => ?_
    obtain ⟨entry, hentry, rfl⟩ := List.mem_map.1 hvalue
    have hobject := entry.2.wellFormed_toJson fun h => hreal (.inr ⟨entry, hentry, h⟩)
    exact .record (by simp [entry.1.wellFormed_toJson, hobject])

theorem trailerOfJson?_entriesToJson {trailer : Dictionary} {room : Nat}
    (hordered : (Object.dictionary trailer).IsOrdered)
    (hreal : ¬(Object.dictionary trailer).HoldsReal)
    (hroom : (Json.object (Object.entriesToJson trailer)).depth ≤ room) :
    trailerOfJson? room (.object (Object.entriesToJson trailer)) = some trailer := by
  obtain ⟨inner, rfl, hinner⟩ := Json.depth_object_le.1 hroom
  have hread := Object.entriesOfJson?_of_inner rfl hordered
    (fun part hpart _ =>
      part.ofJson?_toJson (hordered.inner hpart) fun h => hreal (h.outer hpart)) hinner
  simp [trailerOfJson?, hread]

theorem objectsOfJson?_map {objects : List (ObjectId × Object)} {room : Nat}
    (hsorted : Ordered.Sorted objects) (hordered : ∀ entry ∈ objects, entry.2.IsOrdered)
    (hreal : ∀ entry ∈ objects, ¬entry.2.HoldsReal)
    (hroom : (Json.array (objects.map indirectToJson)).depth ≤ room) :
    objectsOfJson? room (.array (objects.map indirectToJson)) = some objects := by
  obtain ⟨inner, rfl, hinner⟩ := Json.depth_array_le.1 hroom
  have hread : ∀ entry ∈ objects, indirectOfJson? inner (indirectToJson entry) = some entry := by
    intro entry hentry
    obtain ⟨room, rfl, hfields⟩ := Json.depth_object_le.1
      (hinner _ (List.mem_map_of_mem hentry))
    refine indirectOfJson?_record entry.1.ofJson?_toJson ?_
    refine entry.2.ofJson?_toJson (hordered entry hentry) (hreal entry hentry) ?_
    exact hfields (some "object", entry.2.toJson) (by simp)
  simp [objectsOfJson?, mapM_map_eq_some hread, Ordered.ofList_of_sorted hsorted]

theorem ofJson?_record {version trailer objects : Json} :
    ofJson? (.record [("version", version), ("trailer", trailer), ("objects", objects)]) =
      ofFields? (Json.depthLimit - 1) (some version) (some trailer) (some objects) := by
  simp [ofJson?, Json.record, Json.hasTextKeys, Json.field?]

theorem ofJson?_toJson {s : Store} (hversion : ∀ v ∈ s.version, v.isKnown = true)
    (hordered : s.IsOrdered) (hreal : ¬s.HoldsReal)
    (hdepth : s.toJson.depth ≤ Json.depthLimit) : ofJson? s.toJson = some s := by
  obtain ⟨room, hlimit, hfields⟩ := Json.depth_object_le.1 hdepth
  have hroom : Json.depthLimit - 1 = room := Nat.sub_eq_of_eq_add hlimit
  have htrailer := trailerOfJson?_entriesToJson hordered.trailer (fun h => hreal (.inl h))
    (hfields (some "trailer", .object (Object.entriesToJson s.trailer)) (by simp))
  have hobjects := objectsOfJson?_map hordered.objects hordered.object
    (fun entry hentry h => hreal (.inr ⟨entry, hentry, h⟩))
    (hfields (some "objects", .array (s.objects.map indirectToJson)) (by simp [indirectToJson]))
  rw [toJson_eq, ofJson?_record, hroom]
  simp [ofFields?, versionOfJson?_text hversion, htrailer, hobjects]

/-- A document of a known version or of none, held in order and without reals, reads back from its
dump as it was: the version, the trailer, and each id with its object. -/
theorem parse_dump {s : Store} (hversion : ∀ v ∈ s.version, v.isKnown = true)
    (hordered : s.IsOrdered) (hreal : ¬s.HoldsReal)
    (hdepth : s.toJson.depth ≤ Json.depthLimit) : parse s.dump = some s := by
  rw [parse, dump, Json.parse_pretty (wellFormed_toJson hreal)]
  exact ofJson?_toJson hversion hordered hreal hdepth

/-- Texts with every kind of escape, the ends of the ranges of numbers, an empty key. -/
def specimen : Store where
  version := some ⟨1, 7⟩
  trailer := [("Info", .string "\"\\ \n\x00\x1f\x7f é😀"), ("Root", .reference ⟨1, 0⟩)]
  objects := [
    (⟨1, 0⟩, .dictionary [("", .array [.null, .array [], .boolean true]),
      ("Type", .name "Catalog")]),
    (⟨4294967295, 65535⟩, .stream [("Length", .integer (-9223372036854775808))] [0, 255])]

theorem parse_dump_specimen : (∀ v ∈ specimen.version, v.isKnown = true) ∧
    specimen.IsOrdered ∧ ¬specimen.HoldsReal ∧ specimen.toJson.depth ≤ Json.depthLimit ∧
    parse specimen.dump = some specimen := by
  have hversion : ∀ v ∈ specimen.version, v.isKnown = true := by decide
  have hordered : specimen.IsOrdered := by decide
  have hreal : ¬specimen.HoldsReal := by
    simp [specimen, HoldsReal, Object.HoldsReal, Object.parts, Object.partsOfEntries,
      Object.partsOfItems]
  have hdepth : specimen.toJson.depth ≤ Json.depthLimit := by decide
  exact ⟨hversion, hordered, hreal, hdepth, parse_dump hversion hordered hreal hdepth⟩

end Store

end PdfConform
