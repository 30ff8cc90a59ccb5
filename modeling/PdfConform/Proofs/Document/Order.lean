import PdfConform.Document.Dump
import PdfConform.Proofs.Document.Reach

/-! The order in which documents are held: objects by their ids, entries by their keys. Reading a
dump gives a document in this order, however the dump has its own. -/
namespace PdfConform

theorem forall_of_mapM {α β : Type} {f : α → Option β} {P : β → Prop}
    (hf : ∀ {x : α} {y : β}, f x = some y → P y) {xs : List α} {ys : List β}
    (h : xs.mapM f = some ys) : ∀ y ∈ ys, P y := by
  induction xs generalizing ys with
  | nil => cases h; nofun
  | cons x xs ih =>
    rw [List.mapM_cons] at h
    obtain ⟨y, hy, hmore⟩ := Option.bind_eq_some_iff.1 h
    obtain ⟨others, hothers, hys⟩ := Option.bind_eq_some_iff.1 hmore
    cases hys
    exact List.forall_mem_cons.2 ⟨hf hy, ih hothers⟩

namespace Object

/-- Every dictionary in an object has its entries in the order of their keys. -/
def IsOrdered (object : Object) : Prop :=
  ∀ part ∈ object.parts, ∀ entries ∈ part.entries?, Ordered.Sorted entries

instance (object : Object) : Decidable object.IsOrdered :=
  inferInstanceAs (Decidable
    (∀ part ∈ object.parts, ∀ entries ∈ part.entries?, entries.Pairwise fun a b => a.1 < b.1))

theorem IsOrdered.inner {object part : Object} (h : object.IsOrdered)
    (hpart : part ∈ object.inner) : part.IsOrdered :=
  fun _ hmem => h _ (parts_trans hmem (object.inner_subset_parts hpart))

theorem isOrdered_of_inner {object : Object}
    (hown : ∀ entries ∈ object.entries?, Ordered.Sorted entries)
    (hinner : ∀ part ∈ object.inner, part.IsOrdered) : object.IsOrdered := by
  unfold IsOrdered
  rw [parts_eq]
  exact List.forall_mem_cons.2
    ⟨hown, fun part hpart => hinner part hpart part (mem_parts_self part)⟩

theorem isOrdered_array {items : List Object} :
    (Object.array items).IsOrdered ↔ ∀ item ∈ items, item.IsOrdered := by
  constructor
  · exact fun h item hitem => h.inner (inner_item hitem)
  · intro h
    refine isOrdered_of_inner nofun fun part hpart => ?_
    obtain ⟨item, hitem, hpart⟩ := mem_partsOfItems.1 hpart
    exact fun _ hmem => h item hitem _ (parts_trans hmem hpart)

theorem isOrdered_entries {object : Object} {entries : Dictionary}
    (hentries : object.entries? = some entries) :
    object.IsOrdered ↔ Ordered.Sorted entries ∧ ∀ entry ∈ entries, entry.2.IsOrdered := by
  constructor
  · exact fun h => ⟨h object (mem_parts_self object) entries hentries,
      fun entry hentry => h.inner (inner_entry hentries hentry)⟩
  · rintro ⟨hsorted, h⟩
    refine isOrdered_of_inner (fun own hown => ?_) fun part hpart => ?_
    · rw [hentries] at hown
      cases hown
      exact hsorted
    · have hpart : part ∈ partsOfEntries entries := by
        cases object with
        | dictionary own => cases hentries; exact hpart
        | stream own data => cases hentries; exact hpart
        | _ => cases hentries
      obtain ⟨entry, hentry, hpart⟩ := mem_partsOfEntries.1 hpart
      exact fun _ hmem => h entry hentry _ (parts_trans hmem hpart)

theorem isOrdered_stream {entries : Dictionary} (h : (Object.dictionary entries).IsOrdered)
    (data : List UInt8) : (Object.stream entries data).IsOrdered :=
  (isOrdered_entries rfl).2 ((isOrdered_entries rfl).1 h)

theorem isOrdered_nil : (Object.dictionary []).IsOrdered :=
  (isOrdered_entries rfl).2 ⟨List.Pairwise.nil, nofun⟩

theorem isOrdered_set {d : Dictionary} {value : Object} (hd : (Object.dictionary d).IsOrdered)
    (hvalue : value.IsOrdered) (key : String) :
    (Object.dictionary (d.set key value)).IsOrdered := by
  obtain ⟨hsorted, hentries⟩ := (isOrdered_entries rfl).1 hd
  refine (isOrdered_entries rfl).2 ⟨Ordered.sorted_set key value hsorted, fun entry hentry => ?_⟩
  rcases Ordered.mem_set hentry with rfl | hentry
  · exact hvalue
  · exact hentries entry hentry

theorem isOrdered_of_direct {object : Object} (hown : object.entries? = none)
    (hinner : object.inner = []) : object.IsOrdered :=
  isOrdered_of_inner (by rw [hown]; nofun) (by rw [hinner]; nofun)

mutual

theorem isOrdered_of_ofJson? (j : Json) {room : Nat} {object : Object}
    (h : ofJson? room j = some object) : object.IsOrdered := by
  unfold ofJson? at h
  split at h
  · split at h
    · cases h; exact isOrdered_of_direct rfl rfl
    · cases h
  · next kind payload =>
    split at h
    · cases h
    · exact isOrdered_of_ofPayload? payload h
  · cases h
termination_by sizeOf j

theorem isOrdered_of_ofPayload? (payload : Json) {room : Nat} {kind : String} {object : Object}
    (h : ofPayload? room kind payload = some object) : object.IsOrdered := by
  unfold ofPayload? at h
  split at h
  · split at h
    · cases h; exact isOrdered_of_direct rfl rfl
    · cases h
  · split at h
    · cases h; exact isOrdered_of_direct rfl rfl
    · cases h
  · split at h
    · obtain ⟨i, _, rfl⟩ := Option.map_eq_some_iff.1 h
      exact isOrdered_of_direct rfl rfl
    · split at h
      · obtain ⟨x, _, rfl⟩ := Option.map_eq_some_iff.1 h
        exact isOrdered_of_direct rfl rfl
      · cases h
  · cases h
  · split at h
    · cases h; exact isOrdered_of_direct rfl rfl
    · split at h
      · cases h; exact isOrdered_of_direct rfl rfl
      · cases h
  · next items =>
    split at h
    · cases h
    · split at h
      · obtain ⟨read, hread, rfl⟩ := Option.map_eq_some_iff.1 h
        exact isOrdered_array.2 (isOrdered_of_itemsOfJson? items hread)
      · split at h
        · obtain ⟨id, _, rfl⟩ := Option.map_eq_some_iff.1 h
          exact isOrdered_of_direct rfl rfl
        · split at h
          · exact isOrdered_of_streamOfItems? items h
          · cases h
  · next members =>
    split at h
    · cases h
    · split at h
      · obtain ⟨entries, hread, rfl⟩ := Option.map_eq_some_iff.1 h
        exact isOrdered_of_entriesOfJson? members isOrdered_nil hread
      · split at h
        · obtain ⟨id, _, rfl⟩ := Option.map_eq_some_iff.1 h
          exact isOrdered_of_direct rfl rfl
        · split at h
          · exact isOrdered_of_streamOfMembers? members (by simp) h
          · cases h
termination_by sizeOf payload

theorem isOrdered_of_itemsOfJson? (items : List Json) {room : Nat} {read : List Object}
    (h : itemsOfJson? room items = some read) : ∀ item ∈ read, item.IsOrdered := by
  match items with
  | [] => cases h; nofun
  | item :: items =>
    obtain ⟨object, hobject, hmore⟩ := Option.bind_eq_some_iff.1 h
    obtain ⟨others, hothers, hread⟩ := Option.bind_eq_some_iff.1 hmore
    cases hread
    exact List.forall_mem_cons.2
      ⟨isOrdered_of_ofJson? item hobject, isOrdered_of_itemsOfJson? items hothers⟩
termination_by sizeOf items

theorem isOrdered_of_entriesOfJson? (members : List (Option String × Json)) {room : Nat}
    {soFar entries : Dictionary} (hsoFar : (Object.dictionary soFar).IsOrdered)
    (h : entriesOfJson? room soFar members = some entries) :
    (Object.dictionary entries).IsOrdered := by
  match members with
  | [] => cases h; exact hsoFar
  | (none, _) :: _ => cases h
  | (some key, value) :: members =>
    obtain ⟨object, hobject, hmore⟩ := Option.bind_eq_some_iff.1 h
    exact isOrdered_of_entriesOfJson? members
      (isOrdered_set hsoFar (isOrdered_of_ofJson? value hobject) key) hmore
termination_by sizeOf members

theorem isOrdered_of_streamOfItems? (items : List Json) {room : Nat} {object : Object}
    (h : streamOfItems? room items = some object) : object.IsOrdered := by
  unfold streamOfItems? at h
  split at h
  · next members =>
    split at h
    · cases h
    · obtain ⟨entries, hread, rfl⟩ := Option.map_eq_some_iff.1 h
      exact isOrdered_stream (isOrdered_of_entriesOfJson? members isOrdered_nil hread) []
  · next members bytes =>
    split at h
    · cases h
    · obtain ⟨entries, hread, hmore⟩ := Option.bind_eq_some_iff.1 h
      obtain ⟨data, _, hobject⟩ := Option.bind_eq_some_iff.1 hmore
      cases hobject
      exact isOrdered_stream (isOrdered_of_entriesOfJson? members isOrdered_nil hread) data
  · cases h
termination_by sizeOf items

theorem isOrdered_of_streamOfMembers? (members : List (Option String × Json)) {room : Nat}
    {entries : Option Dictionary} {data : Option (List UInt8)} {object : Object}
    (hentries : ∀ found ∈ entries, (Object.dictionary found).IsOrdered)
    (h : streamOfMembers? room entries data members = some object) : object.IsOrdered := by
  unfold streamOfMembers? at h
  split at h
  · obtain ⟨found, hfound, rfl⟩ := Option.map_eq_some_iff.1 h
    exact isOrdered_stream (hentries found hfound) _
  · cases h
  · next key fields members =>
    split at h
    · split at h
      · cases h
      · obtain ⟨found, hfound, hmore⟩ := Option.bind_eq_some_iff.1 h
        have hread := isOrdered_of_entriesOfJson? fields isOrdered_nil hfound
        exact isOrdered_of_streamOfMembers? members (by simpa using hread) hmore
    · split at h
      · cases h
      · exact isOrdered_of_streamOfMembers? members hentries h
  · next key bytes members =>
    split at h
    · split at h
      · cases h
      · obtain ⟨found, _, hmore⟩ := Option.bind_eq_some_iff.1 h
        exact isOrdered_of_streamOfMembers? members hentries hmore
    · split at h
      · cases h
      · exact isOrdered_of_streamOfMembers? members hentries h
  · next key value members _ _ =>
    split at h
    · cases h
    · exact isOrdered_of_streamOfMembers? members hentries h
termination_by sizeOf members

end

end Object

namespace Store

/-- Objects are in the order of their ids, and entries in the order of their keys. -/
structure IsOrdered (s : Store) : Prop where
  objects : Ordered.Sorted s.objects
  trailer : (Object.dictionary s.trailer).IsOrdered
  object : ∀ entry ∈ s.objects, entry.2.IsOrdered

theorem isOrdered_iff (s : Store) : s.IsOrdered ↔
    s.objects.Pairwise (fun a b => a.1 < b.1) ∧ (Object.dictionary s.trailer).IsOrdered ∧
      ∀ entry ∈ s.objects, entry.2.IsOrdered :=
  ⟨fun h => ⟨h.objects, h.trailer, h.object⟩, fun h => ⟨h.1, h.2.1, h.2.2⟩⟩

instance (s : Store) : Decidable s.IsOrdered := decidable_of_iff' _ s.isOrdered_iff

theorem isOrdered_empty : empty.IsOrdered := ⟨List.Pairwise.nil, Object.isOrdered_nil, nofun⟩

theorem IsOrdered.insert {s : Store} (h : s.IsOrdered) (id : ObjectId) {object : Object}
    (hobject : object.IsOrdered) : (s.insert id object).IsOrdered where
  objects := Ordered.sorted_set id object h.objects
  trailer := h.trailer
  object entry hentry := by
    rcases Ordered.mem_set hentry with rfl | hentry
    · exact hobject
    · exact h.object entry hentry

theorem isOrdered_of_indirectOfJson? {room : Nat} {j : Json} {entry : ObjectId × Object}
    (h : indirectOfJson? room j = some entry) : entry.2.IsOrdered := by
  have hpair {idJson json : Json} (hread : (ObjectId.ofJson? idJson).bind (fun id =>
      (Object.ofJson? (room - 1) json).bind fun object => some (id, object)) = some entry) :
      entry.2.IsOrdered := by
    obtain ⟨id, _, hobject⟩ := Option.bind_eq_some_iff.1 hread
    obtain ⟨object, hjson, hentry⟩ := Option.bind_eq_some_iff.1 hobject
    cases hentry
    exact Object.isOrdered_of_ofJson? json hjson
  unfold indirectOfJson? at h
  dsimp only at h
  split at h
  · obtain ⟨_, _, hkeys⟩ := Option.bind_eq_some_iff.1 h
    obtain ⟨_, _, hid⟩ := Option.bind_eq_some_iff.1 hkeys
    obtain ⟨_, _, hfield⟩ := Option.bind_eq_some_iff.1 hid
    obtain ⟨_, _, hobject⟩ := Option.bind_eq_some_iff.1 hfield
    obtain ⟨_, _, hread⟩ := Option.bind_eq_some_iff.1 hobject
    exact hpair hread
  · exact hpair h
  · cases h

theorem isOrdered_of_objectsOfJson? {room : Nat} {j : Json} {objects : List (ObjectId × Object)}
    (h : objectsOfJson? room j = some objects) :
    Ordered.Sorted objects ∧ ∀ entry ∈ objects, entry.2.IsOrdered := by
  unfold objectsOfJson? at h
  split at h
  · obtain ⟨found, hfound, rfl⟩ := Option.map_eq_some_iff.1 h
    have hread := forall_of_mapM isOrdered_of_indirectOfJson? hfound
    exact ⟨Ordered.sorted_ofList found,
      fun entry hentry => hread entry (Ordered.mem_of_mem_ofList hentry)⟩
  · cases h

theorem isOrdered_of_trailerOfJson? {room : Nat} {j : Json} {trailer : Dictionary}
    (h : trailerOfJson? room j = some trailer) : (Object.dictionary trailer).IsOrdered := by
  unfold trailerOfJson? at h
  split at h
  · next members =>
    split at h
    · cases h
    · exact Object.isOrdered_of_entriesOfJson? members Object.isOrdered_nil h
  · cases h

theorem isOrdered_of_ofFields? {room : Nat} {version trailer objects : Option Json} {s : Store}
    (h : ofFields? room version trailer objects = some s) : s.IsOrdered := by
  obtain ⟨v, _, hv⟩ := Option.bind_eq_some_iff.1 h
  obtain ⟨t, htrailer, ht⟩ := Option.bind_eq_some_iff.1 hv
  obtain ⟨o, hobjects, ho⟩ := Option.bind_eq_some_iff.1 ht
  cases ho
  have hsorted : Ordered.Sorted o ∧ ∀ entry ∈ o, entry.2.IsOrdered := by
    cases objects with
    | none => cases hobjects; exact ⟨List.Pairwise.nil, nofun⟩
    | some j => exact isOrdered_of_objectsOfJson? hobjects
  have hentries : (Object.dictionary t).IsOrdered := by
    cases trailer with
    | none => cases htrailer; exact Object.isOrdered_nil
    | some j => exact isOrdered_of_trailerOfJson? htrailer
  exact ⟨hsorted.1, hentries, hsorted.2⟩

theorem isOrdered_of_parse {text : String} {s : Store} (h : parse text = some s) :
    s.IsOrdered := by
  obtain ⟨j, _, hj⟩ := Option.bind_eq_some_iff.1 h
  unfold ofJson? at hj
  split at hj
  · obtain ⟨_, _, hversion⟩ := Option.bind_eq_some_iff.1 hj
    obtain ⟨version, _, htrailer⟩ := Option.bind_eq_some_iff.1 hversion
    obtain ⟨trailer, _, hobjects⟩ := Option.bind_eq_some_iff.1 htrailer
    obtain ⟨objects, _, hread⟩ := Option.bind_eq_some_iff.1 hobjects
    exact isOrdered_of_ofFields? hread
  · split at hj
    · exact isOrdered_of_ofFields? hj
    · cases hj
  · cases hj

end Store

end PdfConform
