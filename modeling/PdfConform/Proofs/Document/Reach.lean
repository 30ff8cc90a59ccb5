import Mathlib.Algebra.Order.BigOperators.Group.List
import Mathlib.Algebra.Order.Group.Nat
import PdfConform.Document.Fingerprint
import PdfConform.Document.Store

/-! What can be reached from an object through its parts and through references, and how many
identities that can have. -/
namespace PdfConform

namespace Object

mutual

/-- The objects in this one, itself included. -/
def parts : Object → List Object
  | .array items => .array items :: partsOfItems items
  | .dictionary entries => .dictionary entries :: partsOfEntries entries
  | .stream entries data => .stream entries data :: partsOfEntries entries
  | object => [object]

def partsOfItems : List Object → List Object
  | [] => []
  | item :: items => parts item ++ partsOfItems items

def partsOfEntries : List (String × Object) → List Object
  | [] => []
  | (_, value) :: entries => parts value ++ partsOfEntries entries

end

theorem mem_parts_self (object : Object) : object ∈ object.parts := by
  cases object <;> simp [parts]

theorem mem_partsOfItems {items : List Object} {object : Object} :
    object ∈ partsOfItems items ↔ ∃ item ∈ items, object ∈ item.parts := by
  induction items with
  | nil => simp [partsOfItems]
  | cons item items ih => simp [partsOfItems, ih]

theorem mem_partsOfEntries {entries : Dictionary} {object : Object} :
    object ∈ partsOfEntries entries ↔ ∃ entry ∈ entries, object ∈ entry.2.parts := by
  induction entries with
  | nil => simp [partsOfEntries]
  | cons entry entries ih => simp [partsOfEntries, ih]

mutual

theorem length_parts (object : Object) : object.parts.length = object.size := by
  cases object with
  | array items => simp only [parts, size, List.length_cons, length_partsOfItems items]; omega
  | dictionary entries =>
    simp only [parts, size, List.length_cons, length_partsOfEntries entries]; omega
  | stream entries data =>
    simp only [parts, size, List.length_cons, length_partsOfEntries entries]; omega
  | _ => rfl

theorem length_partsOfItems (items : List Object) :
    (partsOfItems items).length = sizeOfItems items := by
  cases items with
  | nil => rfl
  | cons item items =>
    simp only [partsOfItems, sizeOfItems, List.length_append, length_parts item,
      length_partsOfItems items]

theorem length_partsOfEntries (entries : List (String × Object)) :
    (partsOfEntries entries).length = sizeOfEntries entries := by
  cases entries with
  | nil => rfl
  | cons entry entries =>
    obtain ⟨key, value⟩ := entry
    simp only [partsOfEntries, sizeOfEntries, List.length_append, length_parts value,
      length_partsOfEntries entries]

end

mutual

theorem parts_trans {a b c : Object} (h : a ∈ b.parts) (k : b ∈ c.parts) : a ∈ c.parts := by
  cases c with
  | array items =>
    rcases List.mem_cons.1 k with rfl | k
    · exact h
    · exact List.mem_cons_of_mem _ (partsOfItems_trans h k)
  | dictionary entries =>
    rcases List.mem_cons.1 k with rfl | k
    · exact h
    · exact List.mem_cons_of_mem _ (partsOfEntries_trans h k)
  | stream entries data =>
    rcases List.mem_cons.1 k with rfl | k
    · exact h
    · exact List.mem_cons_of_mem _ (partsOfEntries_trans h k)
  | _ => rw [List.mem_singleton.1 k] at h; exact h

theorem partsOfItems_trans {a b : Object} {items : List Object} (h : a ∈ b.parts)
    (k : b ∈ partsOfItems items) : a ∈ partsOfItems items := by
  cases items with
  | nil => cases k
  | cons item items =>
    rcases List.mem_append.1 k with k | k
    · exact List.mem_append_left _ (parts_trans h k)
    · exact List.mem_append_right _ (partsOfItems_trans h k)

theorem partsOfEntries_trans {a b : Object} {entries : List (String × Object)} (h : a ∈ b.parts)
    (k : b ∈ partsOfEntries entries) : a ∈ partsOfEntries entries := by
  cases entries with
  | nil => cases k
  | cons entry entries =>
    obtain ⟨key, value⟩ := entry
    rcases List.mem_append.1 k with k | k
    · exact List.mem_append_left _ (parts_trans h k)
    · exact List.mem_append_right _ (partsOfEntries_trans h k)

end

/-- The objects in this one, without itself. -/
def inner (object : Object) : List Object := object.parts.tail

theorem parts_eq (object : Object) : object.parts = object :: object.inner := by
  cases object <;> rfl

theorem inner_subset_parts (object : Object) : object.inner ⊆ object.parts :=
  fun _ => List.mem_of_mem_tail

theorem inner_of_mem {a b c : Object} (h : a ∈ b.inner) (k : b ∈ c.parts) : a ∈ c.inner := by
  rw [parts_eq] at k
  rcases List.mem_cons.1 k with rfl | k
  · exact h
  · have hpart := b.inner_subset_parts h
    cases c with
    | array items => exact partsOfItems_trans hpart k
    | dictionary entries => exact partsOfEntries_trans hpart k
    | stream entries data => exact partsOfEntries_trans hpart k
    | _ => cases k

theorem length_inner (object : Object) : object.inner.length ≤ object.size := by
  rw [← length_parts, parts_eq, List.length_cons]
  exact Nat.le_succ _

theorem inner_item {items : List Object} {item : Object} (h : item ∈ items) :
    item ∈ (Object.array items).inner :=
  mem_partsOfItems.2 ⟨item, h, item.mem_parts_self⟩

theorem inner_entry {object value : Object} {entries : Dictionary} {key : String}
    (hentries : object.entries? = some entries) (h : (key, value) ∈ entries) :
    value ∈ object.inner := by
  have hmem : value ∈ partsOfEntries entries :=
    mem_partsOfEntries.2 ⟨_, h, value.mem_parts_self⟩
  cases object with
  | dictionary own => cases hentries; exact hmem
  | stream own data => cases hentries; exact hmem
  | _ => cases hentries

mutual

private theorem forall_inner {P : Object → Prop}
    (step : ∀ object : Object, (∀ part ∈ object.inner, P part) → P object) :
    ∀ object : Object, ∀ part ∈ object.inner, P part
  | .array items => forall_partsOfItems step items
  | .dictionary entries | .stream entries _ => forall_partsOfEntries step entries
  | .null | .boolean _ | .integer _ | .real _ | .string _ | .name _ | .reference _ => nofun

private theorem forall_partsOfItems {P : Object → Prop}
    (step : ∀ object : Object, (∀ part ∈ object.inner, P part) → P object) :
    ∀ items : List Object, ∀ part ∈ partsOfItems items, P part
  | [] => nofun
  | item :: items => by
    have hitem := forall_inner step item
    rw [partsOfItems, parts_eq]
    exact List.forall_mem_append.2
      ⟨List.forall_mem_cons.2 ⟨step item hitem, hitem⟩, forall_partsOfItems step items⟩

private theorem forall_partsOfEntries {P : Object → Prop}
    (step : ∀ object : Object, (∀ part ∈ object.inner, P part) → P object) :
    ∀ entries : List (String × Object), ∀ part ∈ partsOfEntries entries, P part
  | [] => nofun
  | (_, value) :: entries => by
    have hvalue := forall_inner step value
    rw [partsOfEntries, parts_eq]
    exact List.forall_mem_append.2
      ⟨List.forall_mem_cons.2 ⟨step value hvalue, hvalue⟩, forall_partsOfEntries step entries⟩

end

/-- What holds of an object once it holds of all the objects in it holds of every object. -/
theorem inner_induct {P : Object → Prop}
    (step : ∀ object : Object, (∀ part ∈ object.inner, P part) → P object) (object : Object) :
    P object :=
  step object (forall_inner step object)

end Object

/-- Objects that no reference, item or entry leads out of. -/
structure Store.Closed (store : Store) (known : Object → Prop) : Prop where
  resolved {id : ObjectId} {object : Object} : store.resolve id = some object → known object
  item {items : List Object} {object : Object} :
    known (.array items) → object ∈ items → known object
  entry {object : Object} {entries : Dictionary} {key : String} {value : Object} :
    known object → object.entries? = some entries → (key, value) ∈ entries → known value

/-- What is held by such objects is nested in one of them, or in one that a reference names. -/
structure Store.Spans (store : Store) (held nested : Object → Prop) : Prop where
  resolved {id : ObjectId} {object : Object} : store.resolve id = some object → held object
  item {items : List Object} {object : Object} :
    held (.array items) → object ∈ items → nested object
  entry {object : Object} {entries : Dictionary} {key : String} {value : Object} :
    held object → object.entries? = some entries → (key, value) ∈ entries → nested value
  holds {object : Object} : nested object → held object

namespace Store

theorem Closed.spans {store : Store} {known : Object → Prop} (h : store.Closed known) :
    store.Spans known known :=
  ⟨h.resolved, h.item, h.entry, id⟩

theorem closed_true (store : Store) : store.Closed fun _ => True :=
  ⟨fun _ => trivial, fun _ _ => trivial, fun _ _ _ => trivial⟩

theorem Spans.closed {store : Store} {held nested : Object → Prop}
    (h : store.Spans held nested) : store.Closed held :=
  ⟨h.resolved, fun harray hitem => h.holds (h.item harray hitem),
    fun hobject hentries hvalue => h.holds (h.entry hobject hentries hvalue)⟩

theorem reference_of_follow {store : Store} {fuel : Nat} {value object : Object}
    {last reference : Option ObjectId}
    (h : store.follow fuel value last = some (object, reference)) :
    (object = value ∧ reference = last) ∨
      ∃ id, reference = some id ∧ store.resolve id = some object := by
  induction fuel generalizing value last with
  | zero => simp [follow] at h
  | succ fuel ih =>
    cases value with
    | reference id =>
      obtain ⟨next, hnext, h⟩ := Option.bind_eq_some_iff.1 h
      rcases ih h with ⟨rfl, rfl⟩ | hresolved
      · exact .inr ⟨id, rfl, hnext⟩
      · exact .inr hresolved
    | _ => cases h; exact .inl ⟨rfl, rfl⟩

/-- An object is met directly, or under the last of the references that lead to it. -/
theorem reference_of_dereference {store : Store} {value object : Object}
    {reference : Option ObjectId} (h : store.dereference value = some (object, reference)) :
    (object = value ∧ reference = none) ∨
      ∃ id, reference = some id ∧ store.resolve id = some object :=
  reference_of_follow h

theorem dereference_of_present {store : Store} {value object : Object}
    {reference : Option ObjectId} (h : store.present value = some (object, reference)) :
    store.dereference value = some (object, reference) :=
  (present_eq_some_iff.1 h).1

theorem Spans.dereference {store : Store} {held nested : Object → Prop}
    (hspans : store.Spans held nested) {value object : Object} {reference : Option ObjectId}
    (hvalue : nested value) (h : store.dereference value = some (object, reference)) :
    held object := by
  rcases reference_of_dereference h with ⟨rfl, _⟩ | ⟨id, _, hresolve⟩
  · exact hspans.holds hvalue
  · exact hspans.resolved hresolve

/-- These objects and those of the store. -/
def wholes (store : Store) (roots : List Object) : List Object :=
  roots ++ store.objects.map (·.2)

def Holds (store : Store) (roots : List Object) (object : Object) : Prop :=
  ∃ whole ∈ store.wholes roots, object ∈ whole.parts

def Nests (store : Store) (roots : List Object) (object : Object) : Prop :=
  ∃ whole ∈ store.wholes roots, object ∈ whole.inner

variable {store : Store} {roots : List Object}

theorem Holds.mono {roots' : List Object} (hroots : roots ⊆ roots') {object : Object}
    (h : store.Holds roots object) : store.Holds roots' object := by
  obtain ⟨whole, hwhole, hobject⟩ := h
  refine ⟨whole, ?_, hobject⟩
  rcases List.mem_append.1 hwhole with hroot | hstored
  · exact List.mem_append_left _ (hroots hroot)
  · exact List.mem_append_right _ hstored

theorem spans_holds (store : Store) (roots : List Object) :
    store.Spans (store.Holds roots) (store.Nests roots) where
  resolved h := ⟨_, List.mem_append_right _ (List.mem_map_of_mem (Ordered.mem_of_get? h)),
    Object.mem_parts_self _⟩
  item := by
    rintro items item ⟨whole, hwhole, harray⟩ hitem
    exact ⟨whole, hwhole, Object.inner_of_mem (Object.inner_item hitem) harray⟩
  entry := by
    rintro object entries key value ⟨whole, hwhole, hobject⟩ hentries hvalue
    exact ⟨whole, hwhole, Object.inner_of_mem (Object.inner_entry hentries hvalue) hobject⟩
  holds := by
    rintro object ⟨whole, hwhole, hobject⟩
    exact ⟨whole, hwhole, whole.inner_subset_parts hobject⟩

/-- The identities under which the objects of the store can be met, and what is nested in
them or in these roots. A reference is met as what it refers to. -/
def identities (store : Store) (roots : List Object) : List Identity :=
  store.objects.map (fun entry => Identity.indirect entry.1) ++
    (store.wholes roots).flatMap fun whole =>
      (whole.inner.filter fun object => object.asReference?.isNone).map (Identity.of · none)

theorem mem_identities {value object : Object} {reference : Option ObjectId}
    (hvalue : store.Nests roots value)
    (h : store.dereference value = some (object, reference)) :
    Identity.of object reference ∈ store.identities roots := by
  rw [identities, List.mem_append, List.mem_map, List.mem_flatMap]
  rcases reference_of_dereference h with ⟨rfl, rfl⟩ | ⟨id, rfl, hresolve⟩
  · obtain ⟨whole, hwhole, hinner⟩ := hvalue
    have hdirect : object.asReference?.isNone = true := by
      rw [asReference?_of_dereference h]; rfl
    exact .inr ⟨whole, hwhole, List.mem_map_of_mem (List.mem_filter.2 ⟨hinner, hdirect⟩)⟩
  · exact .inl ⟨(id, object), Ordered.mem_of_get? hresolve, rfl⟩

theorem length_identities (store : Store) (roots : List Object) :
    (store.identities roots).length ≤ store.size + (roots.map Object.size).sum := by
  have hinner : ∀ whole ∈ store.wholes roots,
      ((whole.inner.filter fun object => object.asReference?.isNone).map
        (Identity.of · none)).length ≤ whole.size := by
    intro whole _
    rw [List.length_map]
    exact Nat.le_trans (List.length_filter_le _ _) whole.length_inner
  have hwholes := List.sum_le_sum hinner
  have hstored : store.size =
      store.objects.length + ((store.objects.map (·.2)).map Object.size).sum := by
    rw [size, List.sum_map_add, List.map_const', List.sum_replicate_nat, Nat.mul_one,
      List.map_map]
    rfl
  rw [← List.length_flatMap, wholes, List.map_append, List.sum_append] at hwholes
  rw [identities, List.length_append, List.length_map, hstored]
  simp only [wholes] at hwholes ⊢
  omega

end Store

end PdfConform
