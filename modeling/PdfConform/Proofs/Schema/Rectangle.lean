import PdfConform.Proofs.Document.Chain
import PdfConform.Schema.ValueType

/-! The sides of a rectangle. Everywhere else a chain of references is followed to its end; a side
may be one reference away and no more. -/
namespace PdfConform

namespace Store

variable {s : Store} {object found : Object} {ids : List ObjectId}

/-- The object is a reference to what is a reference in its turn. -/
def Detours (s : Store) (object : Object) : Prop :=
  ∃ id next, object = .reference id ∧ s.resolve id = some (.reference next)

theorem Leads.length_le_one_iff (h : s.Leads object ids found) :
    ids.length ≤ 1 ↔ ¬s.Detours object := by
  cases h with
  | stop hdirect =>
    refine iff_of_true (Nat.zero_le _) ?_
    rintro ⟨id, next, rfl, _⟩
    cases hdirect
  | @step id next found rest hnext h =>
    cases h with
    | stop hdirect =>
      refine iff_of_true (Nat.le_refl _) ?_
      rintro ⟨_, _, heq, hresolve⟩
      cases heq
      cases hnext.symm.trans hresolve
      cases hdirect
    | step hnext' h =>
      exact iff_of_false (by simp) fun hdirect => hdirect ⟨id, _, rfl, hnext⟩

end Store

namespace ValueType

variable {store : Store} {item : Object}

theorem isSome_asReal? (store : Store) (object : Object) :
    object.asReal?.isSome = number.admits store object := by
  cases object <;> rfl

theorem isSide_of_direct (h : item.asReference? = none) :
    isSide store item = number.admits store item := by
  rw [← isSome_asReal?]
  cases item <;> first | rfl | cases h

theorem isSide_reference {id : ObjectId} : isSide store (.reference id) = true ↔
    ∃ next, store.resolve id = some next ∧ number.admits store next = true := by
  have hside : isSide store (.reference id) = ((store.resolve id).bind Object.asReal?).isSome := rfl
  rw [hside]
  cases store.resolve id with
  | none => simp
  | some next => simp [isSome_asReal? store]

theorem asReference?_of_number {object : Object} (h : number.admits store object = true) :
    object.asReference? = none := by
  cases object <;> first | rfl | cases h

theorem isSide_eq_true_iff : isSide store item = true ↔
    ∃ ids found, store.Leads item ids found ∧ ids.length ≤ 1 ∧
      number.admits store found = true := by
  cases hreference : item.asReference? with
  | none =>
    rw [isSide_of_direct hreference]
    constructor
    · exact fun h => ⟨[], item, .stop hreference, Nat.zero_le _, h⟩
    · rintro ⟨ids, found, hleads, _, h⟩
      obtain ⟨_, rfl⟩ := hleads.unique (.stop hreference)
      exact h
  | some id =>
    obtain rfl := Object.eq_of_asReference? hreference
    rw [isSide_reference]
    constructor
    · rintro ⟨next, hnext, hnumber⟩
      exact ⟨[id], next, .step hnext (.stop (asReference?_of_number hnumber)), Nat.le_refl _,
        hnumber⟩
    · rintro ⟨ids, found, hleads, hlength, hnumber⟩
      cases hleads with
      | stop hdirect => cases hdirect
      | @step _ next _ rest hnext hleads =>
        obtain rfl : rest = [] := by simpa using hlength
        cases hleads with
        | stop _ => exact ⟨found, hnext, hnumber⟩

theorem isSide_iff_dereference : isSide store item = true ↔
    (∃ found reference, store.dereference item = some (found, reference) ∧
      number.admits store found = true) ∧ ¬store.Detours item := by
  rw [isSide_eq_true_iff]
  constructor
  · rintro ⟨ids, found, hleads, hlength, hnumber⟩
    have hshort : ids.length < Store.chainLimit := Nat.lt_of_le_of_lt hlength (by decide)
    have hfound : store.dereference item = some (found, ids.getLast?) :=
      Store.dereference_eq_some_iff_leads.2 ⟨ids, hleads, hshort, rfl⟩
    exact ⟨⟨found, ids.getLast?, hfound, hnumber⟩, hleads.length_le_one_iff.1 hlength⟩
  · rintro ⟨⟨found, reference, hfound, hnumber⟩, hdetour⟩
    obtain ⟨ids, hleads, _, _⟩ := Store.dereference_eq_some_iff_leads.1 hfound
    exact ⟨ids, found, hleads, hleads.length_le_one_iff.2 hdetour, hnumber⟩

/-- A rectangle is an array of four objects behind each of which there is a number, and none of
which refers to a reference. -/
theorem rectangle_admits_iff (store : Store) (items : List Object) :
    rectangle.admits store (.array items) = true ↔
      items.length = 4 ∧ ∀ item ∈ items,
        (∃ found reference, store.dereference item = some (found, reference) ∧
          number.admits store found = true) ∧ ¬store.Detours item := by
  simp only [admits, Bool.and_eq_true, beq_iff_eq, List.all_eq_true, isSide_iff_dereference]

/-- An object that only refers to a number. -/
def detour : Store :=
  ⟨none, [], [(⟨1, 0⟩, .reference ⟨2, 0⟩), (⟨2, 0⟩, .integer 0)]⟩

/-- Four numbers are no rectangle when one of them is two references away. -/
theorem distant_side_refused :
    let items : List Object := [.reference ⟨1, 0⟩, .integer 0, .integer 612, .integer 792]
    (items.length = 4 ∧ ∀ item ∈ items, ∃ found reference,
      detour.dereference item = some (found, reference) ∧ number.admits detour found = true) ∧
      rectangle.admits detour (.array items) = false := by
  refine ⟨⟨rfl, ?_⟩, by decide⟩
  simp only [List.forall_mem_cons, List.not_mem_nil, false_implies, implies_true, and_true]
  exact ⟨⟨_, _, rfl, rfl⟩, ⟨_, _, rfl, rfl⟩, ⟨_, _, rfl, rfl⟩, ⟨_, _, rfl, rfl⟩⟩

end ValueType

end PdfConform
