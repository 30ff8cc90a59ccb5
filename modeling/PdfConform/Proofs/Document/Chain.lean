import Mathlib.Data.List.Perm.Subperm
import PdfConform.Document.Store

/-! Chains of references. A chain that comes to an end names no object twice, so it is at most one
longer than there are objects in the store that are references themselves. A walk of bounded length
ends for loops too, and refuses the chains that are longer than its bound. -/
namespace PdfConform

theorem Object.eq_of_asReference? {object : Object} {id : ObjectId}
    (h : object.asReference? = some id) : object = .reference id := by
  cases object <;> simp_all [asReference?]

namespace Store

variable {s : Store}

/-- From one reference to the next, in this order, until an object is none. -/
inductive Leads (s : Store) : Object → List ObjectId → Object → Prop
  | stop {object : Object} (h : object.asReference? = none) : Leads s object [] object
  | step {id : ObjectId} {next found : Object} {ids : List ObjectId}
      (hnext : s.resolve id = some next) (h : Leads s next ids found) :
      Leads s (.reference id) (id :: ids) found

namespace Leads

variable {object found other : Object} {ids path : List ObjectId} {id : ObjectId}

theorem unique (h : s.Leads object ids found) (k : s.Leads object path other) :
    ids = path ∧ found = other := by
  induction h generalizing path with
  | stop hdirect =>
    cases k with
    | stop _ => exact ⟨rfl, rfl⟩
    | step _ _ => cases hdirect
  | step hnext _ ih =>
    cases k with
    | stop hdirect => cases hdirect
    | step hnext' k =>
      cases hnext.symm.trans hnext'
      obtain ⟨rfl, rfl⟩ := ih k
      exact ⟨rfl, rfl⟩

/-- Each reference on the way leads to the same end, by what is left of the way. -/
theorem of_mem (h : s.Leads object ids found) (hid : id ∈ ids) :
    ∃ rest, s.Leads (.reference id) (id :: rest) found ∧ (id :: rest).length ≤ ids.length := by
  induction h with
  | stop _ => cases hid
  | @step first next found ids hnext h ih =>
    rcases List.mem_cons.1 hid with rfl | hid
    · exact ⟨ids, .step hnext h, Nat.le_refl _⟩
    · obtain ⟨rest, hrest, hlength⟩ := ih hid
      exact ⟨rest, hrest, Nat.le_succ_of_le hlength⟩

theorem nodup (h : s.Leads object ids found) : ids.Nodup := by
  induction h with
  | stop _ => exact List.nodup_nil
  | @step id next found ids hnext h ih =>
    refine List.nodup_cons.2 ⟨fun hid => ?_, ih⟩
    -- Met again, the reference would lead to the end by a shorter way too.
    obtain ⟨rest, hrest, hlength⟩ := h.of_mem hid
    obtain ⟨hsame, _⟩ := hrest.unique (.step hnext h)
    rw [hsame, List.length_cons] at hlength
    omega

end Leads

/-- The objects that are nothing but references to other objects. -/
def aliases (s : Store) : List ObjectId :=
  (s.objects.filter fun entry => entry.2.asReference?.isSome).map (·.1)

theorem mem_aliases {id next : ObjectId} (h : s.resolve id = some (.reference next)) :
    id ∈ s.aliases :=
  List.mem_map.2 ⟨_, List.mem_filter.2 ⟨Ordered.mem_of_get? h, rfl⟩, rfl⟩

/-- Every reference on the way but the last names a reference. -/
theorem Leads.dropLast_subset {object found : Object} {ids : List ObjectId}
    (h : s.Leads object ids found) : ids.dropLast ⊆ s.aliases := by
  induction h with
  | stop _ => exact List.nil_subset _
  | step hnext h ih =>
    cases h with
    | stop _ => exact List.nil_subset _
    | step _ _ => exact List.cons_subset.2 ⟨mem_aliases hnext, ih⟩

theorem Leads.length_le {object found : Object} {ids : List ObjectId}
    (h : s.Leads object ids found) : ids.length ≤ s.aliases.length + 1 := by
  have hnodup : ids.dropLast.Nodup := h.nodup.sublist (List.dropLast_sublist ids)
  have hlength := (List.subperm_of_subset hnodup h.dropLast_subset).length_le
  rw [List.length_dropLast] at hlength
  omega

/-- Following references finds what the chain leads to, if there is one more step than references
in the chain. -/
theorem follow_eq_some_iff {fuel : Nat} {object found : Object} {last reference : Option ObjectId} :
    s.follow fuel object last = some (found, reference) ↔
      ∃ ids, s.Leads object ids found ∧ ids.length < fuel ∧ reference = ids.getLast?.or last := by
  induction fuel generalizing object last with
  | zero => simp [follow]
  | succ fuel ih =>
    cases hreference : object.asReference? with
    | none =>
      rw [follow_of_direct s fuel last hreference]
      constructor
      · intro h
        obtain ⟨rfl, rfl⟩ := Prod.mk.inj (Option.some.inj h)
        exact ⟨[], .stop hreference, Nat.succ_pos _, rfl⟩
      · rintro ⟨ids, hleads, _, rfl⟩
        obtain ⟨rfl, rfl⟩ := hleads.unique (.stop hreference)
        rfl
    | some id =>
      obtain rfl := Object.eq_of_asReference? hreference
      simp only [follow, Option.bind_eq_some_iff, ih]
      constructor
      · rintro ⟨next, hnext, ids, hleads, hlength, rfl⟩
        refine ⟨id :: ids, .step hnext hleads, Nat.succ_lt_succ hlength, ?_⟩
        cases ids <;> simp [List.getLast?_cons]
      · rintro ⟨ids, hleads, hlength, rfl⟩
        cases hleads with
        | stop hdirect => cases hdirect
        | @step _ next _ rest hnext hleads =>
          refine ⟨next, hnext, rest, hleads, Nat.lt_of_succ_lt_succ hlength, ?_⟩
          cases rest <;> simp [List.getLast?_cons]

theorem dereference_eq_some_iff_leads {object found : Object} {reference : Option ObjectId} :
    s.dereference object = some (found, reference) ↔
      ∃ ids, s.Leads object ids found ∧ ids.length < chainLimit ∧ reference = ids.getLast? := by
  simp [dereference, follow_eq_some_iff]

/-- A chain that comes to an end is refused only for its length. -/
theorem Leads.dereference_eq_none_iff {object found : Object} {ids : List ObjectId}
    (h : s.Leads object ids found) : s.dereference object = none ↔ chainLimit ≤ ids.length := by
  constructor
  · intro hnone
    by_contra hshort
    have hfound : s.dereference object = some (found, ids.getLast?) :=
      dereference_eq_some_iff_leads.2 ⟨ids, h, Nat.lt_of_not_le hshort, rfl⟩
    rw [hnone] at hfound
    cases hfound
  · intro hlong
    refine Option.eq_none_iff_forall_ne_some.2 fun ⟨other, reference⟩ hfound => ?_
    obtain ⟨path, hleads, hshort, _⟩ := dereference_eq_some_iff_leads.1 hfound
    obtain ⟨rfl, _⟩ := hleads.unique h
    omega

/-- A reference stands for the object at the end of its chain and for the last reference in it,
unless the chain has as many references as are followed. All of them but one then name objects that
are references in their turn. -/
theorem dereference_of_short_chain (s : Store) (object : Object) :
    (∀ found reference, s.dereference object = some (found, reference) ↔
      ∃ ids, s.Leads object ids found ∧ ids.length < chainLimit ∧ reference = ids.getLast?) ∧
    ∀ ids found, s.Leads object ids found →
      (s.dereference object = none ↔ chainLimit ≤ ids.length) ∧
        ids.length ≤ s.aliases.length + 1 :=
  ⟨fun _ _ => dereference_eq_some_iff_leads, fun _ _ hleads =>
    ⟨hleads.dereference_eq_none_iff, hleads.length_le⟩⟩

/-- Each object refers to the next, and the last is a number. -/
def ladder (rungs : Nat) : Store :=
  ⟨none, [], (List.range rungs).map (fun n =>
    (⟨.ofNat n, 0⟩, .reference ⟨.ofNat (n + 1), 0⟩)) ++ [(⟨.ofNat rungs, 0⟩, .integer 42)]⟩

/-- A chain of as many references as are followed is refused, though it ends at a number. -/
theorem long_chain_refused :
    (∃ ids, (ladder 31).Leads (.reference ⟨0, 0⟩) ids (.integer 42)) ∧
      (ladder 31).dereference (.reference ⟨0, 0⟩) = none := by
  have hfollow : (ladder 31).follow (chainLimit + 1) (.reference ⟨0, 0⟩) none =
      some (.integer 42, some ⟨31, 0⟩) := by rfl
  obtain ⟨ids, hleads, _⟩ := follow_eq_some_iff.1 hfollow
  exact ⟨⟨ids, hleads⟩, by rfl⟩

end Store

end PdfConform
