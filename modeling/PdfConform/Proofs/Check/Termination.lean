import Mathlib.Data.Set.Card
import PdfConform.Proofs.Check.Accounting
import PdfConform.Proofs.Check.Runs

/-! Every run ends, and what it takes from the queue and visits in trees is bounded by the
pairs that can be recorded, however the objects and the tables refer to one another. -/
namespace PdfConform

namespace Session

/-- Links with a table, those of the seeds and those that a row can name. -/
def Usable (seeds : List WorkItem) (link : String) : Prop :=
  link ∈ seeds.map WorkItem.link ∨ IsLinkName link

/-- With all seeds among these, what waits is confined to them, and what was done and is left to
do is paid for by the seeds and the pairs. -/
structure Paid (fs : Files) (store : Store) (seeds : List WorkItem) (names : Finset String)
    (s : Session) : Prop where
  confined : s.Confined fs store (seeds.map WorkItem.object) (Usable seeds) names
  potential : s.potential (store.pairs (seeds.map WorkItem.object) names) ≤
    s.seeds.length + (store.pairs (seeds.map WorkItem.object) names).card

variable {fs : Files} {store : Store} {seeds : List WorkItem} {names : Finset String}

theorem Paid.drain {s : Session} (h : s.Paid fs store seeds names) (fuel count : Nat) :
    (Session.drain (.still fs store) fuel count s).2.Paid fs store seeds names := by
  obtain ⟨hconfined, hpotential⟩ := h.confined.drain fuel count
  have hseeds := ((grows_drain (.still fs store) fuel count s).log.filterMap Event.seed?).length_le
  exact ⟨hconfined, hpotential.trans (h.potential.trans (Nat.add_le_add_right hseeds _))⟩

/-- What waits after an object was added, what the log tells of it and what is recorded. -/
theorem exists_seeded (s : Session) (store : Store) (object : Object) (link path : String) :
    ∃ item : WorkItem, (s.seed store object link path).queue = s.queue ++ [item] ∧
      (s.seed store object link path).log = s.log ++ [.seeded item] ∧
      (s.seed store object link path).record = (s.mark item.identity item.link).2.record :=
  ⟨_, rfl, rfl, rfl⟩

theorem Paid.seed {s : Session} (h : s.Paid fs store seeds names) (object : Object)
    (link path : String) (hseeds : (s.seed store object link path).seeds ⊆ seeds) :
    (s.seed store object link path).Paid fs store seeds names := by
  obtain ⟨item, hqueue, hlog, hrecord⟩ := exists_seeded s store object link path
  have hnow : (s.seed store object link path).seeds = s.seeds ++ [item] := by
    unfold Session.seeds
    rw [hlog, filterMap_snoc]
    rfl
  have hitem : item ∈ seeds :=
    hseeds (hnow ▸ List.mem_append_right _ (List.mem_singleton_self item))
  have hobject : store.Holds (seeds.map WorkItem.object) item.object :=
    ⟨item.object, List.mem_append_left _ (List.mem_map_of_mem hitem), item.object.mem_parts_self⟩
  have hlink : Usable seeds item.link := .inl (List.mem_map_of_mem hitem)
  refine ⟨⟨?_, ?_, h.confined.grammar⟩, ?_⟩
  · rw [hqueue]
    simpa only [List.mem_append, List.mem_singleton, or_imp, forall_and, forall_eq] using
      ⟨h.confined.objects, hobject⟩
  · rw [hqueue]
    simpa only [List.mem_append, List.mem_singleton, or_imp, forall_and, forall_eq] using
      ⟨h.confined.linked, hlink⟩
  · have hmono := unrecorded_mono (store.pairs (seeds.map WorkItem.object) names)
      (pairs_mark s item.identity item.link)
    have hwork := work_log hlog
    have hpotential := h.potential
    rw [hqueue] at hwork
    simp only [List.length_append, List.length_singleton, Event.taken?, Event.visited?,
      Option.toList_none, List.length_nil] at hwork
    unfold Session.potential at hpotential ⊢
    rw [hnow, unrecorded_of_record hrecord, List.length_append, List.length_singleton]
    omega

theorem Paid.call {s : Session} (h : s.Paid fs store seeds names) (c : Call)
    (hseeds : (s.call (.still fs store) c).seeds ⊆ seeds) :
    (s.call (.still fs store) c).Paid fs store seeds names := by
  cases c with
  | seed object link path => exact h.seed object link path hseeds
  | run => exact h.drain (s.bound (.still fs store)) 0
  | interrupted items =>
    have hdrain := h.drain items 0
    exact ⟨⟨hdrain.confined.objects, hdrain.confined.linked, hdrain.confined.grammar⟩,
      hdrain.potential⟩
  | flag raised =>
    exact ⟨⟨h.confined.objects, h.confined.linked, h.confined.grammar⟩, h.potential⟩

theorem Paid.after {s : Session} (h : s.Paid fs store seeds names) (calls : List Call)
    (hseeds : (s.after (.still fs store) calls).seeds ⊆ seeds) :
    (s.after (.still fs store) calls).Paid fs store seeds names := by
  induction calls generalizing s with
  | nil => exact h
  | cons c calls ih =>
    have hlater := grows_after (.still fs store) (s.call (.still fs store) c) calls
    have hkept := (hlater.log.filterMap Event.seed?).subset
    exact ih (h.call c fun _ hseed => hseeds (hkept hseed)) hseeds

/-- A run that follows any calls ends, and so does every walk of a tree whose root was not
recorded. What was taken from the queue since the beginning, by this run and by those before it,
and the nodes visited in trees are no more than the seeds and the pairs that can be recorded. -/
theorem ends_within_bound {folder : Folder} {cache : Cache} (hcache : cache.Reached folder)
    (fs : Files) (store : Store) (version : Option Version) (budget : Option Nat)
    (calls : List Call) :
    let around := Surroundings.still fs store
    let s := (start store cache version budget).after around calls
    let s' := (s.run around).2
    let identities := (s'.seeds.map WorkItem.identity ++
      store.identities (s'.seeds.map WorkItem.object)).toFinset
    let names := cache.declared fs (s'.seeds.map WorkItem.link)
    (∃ ended, Runs around 0 s (ended, s')) ∧
      (∀ (w : Session) (t : Tree) (root : Object) (reference : Option ObjectId) (path : String),
        (Identity.of root reference, t.title) ∉ w.record.pairs →
          Walk.Visits around t (Walk.start w t root reference path)
            (w.walkTree around t root reference path, [])) ∧
      names.Finite ∧
      s'.taken.length + s'.visits.length + s'.queue.length ≤
        s'.seeds.length + identities.card * names.ncard := by
  intro around s s' identities names
  have hfinite : names.Finite := cache.finite_declared fs _
  refine ⟨⟨_, runs_run fs store s⟩, ?_, hfinite, ?_⟩
  · exact fun w t root reference path hfresh => Walk.visits_walkTree around t hfresh path
  · have hgrammar : cache.Spans fs (Usable s'.seeds) hfinite.toFinset := by
      refine ⟨?_, ?_⟩
      · intro link table hlink hview name hname
        exact hfinite.mem_toFinset.2 ⟨link, table, hlink, hview, hname⟩
      · rintro link table _ hview declared ⟨row, hrow, hdeclared⟩ next hnext
        exact .inr ((hcache.wellFormed_view hview row hrow).names declared hdeclared next hnext)
    have hstart : (start store cache version budget).Paid fs store s'.seeds hfinite.toFinset := by
      refine ⟨⟨?_, ?_, hgrammar⟩, ?_⟩
      · exact fun item hitem => by cases hitem
      · exact fun item hitem => by cases hitem
      · exact Nat.add_le_add_left (Finset.card_filter_le _ _) _
    have hseeds : s.seeds ⊆ s'.seeds :=
      ((grows_drain around (s.bound around) 0 s).log.filterMap Event.seed?).subset
    have hpaid : s'.Paid fs store s'.seeds hfinite.toFinset :=
      (hstart.after calls hseeds).drain (s.bound around) 0
    have hidentities : (store.identities (s'.seeds.map WorkItem.object)).toFinset.card ≤
        identities.card := by
      refine Finset.card_le_card ?_
      intro identity hidentity
      exact List.mem_toFinset.2 (List.mem_append_right _ (List.mem_toFinset.1 hidentity))
    have hpairs : (store.pairs (s'.seeds.map WorkItem.object) hfinite.toFinset).card ≤
        identities.card * names.ncard := by
      rw [Store.pairs, Finset.card_product, Set.ncard_eq_toFinset_card _ hfinite]
      exact Nat.mul_le_mul_right _ hidentities
    calc s'.work ≤ s'.potential (store.pairs (s'.seeds.map WorkItem.object) hfinite.toFinset) :=
          Nat.le_add_right _ _
      _ ≤ s'.seeds.length +
          (store.pairs (s'.seeds.map WorkItem.object) hfinite.toFinset).card := hpaid.potential
      _ ≤ s'.seeds.length + identities.card * names.ncard := Nat.add_le_add_left hpairs _

/-- Two objects that refer to each other, under a table that refers to itself, are taken once. -/
theorem ends_within_bound_cycle :
    let s := (start Cycle.store Cycle.cache none none).after Cycle.around
      [.seed (.reference Cycle.first) "Ring" ""]
    let s' := (s.run Cycle.around).2
    let identities := (s'.seeds.map WorkItem.identity ++
      Cycle.store.identities (s'.seeds.map WorkItem.object)).toFinset
    let names := Cycle.cache.declared .empty (s'.seeds.map WorkItem.link)
    s'.taken.length = 2 ∧ identities.card = 2 ∧ (∃ ended, Runs Cycle.around 0 s (ended, s')) ∧
      s'.taken.length + s'.visits.length + s'.queue.length ≤
        s'.seeds.length + identities.card * names.ncard := by
  intro s s' identities names
  obtain ⟨hruns, _, _, hbound⟩ := ends_within_bound Cycle.cache_reached .empty Cycle.store
    none none [.seed (.reference Cycle.first) "Ring" ""]
  exact ⟨by decide +kernel, by decide +kernel, hruns, hbound⟩

end Session

end PdfConform
