import PdfConform.Proofs.Check.Choice
import PdfConform.Proofs.Check.Potential

/-! Runs without a bound on their length. Over unchanged files every run comes to its end within
the bound that it is given. -/
namespace PdfConform

namespace Session

/-- How a run ends that has checked so many objects already, however long it takes. -/
inductive Runs (around : Surroundings) : Nat → Session → End × Session → Prop
  | drained {count : Nat} {s : Session} : s.queue = [] →
    Runs around count s (.ok (count, false), s)
  | stopped {count : Nat} {s : Session} : s.queue ≠ [] → s.shouldStop count = true →
    Runs around count s (.ok (count, true), s)
  | failed {count : Nat} {s s' : Session} {item : WorkItem} {rest : List WorkItem}
    {unavailable : Unavailable} : s.queue = item :: rest → s.shouldStop count = false →
    take { s with queue := rest } around item = (.error unavailable, s') →
    Runs around count s (.error unavailable, s')
  | turn {count : Nat} {s s' : Session} {item : WorkItem} {rest : List WorkItem} {checked : Bool}
    {ended : End × Session} : s.queue = item :: rest → s.shouldStop count = false →
    take { s with queue := rest } around item = (.ok checked, s') →
    Runs around (if checked then count + 1 else count) s' ended → Runs around count s ended

theorem Runs.unique {around : Surroundings} {count : Nat} {s : Session} {a b : End × Session}
    (h : Runs around count s a) (k : Runs around count s b) : a = b := by
  induction h with
  | drained hqueue =>
    cases k with
    | drained => rfl
    | stopped hne => exact absurd hqueue hne
    | failed hcons => rw [hqueue] at hcons; cases hcons
    | turn hcons => rw [hqueue] at hcons; cases hcons
  | stopped hne hstop =>
    cases k with
    | drained hqueue => exact absurd hqueue hne
    | stopped => rfl
    | failed _ hgo => rw [hstop] at hgo; cases hgo
    | turn _ hgo => rw [hstop] at hgo; cases hgo
  | failed hqueue hgo htake =>
    cases k with
    | drained hnil => rw [hqueue] at hnil; cases hnil
    | stopped _ hstop => rw [hgo] at hstop; cases hstop
    | failed hqueue' _ htake' =>
      rw [hqueue] at hqueue'
      cases hqueue'
      rw [htake] at htake'
      cases htake'
      rfl
    | turn hqueue' _ htake' =>
      rw [hqueue] at hqueue'
      cases hqueue'
      rw [htake] at htake'
      cases htake'
  | turn hqueue hgo htake _ ih =>
    cases k with
    | drained hnil => rw [hqueue] at hnil; cases hnil
    | stopped _ hstop => rw [hgo] at hstop; cases hstop
    | failed hqueue' _ htake' =>
      rw [hqueue] at hqueue'
      cases hqueue'
      rw [htake] at htake'
      cases htake'
    | turn hqueue' _ htake' hrest =>
      rw [hqueue] at hqueue'
      cases hqueue'
      rw [htake] at htake'
      cases htake'
      exact ih hrest

end Session

/-- Names of tables from which the tables' rows lead to no further ones, with all names that
these tables declare. -/
structure Cache.Spans (c : Cache) (fs : Files) (links : String → Prop) (names : Finset String) :
    Prop where
  names {link : String} {table : Table} : links link → c.view fs link = .ok table →
    ∀ name ∈ table.names, name ∈ names
  links {link : String} {table : Table} : links link → c.view fs link = .ok table →
    ∀ declared, table.Declares declared → ∀ next ∈ declared, links next

namespace Session

/-- What waits lies in these roots or in the store, with links whose tables are all there. -/
structure Confined (fs : Files) (store : Store) (roots : List Object) (links : String → Prop)
    (names : Finset String) (s : Session) : Prop where
  objects : ∀ item ∈ s.queue, store.Holds roots item.object
  linked : ∀ item ∈ s.queue, links item.link
  grammar : s.cache.Spans fs links names

variable {fs : Files} {store : Store} {roots : List Object} {links : String → Prop}
  {names : Finset String}

theorem Confined.step {declared : List String → Prop}
    (hdeclared : ∀ set, declared set → ∀ link ∈ set, links link) {s s' : Session}
    (hstep : Step (.still fs store) (store.Holds roots) declared s s')
    (h : s.Confined fs store roots links names) : s'.Confined fs store roots links names := by
  have hgrammar : s'.cache.Spans fs links names := by
    refine ⟨?_, ?_⟩ <;> rw [hstep.view]
    · exact h.grammar.names
    · exact h.grammar.links
  cases hstep with
  | report found => exact ⟨h.objects, h.linked, hgrammar⟩
  | lookup link => exact ⟨h.objects, h.linked, hgrammar⟩
  | visit tree path => exact ⟨h.objects, h.linked, hgrammar⟩
  | node t => exact ⟨h.objects, h.linked, hgrammar⟩
  | @enqueue path set link value object reference hset hlink hvalue hpresent _ =>
    obtain ⟨_, ⟨_, hqueue, _⟩ | ⟨_, hqueue, _⟩⟩ := enqueue_cases s object reference link path
    · have hobject : store.Holds roots object := (store.spans_holds roots).closed.spans.dereference
        hvalue (Store.dereference_of_present hpresent)
      refine ⟨?_, ?_, hgrammar⟩ <;> rw [hqueue]
      · simpa only [List.mem_append, List.mem_singleton, or_imp, forall_and, forall_eq] using
          ⟨h.objects, hobject⟩
      · simpa only [List.mem_append, List.mem_singleton, or_imp, forall_and, forall_eq] using
          ⟨h.linked, hdeclared set hset link hlink⟩
    · exact ⟨hqueue ▸ h.objects, hqueue ▸ h.linked, hgrammar⟩

/-- Taking an item leaves no more to do than there was. -/
structure Advances (pairs : Finset (Identity × String)) (s s' : Session) : Prop where
  potential : s'.potential pairs ≤ s.potential pairs
  taken : s.taken.length < s'.taken.length
  visits : s.visits.length ≤ s'.visits.length

theorem Advances.measure {pairs : Finset (Identity × String)} {s s' : Session}
    (h : Advances pairs s s') : s'.queue.length + (s'.unrecorded pairs).card <
      s.queue.length + (s.unrecorded pairs).card := by
  obtain ⟨hpotential, htaken, hvisits⟩ := h
  unfold Session.potential work at hpotential
  omega

theorem Advances.pop {pairs : Finset (Identity × String)} {s s' : Session} {item : WorkItem}
    {event : Event} (hqueue : s.queue = item :: s'.queue) (hrecord : s'.record = s.record)
    (hlog : s'.log = s.log ++ [event]) (htaken : event.taken? = some item)
    (hvisited : event.visited? = none) : Advances pairs s s' := by
  have hwork := work_log hlog
  rw [hqueue, htaken, hvisited] at hwork
  simp only [List.length_cons, Option.toList_some, Option.toList_none, List.length_nil] at hwork
  refine ⟨?_, ?_, ?_⟩
  · unfold Session.potential
    rw [unrecorded_of_record hrecord]
    omega
  · unfold Session.taken
    rw [hlog, filterMap_snoc, htaken, List.length_append]
    exact Nat.lt_succ_self _
  · unfold Session.visits
    rw [hlog, filterMap_snoc, hvisited, List.length_append]
    exact Nat.le_refl _

theorem Advances.grows {pairs : Finset (Identity × String)} {a b c : Session}
    (h : Advances pairs a b) (hgrows : Grows b c)
    (hpotential : c.potential pairs ≤ b.potential pairs) : Advances pairs a c :=
  ⟨hpotential.trans h.potential,
    Nat.lt_of_lt_of_le h.taken (hgrows.log.filterMap Event.taken?).length_le,
    h.visits.trans (hgrows.log.filterMap Event.visited?).length_le⟩

theorem Confined.take {s s' : Session} {item : WorkItem} {rest : List WorkItem}
    {result : Except Unavailable Bool} (h : s.Confined fs store roots links names)
    (hqueue : s.queue = item :: rest)
    (htake : Session.take { s with queue := rest } (.still fs store) item = (result, s')) :
    s'.Confined fs store roots links names ∧ Advances (store.pairs roots names) s s' := by
  have hview := view_table fs store { s with queue := rest } item.link
  have hlooked :
      (Session.table { s with queue := rest } (.still fs store) item.link).2.Confined fs store
        roots links names := by
    refine ⟨fun other hother => h.objects other ?_, fun other hother => h.linked other ?_, ?_⟩
    · exact hqueue ▸ List.mem_cons_of_mem _ hother
    · exact hqueue ▸ List.mem_cons_of_mem _ hother
    · exact ⟨hview ▸ h.grammar.names, hview ▸ h.grammar.links⟩
  have htaken := taken_take { s with queue := rest } (.still fs store) item
  rw [htake] at htaken
  cases htaken with
  | checked table hfind =>
    have hobject := h.objects item (hqueue ▸ List.mem_cons_self)
    have hlink := h.linked item (hqueue ▸ List.mem_cons_self)
    have htable : (Session.table { s with queue := rest } (.still fs store)
        item.link).2.cache.view fs item.link = .ok table := by
      unfold Cache.view
      rw [hfind, Option.getD_some]
    have hsteps : Steps (.still fs store) (store.Holds roots) table.Declares _ _ :=
      checkObject_steps (store.spans_holds roots).closed hobject
        ((Session.table { s with queue := rest } (.still fs store) item.link).2.enter item) table
    refine ⟨hsteps.keep (Confined.step (hlooked.grammar.links hlink htable))
      ⟨hlooked.objects, hlooked.linked, hlooked.grammar⟩, ?_⟩
    have hentered : Advances (store.pairs roots names) s
        ((Session.table { s with queue := rest } (.still fs store) item.link).2.enter item) :=
      .pop hqueue rfl rfl rfl rfl
    exact hentered.grows hsteps.grows
      (potential_checkObject hobject (hlooked.grammar.names hlink htable) _)
  | passed found =>
    exact ⟨⟨hlooked.objects, hlooked.linked, hlooked.grammar⟩, .pop hqueue rfl rfl rfl rfl⟩
  | failed unavailable =>
    exact ⟨⟨hlooked.objects, hlooked.linked, hlooked.grammar⟩, .pop hqueue rfl rfl rfl rfl⟩

/-- With a step for everything that waits or can still be recorded a run comes to its end. -/
theorem Confined.runs_drain {fuel : Nat} {s : Session}
    (h : s.Confined fs store roots links names)
    (hfuel : s.queue.length + (s.unrecorded (store.pairs roots names)).card ≤ fuel)
    (count : Nat) : Runs (.still fs store) count s (drain (.still fs store) fuel count s) := by
  induction fuel generalizing count s with
  | zero =>
    have hqueue : s.queue = [] := List.length_eq_zero_iff.1 (by omega)
    unfold drain
    rw [hqueue]
    exact .drained hqueue
  | succ fuel ih =>
    unfold drain
    dsimp only
    split
    · next hqueue => exact .drained hqueue
    · next item rest hqueue =>
      split
      · next hstop => exact .stopped (by simp [hqueue]) hstop
      · next hgo =>
        have hgo : s.shouldStop count = false := Bool.not_eq_true _ ▸ hgo
        split
        · next checked s' htake =>
          obtain ⟨hconfined, hadvances⟩ := h.take hqueue htake
          have hmeasure := hadvances.measure
          exact .turn hqueue hgo htake (ih hconfined (by omega) _)
        · next unavailable s' htake => exact .failed hqueue hgo htake

theorem Confined.drain {s : Session} (h : s.Confined fs store roots links names)
    (fuel count : Nat) :
    (Session.drain (.still fs store) fuel count s).2.Confined fs store roots links names ∧
      (Session.drain (.still fs store) fuel count s).2.potential (store.pairs roots names) ≤
        s.potential (store.pairs roots names) := by
  have hended : Ended
      (fun s' => s'.Confined fs store roots links names ∧
        s'.potential (store.pairs roots names) ≤ s.potential (store.pairs roots names))
      (fun s' => s'.Confined fs store roots links names ∧
        s'.potential (store.pairs roots names) ≤ s.potential (store.pairs roots names))
      (Session.drain (.still fs store) fuel count s) := by
    refine drain_keep ?_ ?_ fuel count ⟨h, Nat.le_refl _⟩
    · rintro a item rest taken b hqueue htake ⟨hconfined, hpotential⟩
      obtain ⟨hb, hadvances⟩ := hconfined.take hqueue htake
      exact ⟨hb, hadvances.potential.trans hpotential⟩
    · rintro a item rest unavailable b hqueue htake ⟨hconfined, hpotential⟩
      obtain ⟨hb, hadvances⟩ := hconfined.take hqueue htake
      exact ⟨hb, hadvances.potential.trans hpotential⟩
  exact hended.state

/-- The bound of a run is enough: the run ends as it would without a bound. -/
theorem runs_run (fs : Files) (store : Store) (s : Session) :
    Runs (.still fs store) 0 s
      (Session.drain (.still fs store) (s.bound (.still fs store)) 0 s) := by
  have hconfined : s.Confined fs store (s.queue.map WorkItem.object) (fun _ => True)
      (s.cache.allNames fs).toFinset := by
    refine ⟨?_, fun _ _ => trivial, ?_, fun _ _ _ _ _ _ => trivial⟩
    · intro item hitem
      exact ⟨item.object, List.mem_append_left _ (List.mem_map_of_mem hitem),
        item.object.mem_parts_self⟩
    · intro link table _ hview name hname
      exact List.mem_toFinset.2 (Cache.mem_allNames hview hname)
  refine hconfined.runs_drain ?_ 0
  have hidentities := (List.toFinset_card_le _).trans
    (store.length_identities (s.queue.map WorkItem.object))
  have hnames := (List.toFinset_card_le _).trans (s.cache.length_allNames fs)
  have hunrecorded : (s.unrecorded (store.pairs (s.queue.map WorkItem.object)
      (s.cache.allNames fs).toFinset)).card ≤ _ := Finset.card_filter_le _ _
  have hsize : ((s.queue.map WorkItem.object).map Object.size).sum =
      (s.queue.map fun item => item.object.size).sum := by
    rw [List.map_map]
    rfl
  rw [Store.pairs, Finset.card_product] at hunrecorded
  rw [hsize] at hidentities
  exact Nat.add_le_add_left (hunrecorded.trans (Nat.mul_le_mul hidentities hnames)) _

/-- What a run that leaves this session tells of itself. -/
def statsOf (s : Session) (ended : Nat × Bool) : Stats :=
  ⟨s.version, ended.1, s.record.suppressed, s.queue.length, ended.2⟩

theorem run_of_runs {s s' : Session} {ended : End}
    (h : Runs (.still fs store) 0 s (ended, s')) :
    s.run (.still fs store) = (ended.map s'.statsOf, s') := by
  unfold run
  rw [(runs_run fs store s).unique h]
  rfl

end Session

end PdfConform
