import PdfConform.Proofs.Check.Accounting
import PdfConform.Proofs.Check.Closure

/-! What a run checks does not depend on the order of the seeds. Whatever the order, it is the
work that the seeds lead to: nothing else is recorded, and when nothing waits all of it is done. -/
namespace PdfConform

namespace Session

section Take

variable {fs : Files} {s : Session} {item : WorkItem}

theorem take_of_view_ok (store : Store) {table : Table}
    (h : s.cache.view fs item.link = .ok table) :
    s.take (.still fs store) item =
      (.ok true, ((s.table (.still fs store) item.link).2.enter item).checkObject (.still fs store)
        item table) :=
  take_of_table_ok ((table_still fs store s item.link).trans (by rw [h]; rfl))

/-- Without a table nothing is done with an item. -/
theorem take_of_view_error (store : Store) {reason : String}
    (h : s.cache.view fs item.link = .error reason) :
    ∃ found, (s.take (.still fs store) item).2 =
      ((s.table (.still fs store) item.link).2.note (.dropped item)).report found := by
  rw [take_of_table_error ((table_still fs store s item.link).trans (by rw [h]; rfl))]
  dsimp only
  split
  · exact ⟨[], by simp [report]⟩
  · exact ⟨_, rfl⟩

end Take

theorem Step.checked {around : Surroundings} {known : Object → Prop}
    {declared : List String → Prop} {s s' : Session} (h : Step around known declared s s') :
    s'.checked = s.checked := by
  cases h with
  | report found => rfl
  | lookup link => rfl
  | visit tree path => rfl
  | node t => rfl
  | enqueue path => rw [enqueue_eq]

namespace Covers

variable {g : Setting} {fs : Files} {seeds : List Work} {underway : Work → Prop}
  {s s' : Session} {item : WorkItem}

/-- An item that is checked has its leads followed, and then it is done. -/
theorem checkObject {table : Table} (hview : g.view item.link = .ok table)
    (hitem : g.Reaches seeds item.work) (hchecked : item.pair ∈ s.checked)
    (h : s.Covers g fs seeds (· = item.work)) :
    (s.checkObject (.still fs g.store) item table).Covers g fs seeds fun _ => False := by
  have hleads : leadsUnder g.store s.version table item.object = g.leads item.work := by
    simp only [Setting.leads, WorkItem.work, hview, h.version]
  have htrace := checkObject_trace (.still fs g.store) s item table
  rw [show (Surroundings.still fs g.store).store = g.store from rfl, hleads] at htrace
  obtain ⟨⟨hcovers, _⟩, hrecords⟩ := htrace.collect
    (P := fun s => s.Covers g fs seeds (· = item.work)) (Q := fun lead s => s.Records g lead)
    (by
      intro a b hstep ha
      exact ⟨ha.aside hstep,
        fun lead hrecords => hrecords.mono (grows_asides hstep.asides).pairs⟩)
    (by
      intro a b lead hlead hstep ha
      obtain ⟨hb, hrecords⟩ := hstep.covers
        (fun w hwork => .next hitem (List.mem_filterMap.2 ⟨lead, hlead, hwork⟩)) ha
      refine ⟨⟨hb, fun other hother => hother.mono ?_⟩, hrecords⟩
      have hheld : (fun _ : Object => True) item.object := trivial
      have hsprung := sprung_of_mem_leadsUnder g.store.closed_true.spans hheld (hleads ▸ hlead)
      exact (hstep.steps g.store.closed_true
        (hsprung.mono id (fun _ => trivial) fun _ => trivial)).grows.pairs)
    h
  have hkept : (s.checkObject (.still fs g.store) item table).checked = s.checked :=
    checkObject_keep (P := fun s' => s'.checked = s.checked)
      (fun hstep hsame => hstep.checked.trans hsame) item rfl
  refine hcovers.imp ?_
  rintro w rfl
  refine .inr ⟨?_, fun _ => hkept ▸ hchecked⟩
  intro w' hw'
  obtain ⟨lead, hlead, hwork⟩ := List.mem_filterMap.1 hw'
  exact hrecords lead hlead w' hwork

/-- An item is under way once it does not wait any more. -/
theorem pop {rest : List WorkItem} (hqueue : s.queue = item :: rest)
    (h : s.Covers g fs seeds fun _ => False) :
    ({ s with queue := rest } : Session).Covers g fs seeds (· = item.work) := by
  refine ⟨h.view, h.version, ?_, ?_, h.checked⟩
  · exact fun waiting hwaiting => h.queued waiting (hqueue ▸ List.mem_cons_of_mem item hwaiting)
  · intro pair hpair
    obtain ⟨w, hw, hname, ⟨waiting, hwaiting, rfl⟩ | hunder | hdone⟩ := h.recorded pair hpair
    · refine ⟨_, hw, hname, ?_⟩
      rcases List.mem_cons.1 (hqueue ▸ hwaiting) with rfl | hwaiting
      · exact .inr (.inl rfl)
      · exact .inl ⟨waiting, hwaiting, rfl⟩
    · exact hunder.elim
    · exact ⟨w, hw, hname, .inr (.inr hdone)⟩

theorem enter {table : Table} (hview : g.view item.link = .ok table)
    (hitem : g.Reaches seeds item.work) (h : s.Covers g fs seeds underway) :
    (s.enter item).Covers g fs seeds underway := by
  refine ⟨h.view, h.version, h.queued, ?_, ?_⟩
  · intro pair hpair
    obtain ⟨w, hw, hname, hstate⟩ := h.recorded pair hpair
    exact ⟨w, hw, hname, hstate.imp_right <| .imp_right fun hdone =>
      ⟨hdone.next, fun hcheck => List.mem_append_left _ (hdone.checked hcheck)⟩⟩
  · intro pair hpair
    rcases List.mem_append.1 hpair with hold | hnew
    · exact h.checked pair hold
    · rw [List.mem_singleton.1 hnew]
      exact ⟨item.work, hitem, ⟨table, hview⟩, rfl⟩

theorem note (h : s.Covers g fs seeds underway) (event : Event) :
    (s.note event).Covers g fs seeds underway :=
  ⟨h.view, h.version, h.queued, h.recorded, h.checked⟩

/-- An item that was taken is done, whether or not there is a table for it. -/
theorem take {rest : List WorkItem} (hqueue : s.queue = item :: rest)
    (h : s.Covers g fs seeds fun _ => False) :
    (Session.take { s with queue := rest } (.still fs g.store) item).2.Covers g fs seeds
      fun _ => False := by
  have hitem : g.Reaches seeds item.work := h.queued item (hqueue ▸ List.mem_cons_self)
  have hlooked := (h.pop hqueue).aside (.lookup _ item.link)
  cases hview : g.view item.link with
  | ok table =>
    rw [take_of_view_ok (s := { s with queue := rest }) g.store (h.view ▸ hview)]
    exact (hlooked.enter hview hitem).checkObject hview hitem
      (List.mem_append_right _ (List.mem_singleton_self _))
  | error reason =>
    obtain ⟨found, hleft⟩ := take_of_view_error (s := { s with queue := rest }) g.store
      (h.view ▸ hview)
    rw [hleft]
    refine ((hlooked.note (.dropped item)).aside (.report _ found)).imp ?_
    rintro w rfl
    refine .inr ⟨?_, ?_⟩
    · intro w' hw'
      simp [Setting.next, Setting.leads, WorkItem.work, hview] at hw'
    · rintro ⟨table, htable⟩
      rw [hview] at htable
      cases htable

theorem drain (h : s.Covers g fs seeds fun _ => False) (fuel count : Nat) :
    (Session.drain (.still fs g.store) fuel count s).2.Covers g fs seeds fun _ => False := by
  have hended : Ended (Covers g fs seeds fun _ => False) (Covers g fs seeds fun _ => False)
      (Session.drain (.still fs g.store) fuel count s) := by
    refine drain_keep ?_ ?_ fuel count h
    · intro a item rest taken b hqueue htake ha
      obtain rfl : _ = b := congrArg Prod.snd htake
      exact ha.take hqueue
    · intro a item rest unavailable b hqueue htake ha
      obtain rfl : _ = b := congrArg Prod.snd htake
      exact ha.take hqueue
  exact hended.state

/-- Work that the seeds lead to has been done once its pair is recorded and nothing waits. -/
theorem done (h : s.Covers g fs seeds fun _ => False) (hqueue : s.queue = [])
    {held : Object → Prop} (hfree : CollisionFree held)
    (hproper : ∀ {w}, g.Reaches seeds w → w.Proper g.store held) {w : Work}
    (hw : g.Reaches seeds w) (hpair : w.pair ∈ s.record.pairs) :
    g.Done s.record.pairs s.checked w := by
  obtain ⟨w', hw', hname, ⟨item, hitem, _⟩ | hunder | hdone⟩ := h.recorded _ hpair
  · rw [hqueue] at hitem
    cases hitem
  · exact hunder.elim
  · rwa [(hproper hw).unique hfree (hproper hw') hname.symm]

theorem mem_pairs (h : s.Covers g fs seeds fun _ => False) (hqueue : s.queue = [])
    {held : Object → Prop} (hfree : CollisionFree held)
    (hproper : ∀ {w}, g.Reaches seeds w → w.Proper g.store held)
    (hseeds : ∀ w ∈ seeds, w.pair ∈ s.record.pairs) {w : Work} (hw : g.Reaches seeds w) :
    w.pair ∈ s.record.pairs := by
  induction hw with
  | seed hseed => exact hseeds _ hseed
  | next hw hnext ih => exact (h.done hqueue hfree hproper hw ih).next _ hnext

end Covers

/-- An object to be added, the link to check it for, and the path to report. -/
structure Seed where
  object : Object
  link : String
  path : String

def Seed.call (seed : Seed) : Call := .seed seed.object seed.link seed.path

/-- The work that adding an object gives. -/
def Seed.work (store : Store) (seed : Seed) : Work :=
  let found := (store.dereference seed.object).getD (seed.object, seed.object.asReference?)
  .check found.1 (.of found.1 found.2) seed.link

theorem Seed.proper (store : Store) {roots : List Object} {seed : Seed}
    (hroot : seed.object ∈ roots) (hlink : '<' ∉ seed.link.toList) :
    (seed.work store).Proper store (store.Holds roots) := by
  refine .check ?_ (store.known_of_seeded rfl) hlink
  have hself : store.Holds roots seed.object :=
    ⟨seed.object, List.mem_append_left _ hroot, seed.object.mem_parts_self⟩
  cases hfound : store.dereference seed.object with
  | none => exact hself
  | some found =>
    rcases Store.reference_of_dereference hfound with ⟨hsame, _⟩ | ⟨id, _, hresolve⟩
    · exact hsame ▸ hself
    · exact (store.spans_holds roots).resolved hresolve

variable {g : Setting} {fs : Files} {works : List Work} {s : Session}

/-- An object that is added waits to be checked. -/
theorem Covers.seed (h : s.Covers g fs works fun _ => False) {seed : Seed}
    (hseed : seed.work g.store ∈ works) :
    (s.call (.still fs g.store) seed.call).Covers g fs works (fun _ => False) ∧
      (seed.work g.store).pair ∈ (s.call (.still fs g.store) seed.call).record.pairs := by
  refine ⟨?_, Record.mem_pairs_insert.2 (.inr rfl)⟩
  refine h.extend rfl rfl rfl (List.subset_append_left _ _) ?_ (pairs_mark s _ _).subset ?_
  · intro item hitem
    rcases List.mem_append.1 hitem with hold | hnew
    · exact h.queued item hold
    · rw [List.mem_singleton.1 hnew]
      exact .seed hseed
  · intro pair hpair
    refine (Record.mem_pairs_insert.1 hpair).imp_right ?_
    rintro rfl
    exact ⟨_, .seed hseed, rfl, .inl ⟨_, List.mem_append_right _ (List.mem_singleton_self _), rfl⟩⟩

theorem Covers.seeds (h : s.Covers g fs works fun _ => False) {seeds : List Seed}
    (hseeds : ∀ seed ∈ seeds, seed.work g.store ∈ works) :
    (s.after (.still fs g.store) (seeds.map Seed.call)).Covers g fs works (fun _ => False) ∧
      ∀ seed ∈ seeds, (seed.work g.store).pair ∈
        (s.after (.still fs g.store) (seeds.map Seed.call)).record.pairs := by
  induction seeds generalizing s with
  | nil => exact ⟨h, fun seed hseed => by cases hseed⟩
  | cons seed seeds ih =>
    obtain ⟨hfirst, hrecorded⟩ := h.seed (hseeds seed List.mem_cons_self)
    obtain ⟨hrest, hothers⟩ :=
      ih hfirst fun other hother => hseeds other (List.mem_cons_of_mem seed hother)
    refine ⟨hrest, ?_⟩
    intro other hother
    rcases List.mem_cons.1 hother with rfl | hother
    · exact (grows_after _ _ (seeds.map Seed.call)).pairs.subset hrecorded
    · exact hothers other hother

/-- One run of a new session, with all of these seeds added before. -/
def runSeeds (fs : Files) (store : Store) (cache : Cache) (version : Option Version)
    (budget : Option Nat) (seeds : List Seed) : Except Unavailable Stats × Session :=
  ((start store cache version budget).after (.still fs store) (seeds.map Seed.call)).run
    (.still fs store)

/-- What stays as it is during such a run. -/
def settingOf (fs : Files) (store : Store) (cache : Cache) (version : Option Version) : Setting :=
  ⟨cache.view fs, store, (version.or store.version).getD .two⟩

theorem covers_runSeeds (fs : Files) (store : Store) (cache : Cache) (version : Option Version)
    (budget : Option Nat) (seeds : List Seed) :
    (runSeeds fs store cache version budget seeds).2.Covers (settingOf fs store cache version) fs
        (seeds.map (Seed.work store)) (fun _ => False) ∧
      ∀ seed ∈ seeds, (seed.work store).pair ∈
        (runSeeds fs store cache version budget seeds).2.record.pairs := by
  have hstart : (start store cache version budget).Covers (settingOf fs store cache version) fs
      (seeds.map (Seed.work store)) fun _ => False := by
    refine ⟨rfl, rfl, ?_, ?_, ?_⟩
    · exact fun item hitem => by cases hitem
    · exact fun pair hpair => by cases hpair
    · exact fun pair hpair => by cases hpair
  obtain ⟨hseeded, hrecorded⟩ := hstart.seeds fun seed hseed => List.mem_map_of_mem hseed
  refine ⟨hseeded.drain _ 0, ?_⟩
  exact fun seed hseed => (grows_drain _ _ 0 _).pairs.subset (hrecorded seed hseed)

section Complete

variable {folder : Folder} {cache : Cache} {store : Store} {version : Option Version}
  {budget : Option Nat} {seeds : List Seed} {stats : Stats}

/-- Without collisions, a run that was not stopped has recorded all that its seeds lead to, and
has checked what there are tables for. -/
theorem complete_of_runSeeds (hcache : cache.Reached folder)
    (hlinks : ∀ seed ∈ seeds, '<' ∉ seed.link.toList)
    (hfree : CollisionFree (store.Holds (seeds.map Seed.object)))
    (hrun : (runSeeds fs store cache version budget seeds).1 = .ok stats)
    (hend : stats.cancelled = false) {w : Work}
    (hw : (settingOf fs store cache version).Reaches (seeds.map (Seed.work store)) w) :
    w.pair ∈ (runSeeds fs store cache version budget seeds).2.record.pairs ∧
      (w.Checkable (settingOf fs store cache version) →
        w.pair ∈ (runSeeds fs store cache version budget seeds).2.checked) := by
  obtain ⟨hcovers, hrecorded⟩ := covers_runSeeds fs store cache version budget seeds
  have hqueue : (runSeeds fs store cache version budget seeds).2.queue = [] := by
    have hdrain := drain_of_run hrun
    rw [hend] at hdrain
    exact queue_of_drain hdrain
  have hproper {w : Work}
      (hw : (settingOf fs store cache version).Reaches (seeds.map (Seed.work store)) w) :
      w.Proper store (store.Holds (seeds.map Seed.object)) := by
    refine Setting.Reaches.proper (fun hview => hcache.wellFormed_view hview) ?_ hw
    intro w hseed
    obtain ⟨seed, hmem, rfl⟩ := List.mem_map.1 hseed
    exact seed.proper store (List.mem_map_of_mem hmem) (hlinks seed hmem)
  have hseeds : ∀ w ∈ seeds.map (Seed.work store),
      w.pair ∈ (runSeeds fs store cache version budget seeds).2.record.pairs := by
    simpa only [List.forall_mem_map] using hrecorded
  have hpair := hcovers.mem_pairs hqueue hfree hproper hseeds hw
  exact ⟨hpair, (hcovers.done hqueue hfree hproper hw hpair).checked⟩

/-- What such a run records and checks is what its seeds lead to. -/
theorem mem_of_runSeeds (hcache : cache.Reached folder)
    (hlinks : ∀ seed ∈ seeds, '<' ∉ seed.link.toList)
    (hfree : CollisionFree (store.Holds (seeds.map Seed.object)))
    (hrun : (runSeeds fs store cache version budget seeds).1 = .ok stats)
    (hend : stats.cancelled = false) (pair : Identity × String) :
    (pair ∈ (runSeeds fs store cache version budget seeds).2.checked ↔
        ∃ w, (settingOf fs store cache version).Reaches (seeds.map (Seed.work store)) w ∧
          w.Checkable (settingOf fs store cache version) ∧ w.pair = pair) ∧
      (pair ∈ (runSeeds fs store cache version budget seeds).2.record.pairs ↔
        ∃ w, (settingOf fs store cache version).Reaches (seeds.map (Seed.work store)) w ∧
          w.pair = pair) := by
  have hcovers := (covers_runSeeds fs store cache version budget seeds).1
  refine ⟨⟨hcovers.checked pair, ?_⟩, ?_, ?_⟩
  · rintro ⟨w, hw, hcheck, rfl⟩
    exact (complete_of_runSeeds hcache hlinks hfree hrun hend hw).2 hcheck
  · intro hpair
    obtain ⟨w, hw, hname, _⟩ := hcovers.recorded pair hpair
    exact ⟨w, hw, hname⟩
  · rintro ⟨w, hw, rfl⟩
    exact (complete_of_runSeeds hcache hlinks hfree hrun hend hw).1

end Complete

/-- Two runs that were not stopped check and record the same pairs, in whatever order their seeds
were added. No link of a seed may look like the title of a tree. -/
theorem same_of_perm {folder : Folder} {cache : Cache} (hcache : cache.Reached folder)
    (fs : Files) (store : Store) (version : Option Version) (budget budget' : Option Nat)
    {seeds seeds' : List Seed} (hperm : seeds.Perm seeds')
    (hlinks : ∀ seed ∈ seeds, '<' ∉ seed.link.toList)
    (hfree : CollisionFree (store.Holds (seeds.map Seed.object))) {stats stats' : Stats}
    (hrun : (runSeeds fs store cache version budget seeds).1 = .ok stats)
    (hend : stats.cancelled = false)
    (hrun' : (runSeeds fs store cache version budget' seeds').1 = .ok stats')
    (hend' : stats'.cancelled = false) (pair : Identity × String) :
    let s := (runSeeds fs store cache version budget seeds).2
    let s' := (runSeeds fs store cache version budget' seeds').2
    (pair ∈ s.checked ↔ pair ∈ s'.checked) ∧ (pair ∈ s.record.pairs ↔ pair ∈ s'.record.pairs) := by
  intro s s'
  have hlinks' : ∀ seed ∈ seeds', '<' ∉ seed.link.toList :=
    fun seed hseed => hlinks seed (hperm.mem_iff.2 hseed)
  have hroots : seeds'.map Seed.object ⊆ seeds.map Seed.object := (hperm.map _).symm.subset
  have hfree' : CollisionFree (store.Holds (seeds'.map Seed.object)) :=
    fun a b ha hb => hfree a b (ha.mono hroots) (hb.mono hroots)
  have hreaches (w : Work) :
      (settingOf fs store cache version).Reaches (seeds.map (Seed.work store)) w ↔
        (settingOf fs store cache version).Reaches (seeds'.map (Seed.work store)) w :=
    ⟨.mono (hperm.map _).subset, .mono (hperm.map _).symm.subset⟩
  obtain ⟨hchecked, hrecorded⟩ := mem_of_runSeeds hcache hlinks hfree hrun hend pair
  obtain ⟨hchecked', hrecorded'⟩ := mem_of_runSeeds hcache hlinks' hfree' hrun' hend' pair
  constructor
  · rw [hchecked, hchecked']
    simp only [hreaches]
  · rw [hrecorded, hrecorded']
    simp only [hreaches]

end Session

namespace Cycle

def seeds : List Session.Seed := [⟨.reference first, "Ring", ""⟩, ⟨.reference second, "Ring", ""⟩]

/-- All that there is in the document and among the seeds. -/
def held : List Object :=
  [.reference first, .reference second, .dictionary [("Next", .reference second)],
    .dictionary [("Next", .reference first)]]

theorem collisionFree : CollisionFree (store.Holds (seeds.map Session.Seed.object)) := by
  have hreference (id : ObjectId) : (Object.reference id).bytes = (Object.reference id).lead := by
    simp [Object.bytes, Object.encodePieces, Object.inside]
  have hdictionary (id : ObjectId) : (Object.dictionary [("Next", .reference id)]).bytes =
      Object.tag '<' :: Object.encodeCount 1 ++ Object.tag 'k' :: Object.encodeText "Next" ++
        (Object.reference id).lead := by
    simp [Object.bytes, Object.encodePieces, Object.inside, Object.Piece.ofEntry, Object.lead]
  have hnodup : (held.map Object.fingerprint).Nodup := by
    simp only [held, List.map_cons, List.map_nil, Object.fingerprint, hreference, hdictionary]
    decide +kernel
  refine collisionFree_of_nodup (List.Subset.refl held) ?_ hnodup
  simp [held, Object.parts, Object.partsOfEntries]

end Cycle

/-- Two objects that refer to each other are both added, and checked in the order in which they
are. -/
theorem Session.same_of_perm_cycle :
    let s := (runSeeds .empty Cycle.store Cycle.cache none none Cycle.seeds).2
    let s' := (runSeeds .empty Cycle.store Cycle.cache none none Cycle.seeds.reverse).2
    s.checked ≠ s'.checked ∧ ∀ pair,
      (pair ∈ s.checked ↔ pair ∈ s'.checked) ∧
        (pair ∈ s.record.pairs ↔ pair ∈ s'.record.pairs) := by
  intro s s'
  have hlinks : ∀ seed ∈ Cycle.seeds, '<' ∉ seed.link.toList := by decide +kernel
  have hrun : (runSeeds .empty Cycle.store Cycle.cache none none Cycle.seeds).1 =
      .ok ⟨.two, 2, 2, 0, false⟩ := by decide +kernel
  have hrun' : (runSeeds .empty Cycle.store Cycle.cache none none Cycle.seeds.reverse).1 =
      .ok ⟨.two, 2, 2, 0, false⟩ := by decide +kernel
  exact ⟨by decide +kernel, same_of_perm Cycle.cache_reached .empty Cycle.store none none none
    (List.reverse_perm Cycle.seeds).symm hlinks Cycle.collisionFree hrun rfl hrun' rfl⟩

end PdfConform
