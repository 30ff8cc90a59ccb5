import PdfConform.Proofs.Check.Recheck
import PdfConform.Proofs.Check.SeedOrder

/-! A run goes breadth-first. What waits is served in the order in which it was queued, and so
everything at one depth is taken before anything that lies deeper. -/
namespace PdfConform

/-- The item was taken to be checked, and nothing was taken since. -/
inductive UnderCheck (item : WorkItem) : List Event → Prop
  | since (before : List Event) {between : List Event} : between.filterMap Event.taken? = [] →
    UnderCheck item (before ++ .checked item :: between)

/-- What one more event does to the queue. Seeds come before anything is taken, and what is met
while an item is being checked has not been queued before. -/
inductive Serves (log : List Event) : List WorkItem → Event → List WorkItem → Prop
  | seeded (queue : List WorkItem) (item : WorkItem) : log.filterMap Event.taken? = [] →
    Serves log queue (.seeded item) (queue ++ [item])
  | queued (queue : List WorkItem) {parent item : WorkItem} : UnderCheck parent log →
    item ∉ log.filterMap Event.put? → Serves log queue (.queued item) (queue ++ [item])
  | repeated (queue : List WorkItem) (identity : Identity) (link : String) :
    Serves log queue (.repeated identity link) queue
  | visited (queue : List WorkItem) (tree path : String) :
    Serves log queue (.visited tree path) queue
  | checked (item : WorkItem) (queue : List WorkItem) :
    Serves log (item :: queue) (.checked item) queue
  | dropped (item : WorkItem) (queue : List WorkItem) :
    Serves log (item :: queue) (.dropped item) queue

/-- First come, first served: a log with what waits at its end. -/
inductive Served : List Event → List WorkItem → Prop
  | empty : Served [] []
  | next {log : List Event} {queue queue' : List WorkItem} {event : Event} : Served log queue →
    Serves log queue event queue' → Served (log ++ [event]) queue'

/-- Seeds lie at depth 0, and what is queued while an item is being checked one deeper than it. -/
structure Levels (depth : WorkItem → Nat) (log : List Event) : Prop where
  seeded : ∀ item, .seeded item ∈ log → depth item = 0
  queued : ∀ before item after, log = before ++ .queued item :: after →
    ∃ parent, UnderCheck parent before ∧ depth item = depth parent + 1

/-- The depth of the item that was taken last, 0 before the first. -/
def frontier (depth : WorkItem → Nat) (taken : List WorkItem) : Nat :=
  (taken.getLast?.map depth).getD 0

/-- Items go by their depth, and what waits lies at most one below what was taken last. -/
structure Banded (depth : WorkItem → Nat) (taken queue : List WorkItem) : Prop where
  sorted : (taken ++ queue).Pairwise fun a b => depth a ≤ depth b
  band : ∀ item ∈ queue, depth item ≤ frontier depth taken + 1

theorem Event.eq_of_put? {event : Event} {item : WorkItem} (h : event.put? = some item) :
    event = .seeded item ∨ event = .queued item := by
  cases event <;> simp_all [put?]

theorem UnderCheck.taken {item : WorkItem} {log : List Event} (h : UnderCheck item log) :
    ∃ before, log.filterMap Event.taken? = before ++ [item] := by
  obtain ⟨before, hnone⟩ := h
  exact ⟨before.filterMap Event.taken?, by simp [Event.taken?, hnone]⟩

theorem UnderCheck.snoc {item : WorkItem} {log : List Event} (h : UnderCheck item log)
    {event : Event} (hevent : event.taken? = none) : UnderCheck item (log ++ [event]) := by
  obtain ⟨before, hnone⟩ := h
  rw [List.append_assoc, List.cons_append]
  exact .since before (by simp [hnone, hevent])

namespace Levels

variable {depth : WorkItem → Nat} {log : List Event}

theorem of_prefix {moment : List Event} (h : Levels depth log) (hmoment : moment <+: log) :
    Levels depth moment := by
  obtain ⟨rest, rfl⟩ := hmoment
  constructor
  · intro item hitem
    exact h.seeded item (List.mem_append_left rest hitem)
  · intro before item after hsplit
    apply h.queued before item (after ++ rest)
    simp [hsplit]

/-- What one more event asks of the depths. -/
theorem snoc {event : Event} (h : Levels depth log)
    (hseeded : ∀ item, event = .seeded item → depth item = 0)
    (hqueued : ∀ item, event = .queued item →
      ∃ parent, UnderCheck parent log ∧ depth item = depth parent + 1) :
    Levels depth (log ++ [event]) := by
  constructor
  · intro item hitem
    rcases List.mem_append.1 hitem with hold | hnew
    · exact h.seeded item hold
    · exact hseeded item (List.mem_singleton.1 hnew).symm
  · intro before item after hsplit
    rcases List.eq_nil_or_concat after with rfl | ⟨after, last, rfl⟩
    · obtain ⟨rfl, hevent⟩ := List.append_inj' hsplit rfl
      exact hqueued item (List.singleton_inj.1 hevent)
    · rw [List.concat_eq_append, ← List.cons_append, ← List.append_assoc] at hsplit
      exact h.queued before item after (List.append_inj' hsplit rfl).1

theorem congr {depth' : WorkItem → Nat} (h : Levels depth log)
    (hsame : ∀ item, item ∈ log.filterMap Event.put? ∨ item ∈ log.filterMap Event.taken? →
      depth' item = depth item) : Levels depth' log := by
  constructor
  · intro item hitem
    rw [hsame item (.inl (List.mem_filterMap.2 ⟨_, hitem, rfl⟩))]
    exact h.seeded item hitem
  · rintro before item after rfl
    obtain ⟨parent, hparent, hdepth⟩ := h.queued before item after rfl
    obtain ⟨earlier, htaken⟩ := hparent.taken
    refine ⟨parent, hparent, ?_⟩
    rw [hsame item (.inl (by simp [Event.put?])), hsame parent (.inr (by simp [htaken]))]
    exact hdepth

/-- Before anything is taken there are only seeds. -/
theorem eq_zero_of_not_taken (h : Levels depth log) (hnone : log.filterMap Event.taken? = [])
    {item : WorkItem} (hitem : item ∈ log.filterMap Event.put?) : depth item = 0 := by
  obtain ⟨event, hevent, hput⟩ := List.mem_filterMap.1 hitem
  rcases Event.eq_of_put? hput with rfl | rfl
  · exact h.seeded item hevent
  · obtain ⟨before, after, rfl⟩ := List.append_of_mem hevent
    obtain ⟨parent, hparent, _⟩ := h.queued before item after rfl
    obtain ⟨earlier, htaken⟩ := hparent.taken
    simp [htaken] at hnone

end Levels

namespace Banded

variable {depth : WorkItem → Nat} {taken queue : List WorkItem} {item : WorkItem}

theorem frontier_le (h : Banded depth taken queue) (hitem : item ∈ queue) :
    frontier depth taken ≤ depth item := by
  unfold frontier
  cases hlast : taken.getLast? with
  | none => simp
  | some last =>
    have hmem : last ∈ taken := List.mem_of_getLast? hlast
    exact (List.pairwise_append.1 h.sorted).2.2 last hmem item hitem

theorem le_frontier (h : Banded depth taken queue) (hitem : item ∈ taken) :
    depth item ≤ frontier depth taken := by
  obtain ⟨earlier, last, rfl⟩ : ∃ earlier last, taken = earlier ++ [last] := by
    rcases List.eq_nil_or_concat taken with rfl | ⟨earlier, last, rfl⟩
    · cases hitem
    · exact ⟨earlier, last, List.concat_eq_append⟩
  have hsorted := (List.pairwise_append.1 h.sorted).1
  simp only [frontier, List.getLast?_concat, Option.map_some, Option.getD_some]
  rcases List.mem_append.1 hitem with hearlier | hlast
  · exact (List.pairwise_append.1 hsorted).2.2 item hearlier last (List.mem_singleton_self last)
  · rw [List.mem_singleton.1 hlast]

/-- The depths of what waits differ by one at most. -/
theorem within_one (h : Banded depth taken queue) {a b : WorkItem} (ha : a ∈ queue)
    (hb : b ∈ queue) : depth a ≤ depth b + 1 := by
  have hband := h.band a ha
  have hfrontier := h.frontier_le hb
  omega

theorem push (h : Banded depth taken queue) (hlast : ∀ a ∈ taken ++ queue, depth a ≤ depth item)
    (hband : depth item ≤ frontier depth taken + 1) : Banded depth taken (queue ++ [item]) := by
  constructor
  · rw [← List.append_assoc, List.pairwise_append]
    refine ⟨h.sorted, List.pairwise_singleton _ _, ?_⟩
    intro a ha b hb
    rw [List.mem_singleton.1 hb]
    exact hlast a ha
  · intro waiting hwaiting
    rcases List.mem_append.1 hwaiting with hold | hnew
    · exact h.band waiting hold
    · rw [List.mem_singleton.1 hnew]
      exact hband

theorem pop (h : Banded depth taken (item :: queue)) : Banded depth (taken ++ [item]) queue := by
  constructor
  · simpa using h.sorted
  · intro waiting hwaiting
    have hband := h.band waiting (List.mem_cons_of_mem item hwaiting)
    have hfrontier := h.frontier_le List.mem_cons_self
    simp only [frontier, List.getLast?_concat, Option.map_some, Option.getD_some] at hfrontier ⊢
    unfold frontier at hband
    omega

end Banded

namespace Served

variable {log moment : List Event} {queue : List WorkItem} {depth : WorkItem → Nat}

/-- Items are taken in the order in which they were queued. -/
theorem order (h : Served log queue) :
    log.filterMap Event.put? = log.filterMap Event.taken? ++ queue := by
  induction h with
  | empty => rfl
  | next _ hserves ih =>
    rw [filterMap_snoc, filterMap_snoc, ih]
    cases hserves <;> simp [Event.put?, Event.taken?]

/-- Every earlier moment was one of first come, first served. -/
theorem of_prefix (h : Served log queue) (hmoment : moment <+: log) :
    ∃ waiting, Served moment waiting := by
  induction h with
  | empty => exact ⟨[], List.prefix_nil.1 hmoment ▸ .empty⟩
  | next hserved hserves ih =>
    rcases List.prefix_concat_iff.1 hmoment with rfl | hmoment
    · exact ⟨_, .next hserved hserves⟩
    · exact ih hmoment

/-- The rule for depths can be followed: nothing that is queued on the way was there before. -/
theorem exists_levels (h : Served log queue) : ∃ depth, Levels depth log := by
  induction h with
  | empty => exact ⟨fun _ => 0, by simp, by simp⟩
  | @next log queue queue' event hserved hserves ih =>
    obtain ⟨depth, hdepth⟩ := ih
    cases hserves with
    | seeded _ item hnone =>
      have hzero : Levels (fun _ => 0) log := by
        apply hdepth.congr
        rintro other (hput | htaken)
        · exact (hdepth.eq_zero_of_not_taken hnone hput).symm
        · simp [hnone] at htaken
      exact ⟨fun _ => 0, hzero.snoc (fun _ _ => rfl) nofun⟩
    | @queued _ parent item hparent hnew =>
      classical
      have hne : ∀ other, other ∈ log.filterMap Event.put? ∨ other ∈ log.filterMap Event.taken? →
          other ≠ item := by
        rintro other hother rfl
        apply hnew
        rw [hserved.order] at hother ⊢
        exact hother.elim id (List.mem_append_left queue)
      obtain ⟨earlier, htaken⟩ := hparent.taken
      refine ⟨fun other => if other = item then depth parent + 1 else depth other, ?_⟩
      refine (hdepth.congr fun other hother => if_neg (hne other hother)).snoc nofun ?_
      rintro _ ⟨⟩
      exact ⟨parent, hparent, by simp [hne parent (.inr (by simp [htaken]))]⟩
    | _ => exact ⟨depth, hdepth.snoc nofun nofun⟩

/-- Whatever the depths are by the rule, the queue is banded. -/
theorem banded (h : Served log queue) (hlevels : Levels depth log) :
    Banded depth (log.filterMap Event.taken?) queue := by
  induction h with
  | empty => exact ⟨.nil, by simp⟩
  | @next log queue queue' event hserved hserves ih =>
    have hbanded := ih (hlevels.of_prefix (List.prefix_append log [event]))
    rw [filterMap_snoc]
    cases hserves with
    | seeded _ item hnone =>
      have hitem : depth item = 0 := hlevels.seeded item (by simp)
      have hbefore := hlevels.of_prefix (List.prefix_append log [.seeded item])
      simp only [Event.taken?, Option.toList_none, List.append_nil]
      refine hbanded.push ?_ (by omega)
      intro other hother
      rw [← hserved.order] at hother
      have hzero := hbefore.eq_zero_of_not_taken hnone hother
      omega
    | @queued _ _ item _ _ =>
      obtain ⟨parent, hparent, hdepth⟩ := hlevels.queued log item [] rfl
      obtain ⟨earlier, htaken⟩ := hparent.taken
      have hfrontier : frontier depth (log.filterMap Event.taken?) = depth parent := by
        simp [frontier, htaken]
      simp only [Event.taken?, Option.toList_none, List.append_nil]
      refine hbanded.push ?_ (by omega)
      intro other hother
      rcases List.mem_append.1 hother with hother | hother
      · have hle := hbanded.le_frontier hother
        omega
      · have hband := hbanded.band other hother
        omega
    | repeated | visited => simpa [Event.taken?] using hbanded
    | checked item | dropped item => exact hbanded.pop

end Served

namespace Session

/-- The log of the session is one of first come, first served, and what was queued is recorded. -/
structure Orderly (s : Session) : Prop where
  served : Served s.log s.queue
  recorded : ∀ item ∈ s.put, item.pair ∈ s.record.pairs

/-- The same while an item is being checked. -/
structure Checking (item : WorkItem) (s : Session) : Prop extends Orderly s where
  underway : UnderCheck item s.log

variable {around : Surroundings} {s s' : Session}

namespace Orderly

/-- An event by which nothing is queued leaves what was queued recorded. -/
theorem next (h : s.Orderly) {event : Event} (hlog : s'.log = s.log ++ [event])
    (hserves : Serves s.log s.queue event s'.queue) (hput : event.put? = none)
    (hpairs : s.record.pairs ⊆ s'.record.pairs) : s'.Orderly := by
  constructor
  · rw [hlog]
    exact h.served.next hserves
  · intro item hitem
    unfold put at hitem
    rw [hlog, filterMap_snoc, hput, Option.toList_none, List.append_nil] at hitem
    exact hpairs (h.recorded item hitem)

theorem push (h : s.Orderly) {event : Event} {item : WorkItem} (hlog : s'.log = s.log ++ [event])
    (hserves : Serves s.log s.queue event s'.queue) (hput : event.put? = some item)
    (hpairs : s.record.pairs ⊆ s'.record.pairs) (hitem : item.pair ∈ s'.record.pairs) :
    s'.Orderly := by
  constructor
  · rw [hlog]
    exact h.served.next hserves
  · intro other hother
    unfold put at hother
    rw [hlog, filterMap_snoc, hput, List.mem_append] at hother
    rcases hother with hold | hnew
    · exact hpairs (h.recorded other hold)
    · rw [List.mem_singleton.1 hnew]
      exact hitem

end Orderly

theorem Checking.step {item : WorkItem} {known : Object → Prop} {declared : List String → Prop}
    (hstep : Step around known declared s s') (h : s.Checking item) : s'.Checking item := by
  cases hstep with
  | report found => exact ⟨⟨h.served, h.recorded⟩, h.underway⟩
  | lookup link => exact ⟨⟨h.served, h.recorded⟩, h.underway⟩
  | visit tree path =>
    exact ⟨h.next rfl (.visited s.queue tree path) rfl (List.Subset.refl _), h.underway.snoc rfl⟩
  | @node t _ object reference _ _ _ =>
    refine ⟨⟨h.served, ?_⟩, h.underway⟩
    intro other hother
    exact (pairs_mark s _ _).subset (h.recorded other hother)
  | @enqueue path _ link _ object reference _ _ _ _ _ =>
    have hgrows := (grows_enqueue s object reference link path).pairs.subset
    have hrecorded := recorded_of_enqueue s object reference link path
    obtain ⟨_, ⟨hfresh, hqueue, hlog⟩ | ⟨_, hqueue, hlog⟩⟩ :=
      enqueue_cases s object reference link path
    · have hnew : (⟨object, .of object reference, link, path, false⟩ : WorkItem) ∉ s.put :=
        fun hput => hfresh (h.recorded _ hput)
      constructor
      · apply h.push hlog _ rfl hgrows hrecorded
        rw [hqueue]
        exact .queued s.queue h.underway hnew
      · rw [hlog]
        exact h.underway.snoc rfl
    · constructor
      · apply h.next hlog _ rfl hgrows
        rw [hqueue]
        exact .repeated s.queue _ link
      · rw [hlog]
        exact h.underway.snoc rfl

namespace Orderly

theorem start (store : Store) (cache : Cache) (version : Option Version) (budget : Option Nat) :
    (Session.start store cache version budget).Orderly :=
  ⟨.empty, nofun⟩

/-- The first item that waits is taken, and whatever is queued meanwhile goes behind the others. -/
theorem take {item : WorkItem} {rest : List WorkItem} {result : Except Unavailable Bool}
    (h : s.Orderly) (hqueue : s.queue = item :: rest)
    (htake : Session.take { s with queue := rest } around item = (result, s')) : s'.Orderly := by
  have hdropped : Serves s.log s.queue (.dropped item) rest := hqueue ▸ .dropped item rest
  have htaken := taken_take { s with queue := rest } around item
  rw [htake] at htaken
  generalize hlooked : (Session.table { s with queue := rest } around item.link).2 = looked
    at htaken
  have hlog : looked.log = s.log := hlooked ▸ rfl
  have hrest : looked.queue = rest := hlooked ▸ rfl
  have hpairs : s.record.pairs ⊆ looked.record.pairs := hlooked ▸ List.Subset.refl _
  cases htaken with
  | checked table _ =>
    have hchecked : Serves s.log s.queue (.checked item) looked.queue := by
      rw [hqueue, hrest]
      exact .checked item rest
    have hentered : (looked.enter item).Checking item :=
      ⟨h.next (by rw [← hlog]; rfl) hchecked rfl hpairs, .since looked.log rfl⟩
    exact (checkObject_keep Checking.step item hentered).toOrderly
  | passed found => exact h.next (by rw [← hlog]; rfl) (hrest ▸ hdropped) rfl hpairs
  | failed unavailable => exact h.next (by rw [← hlog]; rfl) (hrest ▸ hdropped) rfl hpairs

theorem drain (h : s.Orderly) (fuel count : Nat) :
    (Session.drain around fuel count s).2.Orderly := by
  have hended : Ended Orderly Orderly (Session.drain around fuel count s) := by
    apply drain_keep _ _ fuel count h
    · intro a item rest taken b hqueue htake ha
      exact ha.take hqueue htake
    · intro a item rest unavailable b hqueue htake ha
      exact ha.take hqueue htake
  exact hended.state

/-- Seeds that are added before anything is taken wait in their order. -/
theorem seeds (h : s.Orderly) (hnone : s.taken = []) (seeds : List Seed) :
    (s.after around (seeds.map Seed.call)).Orderly := by
  induction seeds generalizing s with
  | nil => exact h
  | cons seed seeds ih =>
    obtain ⟨item, hlog⟩ : ∃ item, (s.call around seed.call).log = s.log ++ [.seeded item] :=
      ⟨_, rfl⟩
    apply ih
    · exact h.push rfl (.seeded s.queue _ hnone) rfl (pairs_mark s _ _).subset
        (recorded_of_mark s _ _)
    · unfold taken at hnone ⊢
      rw [hlog, filterMap_snoc, hnone]
      rfl

theorem after (h : s.Orderly) {calls : List Call} (hcalls : ∀ c ∈ calls, c.root? = none) :
    (s.after around calls).Orderly := by
  induction calls generalizing s with
  | nil => exact h
  | cons c calls ih =>
    refine ih ?_ fun other hother => hcalls other (List.mem_cons_of_mem c hother)
    have hroot := hcalls c List.mem_cons_self
    cases c with
    | seed object link path => simp [Call.root?] at hroot
    | run => exact h.drain _ 0
    | interrupted items =>
      have hdrain : (Session.drain around items 0 s).2.Orderly := h.drain items 0
      exact ⟨hdrain.served, hdrain.recorded⟩
    | flag raised => exact ⟨h.served, h.recorded⟩

end Orderly

/-- However often a session is run and stopped once its seeds were added, items are taken in the
order in which they were queued. There are depths as the rule wants them, and by any such depths
what was taken and what waits are in order at every moment, and those of what waits differ by one
at most. -/
theorem taken_by_depth (around : Surroundings) (cache : Cache) (version : Option Version)
    (budget : Option Nat) (seeds : List Seed) {calls : List Call}
    (hcalls : ∀ c ∈ calls, c.root? = none) :
    let s := ((start around.store cache version budget).after around (seeds.map Seed.call)).after
      around calls
    s.put = s.taken ++ s.queue ∧ (∃ depth, Levels depth s.log) ∧
      ∀ depth, Levels depth s.log → ∀ moment, moment <+: s.log →
        ∃ waiting, moment.filterMap Event.put? = moment.filterMap Event.taken? ++ waiting ∧
          (moment.filterMap Event.put?).Pairwise (fun a b => depth a ≤ depth b) ∧
          ∀ a ∈ waiting, ∀ b ∈ waiting, depth a ≤ depth b + 1 := by
  intro s
  have hseeded : ((start around.store cache version budget).after around
      (seeds.map Seed.call)).Orderly :=
    (Orderly.start around.store cache version budget).seeds rfl seeds
  have horderly : s.Orderly := hseeded.after hcalls
  refine ⟨horderly.served.order, horderly.served.exists_levels, ?_⟩
  intro depth hlevels moment hmoment
  obtain ⟨waiting, hserved⟩ := horderly.served.of_prefix hmoment
  have hbanded := hserved.banded (hlevels.of_prefix hmoment)
  refine ⟨waiting, hserved.order, ?_, ?_⟩
  · rw [hserved.order]
    exact hbanded.sorted
  · intro a ha b hb
    exact hbanded.within_one ha hb

end Session

/-- One of two objects that refer to each other was added. When it has been taken the other waits,
one deeper. -/
theorem Session.taken_by_depth_cycle :
    let calls : List Call := [.interrupted 1]
    let s := ((start Cycle.store Cycle.cache none none).after Cycle.around
      ([⟨.reference Cycle.first, "Ring", ""⟩].map Seed.call)).after Cycle.around calls
    (∀ c ∈ calls, c.root? = none) ∧ s.taken.length = 1 ∧ s.queue.length = 1 ∧
      s.put = s.taken ++ s.queue ∧
      ∃ depth, Levels depth s.log ∧ s.put.Pairwise fun a b => depth a ≤ depth b := by
  intro calls s
  have hcalls : ∀ c ∈ calls, c.root? = none := by simp [calls, Call.root?]
  obtain ⟨horder, ⟨depth, hlevels⟩, hmoments⟩ := taken_by_depth Cycle.around Cycle.cache none none
    [⟨.reference Cycle.first, "Ring", ""⟩] hcalls
  obtain ⟨_, _, hsorted, _⟩ := hmoments depth hlevels s.log (List.prefix_refl _)
  exact ⟨hcalls, by decide +kernel, by decide +kernel, horder, depth, hlevels, hsorted⟩

end PdfConform
