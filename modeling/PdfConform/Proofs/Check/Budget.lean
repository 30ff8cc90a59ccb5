import Mathlib.Algebra.GroupWithZero.Nat
import PdfConform.Proofs.Check.Accounting
import PdfConform.Proofs.Check.Runs
import PdfConform.Proofs.Check.Simulation

/-! Runs on a budget. A run that is stopped at its budget can be taken up again, and the runs
that follow one another do together what one run without a budget does. -/
namespace PdfConform

namespace Session

def withBudget (s : Session) (budget : Option Nat) : Session := { s with budget }

/-- No step looks at the budget. -/
theorem simulation_withBudget (around : Surroundings) (budget : Option Nat) :
    Simulation around fun s s' => s' = s.withBudget budget where
  version := by rintro s _ rfl; rfl
  queue := by rintro s _ rfl; rfl
  report := by rintro s _ found rfl; rfl
  note := by rintro s _ event rfl; rfl
  table := by rintro s _ link rfl; exact ⟨rfl, rfl⟩
  mark := by rintro s _ identity link rfl; exact ⟨rfl, rfl⟩
  enqueue := by
    rintro s _ object reference link path rfl
    have hfresh : ((s.withBudget budget).mark (.of object reference) link).1 =
        (s.mark (.of object reference) link).1 := rfl
    unfold enqueue
    dsimp only
    rw [hfresh]
    split <;> rfl
  enter := by rintro s _ item rfl; rfl
  pop := by rintro s _ rest rfl; rfl

theorem take_withBudget (around : Surroundings) (budget : Option Nat) (s : Session)
    {rest : List WorkItem} {item : WorkItem} {result : Except Unavailable Bool} {s' : Session}
    (h : take { s with queue := rest } around item = (result, s')) :
    take { s.withBudget budget with queue := rest } around item =
      (result, s'.withBudget budget) := by
  have hsame : { s.withBudget budget with queue := rest } =
      ({ s with queue := rest } : Session).withBudget budget := rfl
  obtain ⟨hresult, hsession⟩ := (simulation_withBudget around budget).take item hsame
  rw [h] at hresult hsession
  exact Prod.ext hresult.symm hsession

/-- Runs that are taken up again as long as they are stopped, the first of them with so many
objects checked already: how many each of those stopped had checked, and how the last one ended. -/
inductive Slices (around : Surroundings) : Nat → Session → List Nat → End × Session → Prop
  | last {count : Nat} {s s' : Session} {ended : End} : Runs around count s (ended, s') →
    (∀ checked, ended ≠ .ok (checked, true)) → Slices around count s [] (ended, s')
  | again {count checked : Nat} {s s' : Session} {stopped : List Nat} {ended : End × Session} :
    Runs around count s (.ok (checked, true), s') → Slices around 0 s' stopped ended →
    Slices around count s (checked :: stopped) ended

variable {around : Surroundings}

theorem Slices.turn {count : Nat} {s s' : Session} {item : WorkItem} {rest : List WorkItem}
    {checked : Bool} {stopped : List Nat} {ended : End × Session} (hqueue : s.queue = item :: rest)
    (hgo : s.shouldStop count = false)
    (htake : Session.take { s with queue := rest } around item = (.ok checked, s'))
    (h : Slices around (if checked then count + 1 else count) s' stopped ended) :
    Slices around count s stopped ended := by
  cases h with
  | last hruns hend => exact .last (.turn hqueue hgo htake hruns) hend
  | again hruns hrest => exact .again (.turn hqueue hgo htake hruns) hrest

/-- How a run ends beside the last of its slices: the same, with all objects checked of which
`whole` were counted before instead of those since the last stop, of which `part` were. -/
inductive Tally (whole part : Nat) : End → End → Prop
  | failed (unavailable : Unavailable) : Tally whole part (.error unavailable) (.error unavailable)
  | ended {all last : Nat} (flag : Bool) : all + part = last + whole →
    Tally whole part (.ok (all, flag)) (.ok (last, flag))

/-- A run that has `count` objects checked, `inSlice` of them in the slice it is at, comes to the
same in slices that keep to the budget. -/
def Sliced (around : Surroundings) (budget count inSlice : Nat) (s : Session)
    (ended : End × Session) : Prop :=
  ∃ stopped last, Slices around inSlice (s.withBudget (some budget)) stopped
      (last, ended.2.withBudget (some budget)) ∧
    (∀ checked ∈ stopped, checked ≤ budget) ∧
    (∀ checked flag, last = .ok (checked, flag) → checked ≤ budget) ∧
    Tally (count + stopped.sum) inSlice ended.1 last

/-- A slice that has used up its budget is followed by a new one. -/
theorem Sliced.used_up {budget count : Nat} {s : Session} {ended : End × Session}
    (hqueue : s.queue ≠ []) (h : Sliced around budget count 0 s ended) :
    Sliced around budget count budget s ended := by
  obtain ⟨result, final⟩ := ended
  obtain ⟨stopped, last, hslices, hstopped, hlast, htally⟩ := h
  dsimp only at htally
  have hstop : (s.withBudget (some budget)).shouldStop budget = true := by
    simp [shouldStop, withBudget]
  refine ⟨budget :: stopped, last, .again (.stopped hqueue hstop) hslices, ?_, hlast, ?_⟩
  · exact List.forall_mem_cons.2 ⟨Nat.le_refl _, hstopped⟩
  · rw [List.sum_cons]
    cases htally with
    | failed unavailable => exact .failed unavailable
    | ended flag hcount => exact .ended flag (by omega)

theorem Sliced.of_lt {budget count : Nat} (hbudget : 0 < budget) {s : Session}
    {ended : End × Session} (hqueue : s.queue ≠ [])
    (h : ∀ inSlice < budget, Sliced around budget count inSlice s ended) {inSlice : Nat}
    (hle : inSlice ≤ budget) : Sliced around budget count inSlice s ended := by
  rcases Nat.lt_or_eq_of_le hle with hlt | rfl
  · exact h inSlice hlt
  · exact (h 0 hbudget).used_up hqueue

/-- The flag is not raised, and there is no budget. -/
structure Unstopped (s : Session) : Prop where
  flag : s.cancelled = false
  budget : s.budget = none

theorem Unstopped.step {known : Object → Prop} {declared : List String → Prop} {s s' : Session}
    (hstep : Step around known declared s s') (h : s.Unstopped) : s'.Unstopped := by
  cases hstep with
  | report found => exact ⟨h.flag, h.budget⟩
  | lookup link => exact ⟨h.flag, h.budget⟩
  | visit tree path => exact ⟨h.flag, h.budget⟩
  | node t => exact ⟨h.flag, h.budget⟩
  | enqueue path =>
    rw [enqueue_eq]
    exact ⟨h.flag, h.budget⟩

theorem Unstopped.take {s s' : Session} (h : s.Unstopped) {item : WorkItem}
    {rest : List WorkItem} {result : Except Unavailable Bool}
    (htake : Session.take { s with queue := rest } around item = (result, s')) :
    s'.Unstopped := by
  have htaken := taken_take { s with queue := rest } around item
  rw [htake] at htaken
  cases htaken with
  | checked table _ => exact checkObject_keep Unstopped.step item ⟨h.flag, h.budget⟩
  | passed found => exact ⟨h.flag, h.budget⟩
  | failed unavailable => exact ⟨h.flag, h.budget⟩

theorem Runs.unstopped {count : Nat} {s : Session} {ended : End × Session}
    (h : Runs around count s ended) (hs : s.Unstopped) : ended.2.Unstopped := by
  induction h with
  | drained => exact hs
  | stopped => exact hs
  | failed _ _ htake => exact hs.take htake
  | turn _ _ htake _ ih => exact ih (hs.take htake)

theorem shouldStop_withBudget {s : Session} (hflag : s.cancelled = false) {budget inSlice : Nat}
    (hlt : inSlice < budget) : (s.withBudget (some budget)).shouldStop inSlice = false := by
  simp [shouldStop, withBudget, hflag, hlt]

/-- Induction on the run without a budget, for every place in a slice at which it can be. -/
theorem sliced_of_runs {budget : Nat} (hbudget : 0 < budget) {count : Nat} {s : Session}
    {ended : End × Session} (h : Runs around count s ended) (hs : s.Unstopped) {inSlice : Nat}
    (hle : inSlice ≤ budget) : Sliced around budget count inSlice s ended := by
  induction h generalizing inSlice with
  | @drained count s hqueue =>
    refine ⟨[], .ok (inSlice, false), .last (.drained hqueue) (by simp), by simp, ?_, ?_⟩
    · intro checked flag hlast
      cases hlast
      exact hle
    · exact .ended false (Nat.add_comm _ _)
  | @stopped count s _ hstop => simp [shouldStop, hs.flag, hs.budget] at hstop
  | @failed count s s' item rest unavailable hqueue _ htake =>
    refine Sliced.of_lt hbudget (by simp [hqueue]) ?_ hle
    intro inSlice hlt
    have hgo := shouldStop_withBudget hs.flag hlt
    have hfailed := Runs.failed (s := s.withBudget (some budget)) hqueue hgo
      (take_withBudget around (some budget) s htake)
    exact ⟨[], .error unavailable, .last hfailed (by simp), by simp, by simp, .failed unavailable⟩
  | @turn count s s' item rest checked ended hqueue _ htake _ ih =>
    refine Sliced.of_lt hbudget (by simp [hqueue]) ?_ hle
    intro inSlice hlt
    have hgo := shouldStop_withBudget hs.flag hlt
    have hnext : (if checked then inSlice + 1 else inSlice) ≤ budget := by
      split <;> omega
    obtain ⟨result, final⟩ := ended
    obtain ⟨stopped, last, hslices, hstopped, hlast, htally⟩ := ih (hs.take htake) hnext
    dsimp only at htally
    refine ⟨stopped, last, .turn hqueue hgo
      (take_withBudget around (some budget) s htake) hslices, hstopped, hlast, ?_⟩
    cases htally with
    | failed unavailable => exact .failed unavailable
    | ended flag hcount => exact .ended flag (by split at hcount <;> omega)

/-- Runs one after another as long as they are stopped: how those ended that were stopped, and
how the last one did. -/
inductive Repeats (around : Surroundings) :
    Session → List Stats → Except Unavailable Stats × Session → Prop
  | failed {s s' : Session} {unavailable : Unavailable} :
    s.run around = (.error unavailable, s') → Repeats around s [] (.error unavailable, s')
  | finished {s s' : Session} {stats : Stats} : s.run around = (.ok stats, s') →
    stats.cancelled = false → Repeats around s [] (.ok stats, s')
  | again {s s' : Session} {stats : Stats} {stopped : List Stats}
    {last : Except Unavailable Stats × Session} : s.run around = (.ok stats, s') →
    stats.cancelled = true → Repeats around s' stopped last →
    Repeats around s (stats :: stopped) last

theorem Repeats.unique {s : Session} {stopped stopped' : List Stats}
    {last last' : Except Unavailable Stats × Session} (h : Repeats around s stopped last)
    (k : Repeats around s stopped' last') : stopped = stopped' ∧ last = last' := by
  induction h generalizing stopped' last' with
  | failed hrun =>
    cases k with
    | failed hrun' => rw [hrun] at hrun'; cases hrun'; exact ⟨rfl, rfl⟩
    | finished hrun' => rw [hrun] at hrun'; cases hrun'
    | again hrun' => rw [hrun] at hrun'; cases hrun'
  | finished hrun hgo =>
    cases k with
    | failed hrun' => rw [hrun] at hrun'; cases hrun'
    | finished hrun' => rw [hrun] at hrun'; cases hrun'; exact ⟨rfl, rfl⟩
    | again hrun' hstop => rw [hrun] at hrun'; cases hrun'; rw [hgo] at hstop; cases hstop
  | again hrun hstop _ ih =>
    cases k with
    | failed hrun' => rw [hrun] at hrun'; cases hrun'
    | finished hrun' hgo => rw [hrun] at hrun'; cases hrun'; rw [hgo] at hstop; cases hstop
    | again hrun' _ hrest =>
      rw [hrun] at hrun'
      cases hrun'
      obtain ⟨rfl, rfl⟩ := ih hrest
      exact ⟨rfl, rfl⟩

/-- What waits at the end of a run: something if it was stopped, and else nothing. -/
theorem Runs.queue {count checked : Nat} {flag : Bool} {s s' : Session}
    (h : Runs around count s (.ok (checked, flag), s')) : flag = true ↔ 0 < s'.queue.length := by
  generalize hended : ((.ok (checked, flag), s') : End × Session) = ended at h
  induction h with
  | drained hqueue => cases hended; simp [hqueue]
  | stopped hne => cases hended; simpa [List.length_pos_iff] using hne
  | failed => cases hended
  | turn _ _ _ _ ih => exact ih hended

theorem repeats_of_slices {fs : Files} {store : Store} {count : Nat} {s : Session}
    {stopped : List Nat} {ended : End × Session}
    (h : Slices (.still fs store) count s stopped ended) (hcount : count = 0) :
    ∃ stats, Repeats (.still fs store) s stats (ended.1.map ended.2.statsOf, ended.2) ∧
      stats.map Stats.checked = stopped ∧
      ∀ st, st ∈ stats ∨ ended.1.map ended.2.statsOf = .ok st →
        (st.cancelled = true ↔ 0 < st.remaining) := by
  induction h with
  | @last count s s' result hruns hend =>
    subst hcount
    have hrun := run_of_runs hruns
    refine ⟨[], ?_, rfl, ?_⟩
    · cases result with
      | error unavailable => exact .failed hrun
      | ok checked =>
        obtain ⟨checked, flag⟩ := checked
        cases flag with
        | true => exact absurd rfl (hend checked)
        | false => exact .finished hrun rfl
    · rintro st (hst | hst)
      · cases hst
      · cases result with
        | error unavailable => cases hst
        | ok checked => cases hst; exact hruns.queue
  | @again count checked s s' stopped ended hruns _ ih =>
    subst hcount
    obtain ⟨stats, hrepeats, hchecked, hstats⟩ := ih rfl
    refine ⟨s'.statsOf (checked, true) :: stats, .again (run_of_runs hruns) rfl hrepeats, ?_, ?_⟩
    · rw [List.map_cons, hchecked]
      rfl
    · rintro st (hst | hst)
      · rcases List.mem_cons.1 hst with rfl | hst
        · exact hruns.queue
        · exact hstats st (.inl hst)
      · exact hstats st (.inr hst)

/-- Runs on a budget, one after another until one is not stopped, do together what one run
without a budget does: they leave the same findings, record, queue and log of checked objects, and
the last ends as that run does, with its count added to those before. None checks more than the
budget allows, and those that are stopped leave something to be done. -/
theorem repeats_of_run (fs : Files) (store : Store) {s : Session} {budget : Nat}
    (hbudget : 0 < budget) (hlimit : s.budget = some budget) (hflag : s.cancelled = false) :
    let around := Surroundings.still fs store
    let full := (s.withBudget none).run around
    (∃ stopped last, Repeats around s stopped last) ∧
      ∀ stopped last, Repeats around s stopped last →
        full.2 = last.2.withBudget none ∧
        (full.1 = last.1.map fun stats =>
          { stats with checked := (stopped.map Stats.checked).sum + stats.checked }) ∧
        ∀ stats, stats ∈ stopped ∨ last.1 = .ok stats →
          stats.checked ≤ budget ∧ (stats.cancelled = true ↔ 0 < stats.remaining) := by
  intro around full
  have hfull := runs_run fs store (s.withBudget none)
  rcases hended : drain around ((s.withBudget none).bound around) 0 (s.withBudget none) with
    ⟨ended, final⟩
  rw [hended] at hfull
  have hrun : full = (ended.map final.statsOf, final) := run_of_runs hfull
  obtain ⟨counts, last, hslices, hcounts, hlast, htally⟩ :=
    sliced_of_runs hbudget hfull ⟨hflag, rfl⟩ (Nat.zero_le budget)
  have hsame : (s.withBudget none).withBudget (some budget) = s := by
    rw [← hlimit]
    rfl
  rw [hsame] at hslices
  obtain ⟨stats, hrepeats, hchecked, hstats⟩ := repeats_of_slices hslices rfl
  refine ⟨⟨stats, _, hrepeats⟩, ?_⟩
  intro stopped result hresult
  obtain ⟨rfl, rfl⟩ := hrepeats.unique hresult
  have hfinal : (final.withBudget (some budget)).withBudget none = final := by
    rw [← (hfull.unstopped ⟨hflag, rfl⟩).budget]
    rfl
  refine ⟨?_, ?_, ?_⟩
  · rw [hrun]
    exact hfinal.symm
  · rw [hrun, hchecked]
    dsimp only at htally
    cases htally with
    | failed unavailable => rfl
    | @ended all rest flag hcount =>
      obtain rfl : all = counts.sum + rest := by omega
      rfl
  · intro st hst
    refine ⟨?_, hstats st hst⟩
    rcases hst with hst | hst
    · exact hcounts _ (hchecked ▸ List.mem_map_of_mem hst)
    · cases last with
      | error unavailable => cases hst
      | ok ended => cases hst; exact hlast _ _ rfl

/-- Two objects that refer to each other are checked one a run. -/
theorem repeats_of_run_cycle :
    let s := (start Cycle.store Cycle.cache none (some 1)).after Cycle.around
      [.seed (.reference Cycle.first) "Ring" ""]
    let full := (s.withBudget none).run Cycle.around
    0 < 1 ∧ s.budget = some 1 ∧ s.cancelled = false ∧ full.2.checked.length = 2 ∧
      ∃ stopped last, Repeats Cycle.around s stopped last ∧ full.2 = last.2.withBudget none := by
  intro s full
  obtain ⟨⟨stopped, last, hrepeats⟩, hall⟩ :=
    repeats_of_run .empty Cycle.store (s := s) Nat.one_pos rfl rfl
  exact ⟨Nat.one_pos, rfl, rfl, by decide +kernel, stopped, last, hrepeats,
    (hall stopped last hrepeats).1⟩

end Session

end PdfConform
