import PdfConform.Proofs.Check.Accounting
import PdfConform.Proofs.Check.Runs
import PdfConform.Proofs.Check.Simulation

/-! What was looked up before. A cache that holds tables already spares the lookups that
report what is wrong with them, and changes nothing in what is found on a document. -/
namespace PdfConform

namespace Session

/-- What was found on the document, without what is wrong with the grammar. -/
def documentFindings (s : Session) : List Finding :=
  s.findings.filter fun f => !f.kind.isGrammarDefect

/-- Sessions that differ only in which tables were loaded and what was found in those. -/
structure SameButLoaded (fs : Files) (s s' : Session) : Prop where
  version : s.version = s'.version
  budget : s.budget = s'.budget
  cancelled : s.cancelled = s'.cancelled
  view : s.cache.view fs = s'.cache.view fs
  record : s.record = s'.record
  queue : s.queue = s'.queue
  checked : s.checked = s'.checked
  findings : s.documentFindings = s'.documentFindings
  log : s.log = s'.log

namespace SameButLoaded

variable {fs : Files} {store : Store} {s s' : Session}

theorem report (h : SameButLoaded fs s s') (found : List Finding) :
    SameButLoaded fs (s.report found) (s'.report found) := by
  refine { h with findings := ?_ }
  unfold documentFindings Session.report
  rw [List.filter_append, List.filter_append]
  exact congrArg (· ++ _) h.findings

theorem documentFindings_table (s : Session) (link : String) :
    (s.table (.still fs store) link).2.documentFindings = s.documentFindings := by
  have hnone : (s.cache.get fs link).2.2.filter (fun f => !f.kind.isGrammarDefect) = [] := by
    rw [List.filter_eq_nil_iff]
    intro f hf
    rw [Cache.isGrammarDefect_of_mem_get hf]
    simp
  change (s.findings ++ (s.cache.get fs link).2.2).filter (fun f => !f.kind.isGrammarDefect) = _
  rw [List.filter_append, hnone, List.append_nil]
  rfl

theorem table (h : SameButLoaded fs s s') (link : String) :
    Matches (SameButLoaded fs) (s.table (.still fs store) link)
      (s'.table (.still fs store) link) := by
  refine ⟨?_, { h with view := ?_, findings := ?_ }⟩
  · rw [table_still, table_still, h.view]
  · rw [view_table, view_table, h.view]
  · rw [documentFindings_table, documentFindings_table, h.findings]

theorem mark (h : SameButLoaded fs s s') (identity : Identity) (link : String) :
    Matches (SameButLoaded fs) (s.mark identity link) (s'.mark identity link) := by
  have hfresh : (s.record.insert identity link).1 = (s'.record.insert identity link).1 := by
    rw [h.record]
  have hrecord : (s.record.insert identity link).2 = (s'.record.insert identity link).2 := by
    rw [h.record]
  exact ⟨hfresh, { h with record := hrecord }⟩

theorem note (h : SameButLoaded fs s s') (event : Event) :
    SameButLoaded fs (s.note event) (s'.note event) :=
  { h with log := congrArg (· ++ [event]) h.log }

theorem enqueue (h : SameButLoaded fs s s') (object : Object) (reference : Option ObjectId)
    (link path : String) :
    SameButLoaded fs (s.enqueue object reference link path)
      (s'.enqueue object reference link path) := by
  obtain ⟨hfresh, hmarked⟩ := h.mark (.of object reference) link
  unfold Session.enqueue
  dsimp only
  rw [hfresh]
  split
  · exact { hmarked with queue := congrArg (· ++ _) h.queue, log := congrArg (· ++ _) h.log }
  · exact hmarked.note _

theorem simulation (fs : Files) (store : Store) :
    Simulation (.still fs store) (SameButLoaded fs) where
  version h := h.version
  queue h := h.queue
  report found h := h.report found
  note event h := h.note event
  table link h := h.table link
  mark identity link h := h.mark identity link
  enqueue object reference link path h := h.enqueue object reference link path
  enter _ h :=
    { h with checked := congrArg (· ++ _) h.checked, log := congrArg (· ++ _) h.log }
  pop _ h := { h with queue := rfl }

theorem shouldStop (h : SameButLoaded fs s s') (count : Nat) :
    s.shouldStop count = s'.shouldStop count := by
  unfold Session.shouldStop
  rw [h.cancelled, h.budget]

/-- A run depends on what is loaded by the findings on the grammar only. -/
theorem run (h : SameButLoaded fs s s') :
    Matches (SameButLoaded fs) (s.run (.still fs store)) (s'.run (.still fs store)) := by
  obtain ⟨⟨ended', last'⟩, hruns', hend, hlast⟩ :=
    (simulation fs store).congruent.runs (fun count h => h.shouldStop count) (runs_run fs store s) h
  have hrun := run_of_runs (runs_run fs store s)
  have hrun' := run_of_runs hruns'
  rw [hrun, hrun']
  obtain rfl : _ = ended' := hend
  refine ⟨?_, hlast⟩
  dsimp only
  unfold statsOf
  rw [hlast.version, hlast.record, hlast.queue]

theorem call (h : SameButLoaded fs s s') (c : Call) :
    SameButLoaded fs (s.call (.still fs store) c) (s'.call (.still fs store) c) := by
  cases c with
  | seed object link path =>
    have hmarked (identity : Identity) := (h.mark identity link).2
    exact { hmarked _ with queue := congrArg (· ++ _) h.queue, log := congrArg (· ++ _) h.log }
  | run => exact h.run.2
  | interrupted items =>
    have hdrain := (simulation fs store).congruent.drain (fun count h => h.shouldStop count)
      items 0 h
    exact { hdrain.2 with cancelled := rfl }
  | flag raised => exact { h with cancelled := rfl }

theorem after (h : SameButLoaded fs s s') (calls : List Call) :
    SameButLoaded fs (s.after (.still fs store) calls) (s'.after (.still fs store) calls) :=
  List.foldl_rel h fun c _ _ _ hcalls => hcalls.call c

end SameButLoaded

/-- Over unchanged files a run ends the same, checks the same and finds the same on the document,
whatever was looked up in the cache before. -/
theorem run_of_warmed {folder : Folder} {fs : Files} {cache : Cache}
    (hcache : cache.Warmed folder fs) (store : Store) (version : Option Version)
    (budget : Option Nat) (calls : List Call) :
    let around := Surroundings.still fs store
    let warm := ((start store cache version budget).after around calls).run around
    let cold := ((start store (.ofFolder folder) version budget).after around calls).run around
    warm.1 = cold.1 ∧ SameButLoaded fs warm.2 cold.2 := by
  intro around warm cold
  have hstart : SameButLoaded fs (start store cache version budget)
      (start store (.ofFolder folder) version budget) :=
    ⟨rfl, rfl, rfl, hcache.view_eq, rfl, rfl, rfl, rfl, rfl⟩
  exact (hstart.after calls).run

end Session

/-- A folder with an empty grammar file. -/
def Cycle.emptyGrammar : Files := ⟨[(["grammar", "Ring.tsv"], .file "".toUTF8)]⟩

/-- That a file is empty is found by the run that is the first to load it. -/
theorem Session.run_of_warmed_cycle :
    let around := Surroundings.still Cycle.emptyGrammar Cycle.store
    let cache := ((Cache.ofFolder Cycle.folder).get Cycle.emptyGrammar "Ring").2.1
    let calls : List Call := [.seed (.reference Cycle.first) "Ring" ""]
    let warm := ((start Cycle.store cache none none).after around calls).run around
    let cold := ((start Cycle.store (.ofFolder Cycle.folder) none none).after around calls).run
      around
    warm.2.findings.length = 0 ∧ cold.2.findings.length = 1 ∧ warm.1 = cold.1 ∧
      SameButLoaded Cycle.emptyGrammar warm.2 cold.2 := by
  intro around cache calls warm cold
  have hcache : cache.Warmed Cycle.folder Cycle.emptyGrammar := .get "Ring" .empty
  obtain ⟨hresult, hsessions⟩ := run_of_warmed hcache Cycle.store none none calls
  have hwarm : warm.2.findings.length = 0 := by decide +kernel
  have hcold : cold.2.findings.length = 1 := by decide +kernel
  exact ⟨hwarm, hcold, hresult, hsessions⟩

end PdfConform
