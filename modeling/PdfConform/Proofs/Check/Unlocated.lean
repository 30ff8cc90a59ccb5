import PdfConform.Proofs.Check.Congruence
import PdfConform.Proofs.Check.Echo
import PdfConform.Proofs.Check.SeedOrder
import PdfConform.Proofs.Report.Replies

/-! Paths only tell a reader where something was found. Runs on the same objects under other paths
go the same way and report the same in the same order. -/
namespace PdfConform

/-- Any two paths may stand for each other. -/
abbrev anyPath : String → String → Prop := fun _ _ => True

namespace Finding

theorem map_pathless_of_like {found found' : List Finding}
    (h : List.Forall₂ (Like anyPath) found found') :
    found.map pathless = found'.map pathless := by
  induction h with
  | nil => rfl
  | @cons f f' rest rest' hfirst _ ih =>
    have hpathless : f.pathless = f'.pathless := by
      rw [hfirst.same]
      rfl
    rw [List.map_cons, List.map_cons, hpathless, ih]

theorem terseLine_pathless (f : Finding) : f.pathless.terseLine = f.terseLine := rfl

theorem map_terseLine_of_pathless {found found' : List Finding}
    (h : found.map pathless = found'.map pathless) :
    found.map terseLine = found'.map terseLine := by
  have hlines := congrArg (List.map terseLine) h
  simpa only [List.map_map, Function.comp_def, terseLine_pathless] using hlines

end Finding

theorem WorkItem.sum_size_of_like {items items' : List WorkItem}
    (h : List.Forall₂ (Like anyPath) items items') :
    (items.map fun item => item.object.size).sum =
      (items'.map fun item => item.object.size).sum := by
  induction h with
  | nil => rfl
  | cons hitem _ ih =>
    rw [List.map_cons, List.map_cons, List.sum_cons, List.sum_cons, hitem.same, ih]

/-- A report depends on the lines of its findings only, whatever its writer takes. -/
theorem Report.addAll_of_lines (r : Report) (writer : Writer) {found found' : List Finding}
    (h : found.map r.format.line = found'.map r.format.line) :
    r.addAll writer found = r.addAll writer found' := by
  have htexts (found : List Finding) :
      r.format.texts found = (found.map r.format.line).flatMap fun line => [line, "\n"] := by
    rw [List.flatMap_map]
    rfl
  have hlength : found.length = found'.length := by
    simpa only [List.length_map] using congrArg List.length h
  rw [addAll_eq, addAll_eq, htexts, htexts, h, hlength]

/-- Files that stay the same whatever paths are reported. -/
def Surroundings.PathBlind (around : Surroundings) : Prop :=
  ∀ found found' : List Finding, found.map Finding.pathless = found'.map Finding.pathless →
    around.filesAfter found = around.filesAfter found'

theorem Surroundings.pathBlind_still (fs : Files) (store : Store) :
    (Surroundings.still fs store).PathBlind := fun _ _ _ => rfl

namespace Session

/-- Sessions that differ in nothing but paths. -/
structure SameButPaths (s s' : Session) : Prop where
  version : s.version = s'.version
  budget : s.budget = s'.budget
  cancelled : s.cancelled = s'.cancelled
  cache : s.cache = s'.cache
  record : s.record = s'.record
  queue : List.Forall₂ (WorkItem.Like anyPath) s.queue s'.queue
  checked : s.checked = s'.checked
  findings : s.findings.map Finding.pathless = s'.findings.map Finding.pathless

namespace SameButPaths

variable {around : Surroundings} {s s' : Session}

theorem report (h : SameButPaths s s') {found found' : List Finding}
    (hfound : List.Forall₂ (Finding.Like anyPath) found found') :
    SameButPaths (s.report found) (s'.report found') := by
  refine { h with findings := ?_ }
  unfold Session.report
  rw [List.map_append, List.map_append, h.findings, Finding.map_pathless_of_like hfound]

theorem note (h : SameButPaths s s') (event event' : Event) :
    SameButPaths (s.note event) (s'.note event') :=
  ⟨h.version, h.budget, h.cancelled, h.cache, h.record, h.queue, h.checked, h.findings⟩

theorem table (h : SameButPaths s s') (hblind : around.PathBlind) (link : String) :
    Matches SameButPaths (s.table around link) (s'.table around link) := by
  have hlooked : s.cache.get (around.filesAfter s.findings) link =
      s'.cache.get (around.filesAfter s'.findings) link := by
    rw [h.cache, hblind _ _ h.findings]
  unfold Session.table
  rw [hlooked]
  refine ⟨rfl, { h with cache := rfl, findings := ?_ }⟩
  dsimp only
  rw [List.map_append, List.map_append, h.findings]

theorem mark (h : SameButPaths s s') (identity : Identity) (link : String) :
    Matches SameButPaths (s.mark identity link) (s'.mark identity link) := by
  unfold Session.mark
  rw [h.record]
  exact ⟨rfl, { h with record := rfl }⟩

theorem enqueue (h : SameButPaths s s') (object : Object) (reference : Option ObjectId)
    (link path path' : String) :
    SameButPaths (s.enqueue object reference link path)
      (s'.enqueue object reference link path') := by
  obtain ⟨hfresh, hmarked⟩ := h.mark (.of object reference) link
  unfold Session.enqueue
  dsimp only
  rw [hfresh]
  split
  · exact { hmarked with queue := List.rel_append h.queue (.cons ⟨trivial, rfl⟩ .nil) }
  · exact hmarked.note _ _

theorem enter (h : SameButPaths s s') {item item' : WorkItem} (hitem : item.Like anyPath item') :
    SameButPaths (s.enter item) (s'.enter item') := by
  have hpair : item'.pair = item.pair := by
    rw [hitem.same]
    rfl
  refine { h with checked := ?_ }
  unfold Session.enter
  rw [h.checked, hpair]

/-- No step looks at a path. -/
theorem congruent (hblind : around.PathBlind) : Congruent around anyPath SameButPaths where
  extend _ _ := trivial
  version h := h.version
  queue h := h.queue
  report hfound h := h.report hfound
  visit _ _ h := h.note _ _
  drop _ h := h.note _ _
  table link h := h.table hblind link
  mark identity link _ h := h.mark identity link
  enqueue object reference link _ _ h := h.enqueue object reference link _ _
  enter hitem h := h.enter hitem
  pop hrest h := { h with queue := hrest }

theorem shouldStop (h : SameButPaths s s') (count : Nat) :
    s.shouldStop count = s'.shouldStop count := by
  unfold Session.shouldStop
  rw [h.cancelled, h.budget]

theorem bound (h : SameButPaths s s') (hblind : around.PathBlind) :
    s.bound around = s'.bound around := by
  unfold Session.bound
  rw [WorkItem.sum_size_of_like h.queue, h.queue.length_eq, h.cache, hblind _ _ h.findings]

theorem drain (h : SameButPaths s s') (hblind : around.PathBlind) (fuel count : Nat) :
    Matches SameButPaths (Session.drain around fuel count s)
      (Session.drain around fuel count s') :=
  (congruent hblind).drain (fun count h => h.shouldStop count) fuel count h

theorem run (h : SameButPaths s s') (hblind : around.PathBlind) :
    Matches SameButPaths (s.run around) (s'.run around) := by
  have hdrain := h.drain hblind (s.bound around) 0
  unfold Session.run
  rw [← h.bound hblind]
  generalize Session.drain around (s.bound around) 0 s = drained at hdrain ⊢
  generalize Session.drain around (s.bound around) 0 s' = drained' at hdrain ⊢
  obtain ⟨ended, last⟩ := drained
  obtain ⟨ended', last'⟩ := drained'
  obtain ⟨rfl, hlast⟩ := hdrain
  refine ⟨?_, hlast⟩
  dsimp only
  rw [hlast.version, hlast.record, hlast.queue.length_eq]

end SameButPaths

/-- A call without the path under which an object is added. -/
def Call.pathless : Call → Call
  | .seed object link _ => .seed object link ""
  | .run => .run
  | .interrupted items => .interrupted items
  | .flag raised => .flag raised

namespace SameButPaths

variable {around : Surroundings} {s s' : Session}

theorem seed (h : SameButPaths s s') (store : Store) (object : Object)
    (link path path' : String) :
    SameButPaths (s.seed store object link path) (s'.seed store object link path') := by
  have hmarked (identity : Identity) := (h.mark identity link).2
  unfold Session.seed
  exact { hmarked _ with queue := List.rel_append h.queue (.cons ⟨trivial, rfl⟩ .nil) }

theorem call (h : SameButPaths s s') (hblind : around.PathBlind) {c c' : Call}
    (hcalls : c.pathless = c'.pathless) : SameButPaths (s.call around c) (s'.call around c') := by
  cases c with
  | seed object link path =>
    cases c' with
    | seed object' link' path' =>
      cases hcalls
      exact h.seed around.store object link path path'
    | _ => cases hcalls
  | run =>
    cases c' with
    | run => exact (h.run hblind).2
    | _ => cases hcalls
  | interrupted items =>
    cases c' with
    | interrupted items' =>
      cases hcalls
      exact { (h.drain hblind items 0).2 with cancelled := rfl }
    | _ => cases hcalls
  | flag raised =>
    cases c' with
    | flag raised' =>
      cases hcalls
      exact { h with cancelled := rfl }
    | _ => cases hcalls

theorem after (h : SameButPaths s s') (hblind : around.PathBlind) {calls calls' : List Call}
    (hcalls : calls.map Call.pathless = calls'.map Call.pathless) :
    SameButPaths (s.after around calls) (s'.after around calls') := by
  induction calls generalizing s s' calls' with
  | nil =>
    rw [List.map_nil, eq_comm, List.map_eq_nil_iff] at hcalls
    rw [hcalls]
    exact h
  | cons c calls ih =>
    rw [List.map_cons, eq_comm, List.map_eq_cons_iff] at hcalls
    obtain ⟨c', rest, rfl, hfirst, hrest⟩ := hcalls
    exact ih (h.call hblind hfirst.symm) hrest.symm

end SameButPaths

/-- After calls that differ only in the paths of what they add, a run ends the same, has checked
the same in the same order and has found the same in the same order, paths aside. What a terse
report holds is the same, whether or not it is taken whole. -/
theorem run_of_pathless (fs : Files) (store : Store) (cache : Cache) (version : Option Version)
    (budget : Option Nat) {calls calls' : List Call}
    (hcalls : calls.map Call.pathless = calls'.map Call.pathless) :
    let around := Surroundings.still fs store
    let one := ((start store cache version budget).after around calls).run around
    let other := ((start store cache version budget).after around calls').run around
    one.1 = other.1 ∧ one.2.checked = other.2.checked ∧
      one.2.findings.map Finding.pathless = other.2.findings.map Finding.pathless ∧
      ∀ writer : Report.Writer, (Report.new .terse).addAll writer one.2.findings =
        (Report.new .terse).addAll writer other.2.findings := by
  intro around one other
  have hblind := Surroundings.pathBlind_still fs store
  have hstart : SameButPaths (start store cache version budget)
      (start store cache version budget) := ⟨rfl, rfl, rfl, rfl, rfl, .nil, rfl, rfl⟩
  obtain ⟨hresult, hsame⟩ := (hstart.after hblind hcalls).run hblind
  refine ⟨hresult, hsame.checked, hsame.findings, ?_⟩
  exact fun writer => (Report.new .terse).addAll_of_lines writer
    (Finding.map_terseLine_of_pathless hsame.findings)

end Session

/-- An empty dictionary lacks a key that its table requires, on either path. -/
theorem Session.run_of_pathless_cycle :
    let around := Surroundings.still .empty Cycle.store
    let calls (path : String) : List Call := [.seed (.dictionary []) "Ring" path]
    let one := ((start Cycle.store Cycle.cache none none).after around (calls "Left")).run around
    let other := ((start Cycle.store Cycle.cache none none).after around (calls "Right")).run around
    one.2.findings.map Finding.context = ["Left"] ∧
      other.2.findings.map Finding.context = ["Right"] ∧
      (calls "Left").map Call.pathless = (calls "Right").map Call.pathless ∧
      one.1 = other.1 ∧ one.2.checked = other.2.checked ∧
      one.2.findings.map Finding.pathless = other.2.findings.map Finding.pathless ∧
      ∀ writer : Report.Writer, (Report.new .terse).addAll writer one.2.findings =
        (Report.new .terse).addAll writer other.2.findings := by
  intro around calls one other
  have hcalls : (calls "Left").map Call.pathless = (calls "Right").map Call.pathless := rfl
  have hone : one.2.findings.map Finding.context = ["Left"] := by decide +kernel
  have hother : other.2.findings.map Finding.context = ["Right"] := by decide +kernel
  exact ⟨hone, hother, hcalls, run_of_pathless .empty Cycle.store Cycle.cache none none hcalls⟩

end PdfConform
