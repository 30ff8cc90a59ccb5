import Mathlib.Data.List.Nodup
import PdfConform.Proofs.Check.Ledger

/-! No work is lost and none is repeated, whatever is asked of a session and however its
runs end. -/
namespace PdfConform

namespace Session

/-- What lasts as long as a session does. -/
structure Lasting (s : Session) : Prop where
  balanced : s.Balanced
  tables : s.cache.WellFormed

variable {around : Surroundings} {known : Object → Prop} {declared : List String → Prop}

/-- What lookups keep of a cache, a check keeps. -/
theorem Step.keep_cache {P : Cache → Prop}
    (hget : ∀ c fs link, P c → P (Cache.get c fs link).2.1) {s s' : Session}
    (hstep : Step around known declared s s') (h : P s.cache) : P s'.cache := by
  cases hstep with
  | report found => exact h
  | lookup link => exact hget _ _ link h
  | visit tree path => exact h
  | node t => exact h
  | enqueue path =>
    rw [enqueue_eq]
    exact h

theorem Step.tables {s s' : Session} (hstep : Step around known declared s s')
    (h : s.cache.WellFormed) : s'.cache.WellFormed :=
  hstep.keep_cache (P := Cache.WellFormed) (fun _ fs link hc => Cache.wellFormed_get hc fs link) h

namespace Lasting

theorem start {folder : Folder} {cache : Cache} (hcache : cache.Reached folder) (store : Store)
    (version : Option Version) (budget : Option Nat) :
    (Session.start store cache version budget).Lasting :=
  ⟨balanced_start store cache version budget, hcache.wellFormed⟩

theorem checkObject {s : Session} (h : s.Lasting) {item : WorkItem} {table : Table}
    (htable : s.cache.find? item.link = some (.ok table)) :
    (s.checkObject around item table).Lasting :=
  ⟨h.balanced.checkObject (h.tables _ _ htable) item, checkObject_keep Step.tables item h.tables⟩

/-- An item leaves the queue, and whatever becomes of it is in the log. -/
theorem take {s s' : Session} (h : s.Lasting) {item : WorkItem} {rest : List WorkItem}
    {result : Except Unavailable Bool} (hqueue : s.queue = item :: rest)
    (htake : Session.take { s with queue := rest } around item = (result, s')) : s'.Lasting := by
  have hledger : Ledger s.log (item :: rest) s.checked s.record.pairs := hqueue ▸ h.balanced
  have htables := Cache.wellFormed_get h.tables (around.filesAfter s.findings) item.link
  have htaken := taken_take { s with queue := rest } around item
  rw [htake] at htaken
  cases htaken with
  | checked table hfind =>
    have hentered :
        ((Session.table { s with queue := rest } around item.link).2.enter item).Lasting :=
      ⟨hledger.checked_of_taken, htables⟩
    exact hentered.checkObject hfind
  | passed found => exact ⟨hledger.dropped_of_taken, htables⟩
  | failed unavailable => exact ⟨hledger.dropped_of_taken, htables⟩

end Lasting

inductive Call
  | seed (object : Object) (link path : String)
  | run
  /-- A run during which the flag is raised once so many items have been taken. -/
  | interrupted (items : Nat)
  | flag (raised : Bool)

def call (around : Surroundings) (s : Session) : Call → Session
  | .seed object link path => s.seed around.store object link path
  | .run => (s.run around).2
  | .interrupted items => { (drain around items 0 s).2 with cancelled := true }
  | .flag raised => { s with cancelled := raised }

def after (around : Surroundings) (s : Session) (calls : List Call) : Session :=
  calls.foldl (call around) s

/-- What seeds, the flag and the taking of items keep is kept by any calls. -/
theorem after_keep {P : Session → Prop} {calls : List Call}
    (hseed : ∀ s object link path, .seed object link path ∈ calls → P s →
      P (s.seed around.store object link path))
    (hflag : ∀ s raised, P s → P { s with cancelled := raised })
    (htake : ∀ s item rest result s', s.queue = item :: rest →
      Session.take { s with queue := rest } around item = (result, s') → P s → P s')
    {s : Session} (hs : P s) : P (s.after around calls) := by
  have hdrain (fuel : Nat) {s : Session} (hs : P s) : P (Session.drain around fuel 0 s).2 := by
    have hended : Ended P P (Session.drain around fuel 0 s) :=
      drain_keep (fun s item rest taken => htake s item rest (.ok taken))
        (fun s item rest unavailable => htake s item rest (.error unavailable)) fuel 0 hs
    exact hended.state
  induction calls generalizing s with
  | nil => exact hs
  | cons c calls ih =>
    have hcall : P (s.call around c) := by
      cases c with
      | seed object link path => exact hseed s object link path List.mem_cons_self hs
      | run => exact hdrain _ hs
      | interrupted items => exact hflag _ true (hdrain items hs)
      | flag raised => exact hflag s raised hs
    exact ih (fun s object link path hmem => hseed s object link path (List.mem_cons_of_mem c hmem))
      hcall

theorem grows_call (around : Surroundings) (s : Session) (c : Call) :
    Grows s (s.call around c) := by
  cases c with
  | seed object link path =>
    exact ⟨rfl, List.prefix_refl _, pairs_mark s _ link, List.prefix_append _ _, fun _ _ h => h⟩
  | run => exact grows_drain around (s.bound around) 0 s
  | interrupted items =>
    have hgrows := grows_drain around items 0 s
    exact ⟨hgrows.version, hgrows.findings, hgrows.pairs, hgrows.log, hgrows.tables⟩
  | flag raised =>
    exact ⟨rfl, List.prefix_refl _, List.prefix_refl _, List.prefix_refl _, fun _ _ h => h⟩

theorem grows_after (around : Surroundings) (s : Session) (calls : List Call) :
    Grows s (s.after around calls) := by
  induction calls generalizing s with
  | nil => exact .refl s
  | cons c calls ih => exact (grows_call around s c).trans (ih _)

theorem Lasting.after {s : Session} (h : s.Lasting) (calls : List Call) :
    (s.after around calls).Lasting :=
  after_keep (fun _ object link path _ hs => ⟨hs.balanced.seed around.store object link path,
      hs.tables⟩)
    (fun _ _ hs => ⟨hs.balanced, hs.tables⟩)
    (fun _ _ _ _ _ hqueue htake hs => hs.take hqueue htake) h

theorem Lasting.call {s : Session} (h : s.Lasting) (c : Call) : (s.call around c).Lasting :=
  h.after [c]

namespace Balanced

variable {s : Session}

/-- What was put into the queue is where it can be accounted for, each as often. -/
theorem perm_accounted (h : s.Balanced) :
    s.accounted.Perm ((s.seeds ++ s.discovered).map WorkItem.pair) := by
  have hchecked : s.checked = s.checkedItems.map WorkItem.pair := h.checked
  have hput : s.put = s.taken ++ s.queue := h.order
  have hleft : ((s.checkedItems ++ s.dropped) ++ s.queue).Perm s.put := by
    rw [hput]
    exact s.perm_taken.symm.append_right s.queue
  have hall := (hleft.trans s.perm_put).map WorkItem.pair
  rw [List.map_append, List.map_append, ← hchecked] at hall
  exact hall

theorem length_accounted (h : s.Balanced) :
    s.seeds.length + s.discovered.length =
      s.checked.length + s.dropped.length + s.queue.length := by
  have hlength := h.perm_accounted.length_eq
  simp only [accounted, List.length_append, List.length_map] at hlength
  omega

/-- Pairs are discovered once; only a pair that is seeded can come again. -/
theorem count_accounted (h : s.Balanced) (pair : Identity × String) :
    s.accounted.count pair ≤ (s.seeds.map WorkItem.pair).count pair + 1 := by
  have honce : (s.discovered.map WorkItem.pair).count pair ≤ 1 :=
    List.nodup_iff_count_le_one.1 h.nodup pair
  rw [h.perm_accounted.count_eq, List.map_append, List.count_append]
  omega

theorem accounted_of_recorded (h : s.Balanced) {pair : Identity × String}
    (hpair : pair ∈ s.record.pairs) (hname : IsLinkName pair.2) : pair ∈ s.accounted := by
  rcases h.origin pair hpair with hput | ⟨t, htitle⟩
  · exact (h.perm_accounted.trans (s.perm_put.map _).symm).mem_iff.2 hput
  · exact absurd htitle (Tree.title_ne hname t)

theorem recorded_and_accounted (h : s.Balanced) {pair : Identity × String}
    (hpair : pair ∈ s.seeds.map WorkItem.pair ∨ pair ∈ s.met) :
    pair ∈ s.record.pairs ∧ pair ∈ s.accounted := by
  rcases hpair with hseed | hmet
  · obtain ⟨item, hitem, rfl⟩ := List.mem_map.1 hseed
    refine ⟨h.seeds item hitem, h.perm_accounted.mem_iff.2 ?_⟩
    rw [List.map_append]
    exact List.mem_append_left _ hseed
  · obtain ⟨hrecorded, hname⟩ := h.met pair hmet
    exact ⟨hrecorded, h.accounted_of_recorded hrecorded hname⟩

end Balanced

/-- After any calls what was queued has been checked, was dropped or waits. A pair that was
seeded or met is recorded and is to be found there, and no more often than once for each seed
and once more. -/
theorem accounted_after {folder : Folder} {cache : Cache} (hcache : cache.Reached folder)
    (around : Surroundings) (version : Option Version) (budget : Option Nat)
    (calls : List Call) :
    let s := (start around.store cache version budget).after around calls
    s.seeds.length + s.discovered.length =
        s.checked.length + s.dropped.length + s.queue.length ∧
      (∀ pair, pair ∈ s.seeds.map WorkItem.pair ∨ pair ∈ s.met →
        pair ∈ s.record.pairs ∧ pair ∈ s.accounted) ∧
      ∀ pair, s.accounted.count pair ≤ (s.seeds.map WorkItem.pair).count pair + 1 := by
  intro s
  have hlasting : s.Lasting := (Lasting.start hcache around.store version budget).after calls
  have hbalanced := hlasting.balanced
  refine ⟨hbalanced.length_accounted, ?_, ?_⟩
  · exact fun pair hpair => hbalanced.recorded_and_accounted hpair
  · exact fun pair => hbalanced.count_accounted pair

end Session

/-! A grammar of one table, and two dictionaries that refer to each other. -/
namespace Cycle

def folder : Folder := .of "grammar"

def grammar : String :=
  String.intercalate "\t" Row.columns ++ "\nNext\tdictionary\t\t\tTRUE\tTRUE\t\t\t\t\t[Ring]\n"

def files : Files := ⟨[(["grammar", "Ring.tsv"], .file grammar.toUTF8)]⟩

def row : Row where
  line := 2
  key := .name "Next"
  types := [.known .dictionary]
  since := none
  deprecated := none
  required := .const true
  indirect := .const true
  requiredValue := none
  defaultText := ""
  possible := [⟨[]⟩]
  special := none
  links := [["Ring"]]

def table : Table := ⟨"Ring", "grammar/Ring.tsv", Row.columns, [row], []⟩

theorem load_ring : Cache.load folder files "Ring" = (.ok table, []) := by decide +kernel

/-- A cache in which the one table was looked up before. -/
def cache : Cache := ⟨folder, [("Ring", .ok table)]⟩

theorem get_ring : (Cache.ofFolder folder).get files "Ring" = (.ok table, cache, []) :=
  Cache.get_ofFolder load_ring

theorem cache_reached : cache.Reached folder := .ofLoad load_ring

def first : ObjectId := ⟨1, 0⟩

def second : ObjectId := ⟨2, 0⟩

def store : Store := ⟨none, [],
  [(first, .dictionary [("Next", .reference second)]),
    (second, .dictionary [("Next", .reference first)])]⟩

/-- With the table in the cache no file is read any more. -/
def around : Surroundings := .still .empty store

end Cycle

/-- A pair that was met and then seeded is there twice, as often as one seed allows. -/
theorem Session.accounted_after_cycle :
    let s := (start Cycle.store Cycle.cache none none).after Cycle.around
      [.seed (.reference Cycle.first) "Ring" "", .interrupted 1, .flag false,
        .seed (.reference Cycle.second) "Ring" "", .run]
    let pair := (Identity.indirect Cycle.second, "Ring")
    s.checked.length = 3 ∧ s.accounted.count pair = 2 ∧
      s.accounted.count pair ≤ (s.seeds.map WorkItem.pair).count pair + 1 := by
  intro s pair
  refine ⟨by decide +kernel, by decide +kernel, ?_⟩
  exact (accounted_after Cycle.cache_reached Cycle.around none none _).2.2 pair

end PdfConform
