import PdfConform.Proofs.Check.Accounting
import PdfConform.Proofs.Check.Runs
import PdfConform.Proofs.Check.Sources
import PdfConform.Proofs.Schema.Listing

/-! What validations over a folder tell of its grammar, once a sweep found nothing wrong: neither do
they, and a table is missing only where the folder has no file. The sweep overlooks the file of the
empty link, so this is so for seeds of that link exactly if that file can be loaded. -/
namespace PdfConform

/-- A fault of the document, or a table that the folder does not hold. -/
structure Finding.Excused (f : Finding) (folder : Folder) (fs : Files) : Prop where
  document : f.kind.isGrammarDefect = false
  missing : f.kind = .schemaMissing → ¬folder.Holds fs f.link

/-- What a check finds itself is about the document. -/
theorem Finding.OfItem.excused {around : Surroundings} {version : Version} {item : WorkItem}
    {f : Finding} (h : f.OfItem around version item) (folder : Folder) (fs : Files) :
    f.Excused folder fs := by
  have hkind (kinds : List Kind) (hf : f.kind ∈ kinds) (hkinds : ∀ kind ∈ kinds,
      kind.isGrammarDefect = false ∧ kind ≠ .schemaMissing) : f.Excused folder fs :=
    ⟨(hkinds _ hf).1, fun heq => absurd heq (hkinds _ hf).2⟩
  have hchoice {link : String} (h : f.OfChoice link) : f.Excused folder fs := by
    refine hkind [.ambiguousLink, .unresolvedLink] ?_ (by decide)
    cases h <;> simp
  cases h with
  | noContainer => exact hkind [.typeMismatch] (List.mem_singleton.2 rfl) (by decide)
  | scope _ hscope =>
    cases hscope with
    | entry _ hentry =>
      obtain ⟨kind, message, rfl, hmem⟩ := Scope.exists_of_mem_entryFindings hentry
      exact hkind _ hmem (by decide)
    | choice h => exact hchoice h
    | tree _ htree =>
      cases htree with
      | choice h => exact hchoice h
      | shape _ _ hmem => exact hkind _ hmem (by decide)
      | value => exact hkind [.typeMismatch] (List.mem_singleton.2 rfl) (by decide)

namespace Cache

variable {folder : Folder} {fs : Files} {c : Cache}

theorem getAll_of_ok {link : String} {table : Table} {c' : Cache}
    (h : c.get fs link = (.ok table, c', [])) (links : List String) :
    c.getAll fs (link :: links) = c'.getAll fs links := by
  simp only [getAll, h, List.nil_append]

theorem Reached.folder_eq (h : c.Reached folder) : c.folder = folder := by
  induction h with
  | empty => rfl
  | get fs link _ ih => rw [folder_get, ih]

/-- A link that the folder serves is looked up in silence, and in vain only when the folder does
not hold it. -/
theorem Warmed.get_link (h : c.Warmed folder fs) {link : String} (hlink : folder.Serves fs link) :
    (c.get fs link).2.2 = [] ∧ ∀ unavailable, (c.get fs link).1 = .error unavailable →
      unavailable.link = link ∧ ¬folder.Holds fs link := by
  have hfolder : c.folder = folder := h.reached.folder_eq
  have hview : c.view fs link = (load folder fs link).1 := congrFun h.view_eq link
  constructor
  · have hload : (load c.folder fs link).2 = [] := by
      rw [hfolder]
      by_cases hholds : folder.Holds fs link
      · obtain ⟨table, htable⟩ := hlink.held hholds
        rw [htable]
      · obtain ⟨reason, hreason⟩ := hlink.missing hholds
        rw [hreason]
    unfold Cache.get
    split
    · rfl
    · exact hload
  · intro unavailable hget
    rw [get_eq_view, hview] at hget
    constructor
    · cases hload : (load folder fs link).1 with
      | ok table => rw [hload] at hget; cases hget
      | error reason => rw [hload] at hget; cases hget; rfl
    · intro hholds
      obtain ⟨table, htable⟩ := hlink.held hholds
      rw [htable] at hget
      cases hget

end Cache

namespace Session

variable {folder : Folder} {fs : Files} {store : Store} {s s' : Session}

/-- Only links that the folder serves are queued, and nothing was found that it is to blame for. -/
structure Sound (folder : Folder) (fs : Files) (s : Session) : Prop where
  cache : s.cache.Warmed folder fs
  served : ∀ item ∈ s.queue, folder.Serves fs item.link
  findings : ∀ f ∈ s.findings, f.Excused folder fs

/-- While only links are looked up that the folder serves, what is found is excused. -/
theorem excused_of_tells {asked : String → Prop}
    (hasked : ∀ link, asked link → folder.Serves fs link) {own : Finding → Prop}
    (hown : ∀ f, own f → f.Excused folder fs) (h : Tells (.still fs store) asked own s s')
    (hcache : s.cache.Warmed folder fs) (hfindings : ∀ f ∈ s.findings, f.Excused folder fs) :
    s'.cache.Warmed folder fs ∧ ∀ f ∈ s'.findings, f.Excused folder fs := by
  refine h.keep (P := fun s => s.cache.Warmed folder fs ∧ ∀ f ∈ s.findings, f.Excused folder fs)
    ?_ ⟨hcache, hfindings⟩
  rintro a b hstep ⟨hcache, hfindings⟩
  have hlookup {link : String} (hlink : asked link) :
      (a.table (.still fs store) link).2.findings = a.findings := by
    have hsilent : (a.cache.get fs link).2.2 = [] :=
      (hcache.get_link (hasked link hlink)).1
    change a.findings ++ (a.cache.get fs link).2.2 = a.findings
    rw [hsilent, List.append_nil]
  cases hstep with
  | silent hsame hkept => exact ⟨hkept ▸ hcache, hsame ▸ hfindings⟩
  | own hfound =>
    exact ⟨hcache, fun f hf => (List.mem_append.1 hf).elim (hfindings f)
      fun hnew => hown f (hfound f hnew)⟩
  | asking hask =>
    cases hask with
    | lookup hlink =>
      rw [hlookup hlink]
      exact ⟨hcache.get _, hfindings⟩
    | missing path message hlink htable =>
      refine ⟨hcache.get _, fun f hf => ?_⟩
      rcases List.mem_append.1 hf with hold | hnew
      · rw [hlookup hlink] at hold
        exact hfindings f hold
      · obtain ⟨_, hnone⟩ := (hcache.get_link (hasked _ hlink)).2 _ htable
        rw [List.mem_singleton.1 hnew]
        exact ⟨rfl, fun _ => hnone⟩

/-- What a check queues goes by links of its table. -/
theorem Step.served {around : Surroundings} {known : Object → Prop} {declared : List String → Prop}
    (hdeclared : ∀ links, declared links → ∀ link ∈ links, folder.Serves fs link)
    (hstep : Step around known declared s s') (h : ∀ item ∈ s.queue, folder.Serves fs item.link) :
    ∀ item ∈ s'.queue, folder.Serves fs item.link := by
  cases hstep with
  | @enqueue path links link _ object reference hlinks hlink _ _ _ =>
    intro item hitem
    obtain ⟨_, ⟨_, hqueue, _⟩ | ⟨_, hqueue, _⟩⟩ := enqueue_cases s object reference link path
    · rw [hqueue] at hitem
      rcases List.mem_append.1 hitem with hold | hnew
      · exact h item hold
      · rw [List.mem_singleton.1 hnew]
        exact hdeclared links hlinks link hlink
    · exact h item (hqueue ▸ hitem)
  | _ => exact h

namespace Sound

theorem take (hnames : ∀ link, IsLinkName link → folder.Serves fs link)
    (h : s.Sound folder fs) {item : WorkItem}
    {rest : List WorkItem} {result : Except Unavailable Bool} (hqueue : s.queue = item :: rest)
    (htake : Session.take { s with queue := rest } (.still fs store) item = (result, s')) :
    s'.Sound folder fs := by
  have hitem : folder.Serves fs item.link := h.served item (hqueue ▸ List.mem_cons_self)
  have hrest : ∀ other ∈ rest, folder.Serves fs other.link :=
    fun other hother => h.served other (hqueue ▸ List.mem_cons_of_mem item hother)
  have hdeclared {table : Table} {cache : Cache} (hcache : cache.Warmed folder fs)
      (hfind : cache.find? item.link = some (.ok table)) :
      ∀ links, table.Declares links → ∀ link ∈ links, folder.Serves fs link := by
    rintro links ⟨row, hrow, hlinks⟩ link hlink
    exact hnames link ((hcache.reached.wellFormed _ _ hfind row hrow).names links hlinks link hlink)
  have hlooked : (Session.table { s with queue := rest } (.still fs store) item.link).2.cache.Warmed
      folder fs := h.cache.get item.link
  have htells := tells_take (.still fs store) { s with queue := rest } item
  rw [htake] at htells
  obtain ⟨hcache, hfindings⟩ := excused_of_tells
    (by
      rintro link (rfl | ⟨table, htable, links, hlinks, hlink⟩)
      · exact hitem
      · exact hdeclared hlooked (find?_of_table htable) links hlinks link hlink)
    (fun f hf => hf.excused folder fs) htells h.cache h.findings
  refine ⟨hcache, ?_, hfindings⟩
  have htaken := taken_take { s with queue := rest } (.still fs store) item
  rw [htake] at htaken
  cases htaken with
  | checked table hfind =>
    exact checkObject_keep (P := fun s => ∀ item ∈ s.queue, folder.Serves fs item.link)
      (Step.served (hdeclared hlooked hfind)) item hrest
  | passed found => exact hrest
  | failed unavailable => exact hrest

theorem seed (h : s.Sound folder fs) (object : Object) {link : String} (path : String)
    (hlink : folder.Serves fs link) : (s.seed store object link path).Sound folder fs := by
  refine ⟨h.cache, ?_, h.findings⟩
  intro item hitem
  rcases List.mem_append.1 hitem with hold | hnew
  · exact h.served item hold
  · rw [List.mem_singleton.1 hnew]
    exact hlink

theorem after (hnames : ∀ link, IsLinkName link → folder.Serves fs link) (h : s.Sound folder fs)
    {calls : List Call}
    (hcalls : ∀ object link path, .seed object link path ∈ calls → folder.Serves fs link) :
    (s.after (.still fs store) calls).Sound folder fs :=
  after_keep
    (fun _ object link path hcall hs => hs.seed object path (hcalls object link path hcall))
    (fun _ _ hs => ⟨hs.cache, hs.served, hs.findings⟩)
    (fun _ _ _ _ _ hqueue htake hs => hs.take hnames hqueue htake) h

/-- A run that ends in an error lacks a table that the folder does not hold. -/
theorem not_holds_of_run (hnames : ∀ link, IsLinkName link → folder.Serves fs link)
    (h : s.Sound folder fs) {unavailable : Unavailable}
    (hrun : (s.run (.still fs store)).1 = .error unavailable) :
    ¬folder.Holds fs unavailable.link := by
  have hended := drain_of_run_error hrun
  generalize s.bound (.still fs store) = fuel at hended
  obtain ⟨turn, item, rest, hturn, hqueue, htake⟩ :=
    exists_take_of_drain (P := Sound folder fs)
      (fun _ _ _ _ _ hqueue htake hs => hs.take hnames hqueue htake) hended h
  have hitem : folder.Serves fs item.link := hturn.served item (hqueue ▸ List.mem_cons_self)
  have hlooked := hturn.cache.get_link hitem
  have herror := error_of_take htake
  simp only [Session.table] at herror
  obtain ⟨hlink, hnone⟩ := hlooked.2 unavailable herror
  rw [hlink]
  exact hnone

end Sound

/-- The folder is to blame neither for what was found nor for the error that a run ends in. -/
structure Excused (folder : Folder) (fs : Files) (store : Store) (s : Session) : Prop where
  findings : ∀ f ∈ s.findings, f.Excused folder fs
  ended : ∀ unavailable, (s.run (.still fs store)).1 = .error unavailable →
    ¬folder.Holds fs unavailable.link

/-- Validations over the folder excuse it whenever their seeds go by these links. -/
def ExcuseAll (folder : Folder) (fs : Files) (seeded : String → Prop) : Prop :=
  ∀ (cache : Cache) (store : Store) (version : Option Version) (budget : Option Nat)
    (calls : List Call), cache.Warmed folder fs →
    (∀ object link path, .seed object link path ∈ calls → seeded link) →
    ((start store cache version budget).after (.still fs store) calls).Excused folder fs store

theorem excuseAll_of_serves {seeded : String → Prop}
    (hnames : ∀ link, IsLinkName link → folder.Serves fs link)
    (hseeded : ∀ link, seeded link → folder.Serves fs link) : ExcuseAll folder fs seeded := by
  intro cache store version budget calls hcache hcalls
  have hstart : (start store cache version budget).Sound folder fs := ⟨hcache, nofun, nofun⟩
  have hsound :
      ((start store cache version budget).after (.still fs store) calls).Sound folder fs :=
    hstart.after hnames fun object link path hcall => hseeded link (hcalls object link path hcall)
  exact ⟨hsound.findings, fun _ hrun => hsound.not_holds_of_run hnames hrun⟩

/-- A seed whose table is there but cannot be loaded ends the run. -/
theorem run_of_not_loads {link : String} (h : ¬folder.Loads fs link) (store : Store)
    (object : Object) (path : String) :
    ∃ reason, (((start store (.ofFolder folder) none none).seed store object link path).run
      (.still fs store)).1 = .error ⟨link, reason⟩ := by
  have hload : ∃ reason, (Cache.ofFolder folder).view fs link = .error reason := by
    cases hview : (Cache.load folder fs link).1 with
    | ok table => exact absurd (fun _ => ⟨table, Prod.ext hview (Cache.found_of_load hview)⟩) h
    | error reason => exact ⟨reason, hview⟩
  obtain ⟨reason, hreason⟩ := hload
  refine ⟨reason, ?_⟩
  let s := (start store (.ofFolder folder) none none).seed store object link path
  obtain ⟨item, hqueue, hlink, hseeded⟩ :
      ∃ item, s.queue = [item] ∧ item.link = link ∧ item.seeded = true := ⟨_, rfl, rfl, rfl⟩
  have hlooked : (Session.table { s with queue := [] } (.still fs store) item.link).1 =
      .error ⟨link, reason⟩ := by
    rw [table_still, hlink]
    change Cache.outcome link ((Cache.ofFolder folder).view fs link) = _
    rw [hreason]
    rfl
  have htake := take_of_table_error hlooked
  simp only [hseeded, if_true] at htake
  exact congrArg Prod.fst (run_of_runs (.failed hqueue rfl htake))

/-- After a sweep over a folder without a failure, in which then nothing was found, no validation
over the folder finds anything wrong with its grammar or misses a table that the folder holds, if
its seeds go by link names. It may be seeded with the empty link too exactly if the file of that
link, which the sweep does not look at, is not there or can be loaded. -/
theorem excused_of_loadAll {path : String} {fs : Files} {swept : Cache} {found : List Finding}
    (hload : (Cache.ofFolder (.of path)).loadAll fs = .ok ([], swept, found)) :
    found = [] ∧ ExcuseAll (.of path) fs IsLinkName ∧
      (ExcuseAll (.of path) fs IsLinkWord ↔ (Folder.of path).Loads fs "") := by
  obtain ⟨hfound, hserves⟩ := Cache.serves_of_loadAll hload
  have hnames : ∀ link, IsLinkName link → (Folder.of path).Serves fs link :=
    fun link hlink => hserves link hlink.2 fun hempty => absurd hempty hlink.1
  refine ⟨hfound, excuseAll_of_serves hnames hnames, fun hall => ?_, fun hempty => ?_⟩
  · by_contra hnot
    obtain ⟨reason, hrun⟩ := run_of_not_loads hnot .empty (.dictionary []) ""
    have hexcused := hall (.ofFolder (.of path)) .empty none none
      [.seed (.dictionary []) "" ""] .empty ?_
    · refine hnot fun hholds => absurd hholds (hexcused.ended _ hrun)
    · intro object link path hcall
      obtain ⟨_, rfl, _⟩ := Call.seed.inj (List.mem_singleton.1 hcall)
      exact nofun
  · exact excuseAll_of_serves hnames fun link hlink => hserves link hlink fun _ => hempty

/-- With the one table of a folder loaded, what is wrong is that a seed is no object to check, and
that there is no file for the empty link of another. -/
theorem excused_of_loadAll_ring :
    (Cache.ofFolder Cycle.folder).loadAll Cycle.files = .ok ([], Cycle.cache, []) ∧
      Cycle.folder.Loads Cycle.files "" ∧
      let s := (start Cycle.store Cycle.cache none none).after (.still Cycle.files Cycle.store)
        [.seed .null "Ring" "", .interrupted 1, .flag false,
          .seed (.reference Cycle.first) "" ""]
      s.findings.length = 1 ∧ (∀ f ∈ s.findings, f.kind.isGrammarDefect = false) ∧
        ∃ unavailable, (s.run (.still Cycle.files Cycle.store)).1 = .error unavailable ∧
          unavailable.link = "" ∧ ¬Cycle.folder.Holds Cycle.files "" := by
  have hlinks : Cycle.folder.links Cycle.files = .ok ["Ring"] := by decide +kernel
  have hload : (Cache.ofFolder Cycle.folder).loadAll Cycle.files = .ok ([], Cycle.cache, []) := by
    refine Cache.loadAll_eq_ok_iff.2 ⟨_, hlinks, ?_⟩
    rw [Cache.getAll_of_ok Cycle.get_ring]
    rfl
  have hcache : Cycle.cache.Warmed Cycle.folder Cycle.files := .loadAll .empty hload
  have hempty : Cycle.folder.Loads Cycle.files "" := by
    rintro ⟨place, content, hlocate, hnode⟩
    have hplace : Cycle.files.locate Cycle.folder.path = .ok ["grammar"] := by decide +kernel
    obtain rfl : ["grammar"] = place := Except.ok.inj (hplace.symm.trans hlocate)
    cases hnode
  refine ⟨hload, hempty, ?_⟩
  intro s
  have hwords : ∀ object link path, Call.seed object link path ∈
      [Call.seed .null "Ring" "", .interrupted 1, .flag false,
        .seed (.reference Cycle.first) "" ""] → IsLinkWord link := by
    intro object link path hmem
    simp only [List.mem_cons, Call.seed.injEq, reduceCtorEq, List.not_mem_nil, or_false,
      false_or] at hmem
    rcases hmem with ⟨_, rfl, _⟩ | ⟨_, rfl, _⟩ <;> exact List.all_eq_true.1 (by decide)
  obtain ⟨_, _, hall⟩ := excused_of_loadAll hload
  have hexcused := hall.2 hempty Cycle.cache Cycle.store none none
    [.seed .null "Ring" "", .interrupted 1, .flag false,
      .seed (.reference Cycle.first) "" ""] hcache hwords
  have hlink : (s.run (.still Cycle.files Cycle.store)).1.mapError Unavailable.link =
      .error "" := by decide +kernel
  refine ⟨by decide +kernel, fun f hf => (hexcused.findings f hf).document, ?_⟩
  cases hrun : (s.run (.still Cycle.files Cycle.store)).1 with
  | ok stats =>
    rw [hrun] at hlink
    cases hlink
  | error unavailable =>
    rw [hrun] at hlink
    have hlink : unavailable.link = "" := Except.error.inj hlink
    exact ⟨unavailable, rfl, hlink, hlink ▸ hexcused.ended unavailable hrun⟩

end Session

/-! A folder with the one file that is named by its extension, and a header that is too short. -/
namespace Nameless

def folder : Folder := .of "grammar"

def files : Files := ⟨[(["grammar", ".tsv"], .file "Key\n".toUTF8)]⟩

end Nameless

/-- The sweep finds no file and so no failure, but the file is there for the empty link: a seed of
that link is refused, and what is wrong with the file is reported only then. -/
theorem Session.refused_of_loadAll_nameless :
    (Cache.ofFolder Nameless.folder).loadAll Nameless.files =
        .ok ([], .ofFolder Nameless.folder, []) ∧
      Nameless.folder.Holds Nameless.files "" ∧ IsLinkWord "" ∧
      let s := (start .empty (.ofFolder Nameless.folder) none none).seed .empty
        (.dictionary []) "" ""
      let (ended, s) := s.run (.still Nameless.files .empty)
      ended = .error ⟨"", "Malformed header in grammar/.tsv: expected 11 columns, found 1"⟩ ∧
        s.findings.map (·.kind) = [.malformedHeader] := by
  have hlinks : Nameless.folder.links Nameless.files = .ok [] := by decide +kernel
  refine ⟨Cache.loadAll_eq_ok_iff.2 ⟨_, hlinks, rfl⟩, ?_, nofun, by decide +kernel⟩
  exact ⟨["grammar"], _, by decide +kernel, rfl⟩

end PdfConform
