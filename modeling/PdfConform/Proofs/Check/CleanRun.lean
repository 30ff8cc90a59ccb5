import PdfConform.Proofs.Check.Accounting
import PdfConform.Proofs.Check.Conformance

/-! A run that comes to its end and finds nothing has checked everything it came to, and
everything it checked conforms. Findings only grow, so each check found nothing in its turn. -/
namespace PdfConform

theorem TreeKind.ofType?_eq_none {type : ValueType} (h : type.isTree = false) :
    ofType? type = none := by
  cases type <;> first | rfl | cases h

namespace Session

variable {around : Surroundings} {known : Object → Prop} {declared : List String → Prop}

/-- A check enters nothing in the log that tells what came out of the queue. -/
theorem Step.filterMap_log {α : Type} {view : Event → Option α}
    (hvisited : ∀ tree path, view (.visited tree path) = none)
    (hqueued : ∀ item, view (.queued item) = none)
    (hrepeated : ∀ identity link, view (.repeated identity link) = none)
    {s s' : Session} (hstep : Step around known declared s s') :
    s'.log.filterMap view = s.log.filterMap view := by
  cases hstep with
  | report found => rfl
  | lookup link => rfl
  | node t => rfl
  | visit tree path => simp [note, hvisited]
  | @enqueue path _ link _ object reference =>
    obtain ⟨_, ⟨_, _, hlog⟩ | ⟨_, _, hlog⟩⟩ := enqueue_cases s object reference link path
    · simp [hlog, hqueued]
    · simp [hlog, hrepeated]

theorem filterMap_log_checkObject (around : Surroundings) {α : Type} (view : Event → Option α)
    (hvisited : ∀ tree path, view (.visited tree path) = none)
    (hqueued : ∀ item, view (.queued item) = none)
    (hrepeated : ∀ identity link, view (.repeated identity link) = none)
    (s : Session) (item : WorkItem) (table : Table) :
    (s.checkObject around item table).log.filterMap view = s.log.filterMap view := by
  refine checkObject_keep (P := fun s' => s'.log.filterMap view = s.log.filterMap view) ?_ item rfl
  intro a b hstep ha
  exact (hstep.filterMap_log hvisited hqueued hrepeated).trans ha

/-- What a run keeps that has met no seed without a table: whatever was checked had its table,
and nothing was passed over in silence. -/
structure Audited (around : Surroundings) (s : Session) : Prop where
  checked : ∀ item ∈ s.checkedItems, ∃ (before : Session) (table : Table),
    before.cache.find? item.link = some (.ok table) ∧
      Grows (before.checkObject around item table) s
  dropped : s.findings = [] → s.dropped = []

namespace Audited

variable {s s' : Session} {item : WorkItem}

theorem mono (h : s.Audited around) (hgrows : Grows s s')
    (hchecked : s'.checkedItems = s.checkedItems) (hdropped : s'.dropped = s.dropped) :
    s'.Audited around := by
  constructor
  · intro item hitem
    obtain ⟨before, table, hfind, hbefore⟩ := h.checked item (hchecked ▸ hitem)
    exact ⟨before, table, hfind, hbefore.trans hgrows⟩
  · intro hclean
    rw [hdropped]
    exact h.dropped (hgrows.clean hclean)

theorem checkObject (h : s.Audited around) {table : Table}
    (hfind : s.cache.find? item.link = some (.ok table)) :
    ((s.enter item).checkObject around item table).Audited around := by
  have hgrows : Grows s ((s.enter item).checkObject around item table) :=
    (grows_enter s item).trans (grows_checkObject around (s.enter item) item table)
  have hchecked : ((s.enter item).checkObject around item table).checkedItems =
      s.checkedItems ++ [item] := by
    have hlast := filterMap_log_checkObject around Event.checked? (fun _ _ => rfl)
      (fun _ => rfl) (fun _ _ => rfl) (s.enter item) item table
    exact hlast.trans (filterMap_snoc _ _ _)
  have hdropped : ((s.enter item).checkObject around item table).dropped = s.dropped := by
    have hlast := filterMap_log_checkObject around Event.dropped? (fun _ _ => rfl)
      (fun _ => rfl) (fun _ _ => rfl) (s.enter item) item table
    exact hlast.trans ((filterMap_snoc _ _ _).trans (List.append_nil _))
  constructor
  · intro other hother
    rw [hchecked, List.mem_append, List.mem_singleton] at hother
    rcases hother with hold | rfl
    · obtain ⟨before, table, hfind, hbefore⟩ := h.checked other hold
      exact ⟨before, table, hfind, hbefore.trans hgrows⟩
    · exact ⟨s.enter other, table, hfind, .refl _⟩
  · intro hclean
    rw [hdropped]
    exact h.dropped (hgrows.clean hclean)

/-- An item that is passed over is reported. -/
theorem pass (h : s.Audited around) (item : WorkItem) (found : Finding) :
    ((s.note (.dropped item)).report [found]).Audited around := by
  have hgrows : Grows s ((s.note (.dropped item)).report [found]) :=
    (grows_note s _).trans (grows_report _ _)
  have hchecked : ((s.note (.dropped item)).report [found]).checkedItems = s.checkedItems :=
    (filterMap_snoc _ _ _).trans (List.append_nil _)
  constructor
  · intro other hother
    obtain ⟨before, table, hfind, hbefore⟩ := h.checked other (hchecked ▸ hother)
    exact ⟨before, table, hfind, hbefore.trans hgrows⟩
  · intro hclean
    simp [report] at hclean

theorem take (h : s.Audited around) {rest : List WorkItem} {taken : Bool}
    (htake : Session.take { s with queue := rest } around item = (.ok taken, s')) :
    s'.Audited around := by
  have hpop : Grows s { s with queue := rest } :=
    ⟨rfl, List.prefix_refl _, List.prefix_refl _, List.prefix_refl _, fun _ _ h => h⟩
  have hlooked : (Session.table { s with queue := rest } around item.link).2.Audited around :=
    h.mono (hpop.trans (grows_table _ item.link)) rfl rfl
  have htaken := taken_take { s with queue := rest } around item
  rw [htake] at htaken
  cases htaken with
  | checked table hfind => exact hlooked.checkObject hfind
  | passed found => exact hlooked.pass item found

theorem drain (h : s.Audited around) {fuel count : Nat} {ended : Nat × Bool}
    (hdrain : Session.drain around fuel count s = (.ok ended, s')) : s'.Audited around := by
  have hended : Ended (Audited around) (fun _ => True) (Session.drain around fuel count s) := by
    refine drain_keep ?_ ?_ fuel count h
    · exact fun s item rest taken s' _ htake hs => hs.take htake
    · exact fun _ _ _ _ _ _ _ _ => trivial
  rw [hdrain] at hended
  exact hended

end Audited

/-- A container for which a link was sought without a finding is recorded under one. -/
theorem recorded_of_descend {s : Session} {scope : Scope} {label : String} {child : Child}
    (htree : TreeKind.ofType? child.type = none)
    (hclean : (s.descend around scope label child).findings = []) :
    ∃ link ∈ child.links, (Identity.of child.object child.reference, link) ∈
      (s.descend around scope label child).record.pairs := by
  simp only [descend, htree] at hclean ⊢
  cases hchosen : (s.chooseLink around child.object child.links scope.table.link label
      child.path).1 with
  | none =>
    simp only [hchosen] at hclean
    exact absurd hclean (findings_of_chooseLink hchosen)
  | some link =>
    exact ⟨link, mem_of_chooseLink hchosen, recorded_of_enqueue _ _ _ link _⟩

variable {before final : Session} {item : WorkItem} {table : Table} {container : Container}

/-- What a clean end says of one entry in its turn under one row. -/
theorem clean_entry (hgrows : Grows (before.checkObject around item table) final)
    (hclean : final.findings = []) (hcontainer : Container.of? item.object = some container)
    {row : Row} (hrow : row ∈ table.rows) {entry : String × Option Object}
    (hentry : entry ∈ (scopeOf around before.version item table container).entries row) :
    (scopeOf around before.version item table container).entryFindings row entry.1 entry.2 = [] ∧
      ∀ child, (scopeOf around before.version item table container).child? row entry.1 entry.2 =
          some child → TreeKind.ofType? child.type = none →
        ∃ link ∈ child.links,
          (Identity.of child.object child.reference, link) ∈ final.record.pairs := by
  obtain ⟨turn, _, hafter⟩ := exists_turn_checkObject around.store.closed_true trivial hcontainer
    before hrow hentry
  have hturn := hafter.grows.trans hgrows
  have hsteps : Steps around (fun _ => True) table.Declares
      (turn.report ((scopeOf around before.version item table container).entryFindings row entry.1
        entry.2))
      (checkEntry around (scopeOf around before.version item table container) row turn entry) :=
    descend_checkEntry_steps around.store.closed_true
      (scopeOf around before.version item table container) rfl hrow (fun _ _ => trivial) turn
  have hreport := hsteps.grows
  constructor
  · have hreported := (hreport.trans hturn).clean hclean
    exact (List.append_eq_nil_iff.1 hreported).2
  · intro child hchild htree
    have hentryClean := hturn.clean hclean
    simp only [checkEntry, hchild] at hentryClean hturn
    obtain ⟨link, hlink, hpair⟩ := recorded_of_descend htree hentryClean
    exact ⟨link, hlink, hturn.pairs.subset hpair⟩

theorem conforms_of_clean (hgrows : Grows (before.checkObject around item table) final)
    (hclean : final.findings = []) (hcontainer : Container.of? item.object = some container)
    (hrows : ∀ row ∈ table.rows, row.WellFormed)
    (hchecked : ∀ pair ∈ final.record.pairs, IsLinkName pair.2 → pair ∈ final.checked) :
    (scopeOf around final.version item table container).Conforms final.checked := by
  have hversion : final.version = before.version :=
    hgrows.version.trans (grows_checkObject around before item table).version
  rw [hversion]
  constructor
  case keys =>
    intro entries row key hdict hrow hkey habsent
    have hdict : container = .dictionary entries := hdict
    have hentry : (key, entries.get? key) ∈
        (scopeOf around before.version item table container).entries row := by
      simp [Scope.entries, scopeOf, hkey, hdict]
    have hfindings := (clean_entry hgrows hclean hcontainer hrow hentry).1
    exact Scope.not_required_of_entryFindings hfindings habsent
  case indices =>
    intro items row n harray hrow hkey habsent
    have harray : container = .array items := harray
    have hentry : (Number.showNat n, items[n]?) ∈
        (scopeOf around before.version item table container).entries row := by
      simp [Scope.entries, scopeOf, hkey, harray]
    have hfindings := (clean_entry hgrows hclean hcontainer hrow hentry).1
    exact Scope.not_required_of_entryFindings hfindings habsent
  case entries =>
    intro slot value object reference row hvalue hpresent hcovers
    have hrow : row ∈ table.rows := hcovers.1
    have hentry := Scope.mem_entries_of_covers hvalue hcovers
    obtain ⟨hfindings, hled⟩ := clean_entry hgrows hclean hcontainer hrow hentry
    obtain ⟨index, hfits⟩ := Scope.fits_of_entryFindings (hrows row hrow) hfindings hpresent
    refine ⟨index, hfits, ?_⟩
    intro type htype htree hlinks hobject
    have hpresent' : (some value).bind around.store.present = some (object, reference) := hpresent
    have hchild := Scope.child?_eq_some slot.label hpresent' hfits.first htype hlinks hobject
    obtain ⟨link, hlink, hpair⟩ := hled _ hchild (TreeKind.ofType?_eq_none htree)
    have hname : IsLinkName link :=
      (hrows row hrow).names _ (Row.linksFor_mem_links hlinks) link hlink
    exact ⟨link, hlink, hchecked _ hpair hname⟩

def Call.Prepares : Call → Prop
  | .seed _ _ _ | .flag _ => True
  | .run | .interrupted _ => False

theorem audited_of_prepared {calls : List Call} (hcalls : ∀ c ∈ calls, c.Prepares) {s : Session}
    (hchecked : s.checkedItems = []) (hdropped : s.dropped = []) :
    (s.after around calls).Audited around := by
  induction calls generalizing s with
  | nil =>
    refine ⟨?_, fun _ => hdropped⟩
    intro item hitem
    have hnone : item ∈ s.checkedItems := hitem
    simp [hchecked] at hnone
  | cons c calls ih =>
    have hlater : ∀ c ∈ calls, c.Prepares := fun c hc => hcalls c (by simp [hc])
    have hfirst : c.Prepares := hcalls c (by simp)
    refine ih hlater ?_ ?_
    · cases c with
      | seed object link path =>
        exact (filterMap_snoc _ _ _).trans ((List.append_nil _).trans hchecked)
      | flag raised => exact hchecked
      | run => exact hfirst.elim
      | interrupted items => exact hfirst.elim
    · cases c with
      | seed object link path =>
        exact (filterMap_snoc _ _ _).trans ((List.append_nil _).trans hdropped)
      | flag raised => exact hdropped
      | run => exact hfirst.elim
      | interrupted items => exact hfirst.elim

/-- A first run that comes to its end and finds nothing: every item that was checked has its
table and conforms to it, and what it leads to was checked too. -/
theorem conforms_of_clean_run {folder : Folder} {cache : Cache} (hcache : cache.Reached folder)
    (around : Surroundings) (version : Option Version) (budget : Option Nat) {calls : List Call}
    (hcalls : ∀ c ∈ calls, c.Prepares) {stats : Stats} :
    let s := (start around.store cache version budget).after around calls
    let s' := (s.run around).2
    (s.run around).1 = .ok stats → stats.cancelled = false → s'.findings = [] →
      s'.checked = s'.checkedItems.map WorkItem.pair ∧
      ∀ item ∈ s'.checkedItems, ∃ table container,
        s'.cache.find? item.link = some (.ok table) ∧
        Container.of? item.object = some container ∧
        (scopeOf around s'.version item table container).Conforms s'.checked := by
  intro s s' hstats hended hclean
  have hlasting : s.Lasting := (Lasting.start hcache around.store version budget).after calls
  have haudited : s.Audited around := audited_of_prepared hcalls rfl rfl
  have hbalanced : s'.Balanced := (hlasting.call .run).balanced
  have htables : s'.cache.WellFormed := (hlasting.call .run).tables
  have hdrain := drain_of_run hstats
  rw [hended] at hdrain
  have hqueue : s'.queue = [] := queue_of_drain hdrain
  have haudited' : s'.Audited around := haudited.drain hdrain
  have hchecked : ∀ pair ∈ s'.record.pairs, IsLinkName pair.2 → pair ∈ s'.checked := by
    intro pair hpair hname
    have haccounted := hbalanced.accounted_of_recorded hpair hname
    simpa [accounted, hqueue, haudited'.dropped hclean] using haccounted
  refine ⟨hbalanced.checked, ?_⟩
  intro item hitem
  obtain ⟨before, table, hfind, hgrows⟩ := haudited'.checked item hitem
  have hfind' : s'.cache.find? item.link = some (.ok table) :=
    hgrows.tables _ _ ((grows_checkObject around before item table).tables _ _ hfind)
  cases hcontainer : Container.of? item.object with
  | none =>
    have hreported := hgrows.clean hclean
    simp [checkObject, hcontainer, report] at hreported
  | some container =>
    exact ⟨table, container, hfind', rfl,
      conforms_of_clean hgrows hclean hcontainer (htables _ _ hfind') hchecked⟩

/-- Each of two dictionaries that refer to each other was checked, and so was what it leads to. -/
theorem conforms_of_clean_cycle :
    let s := (start Cycle.store Cycle.cache none none).after Cycle.around
      [.seed (.reference Cycle.first) "Ring" ""]
    let s' := (s.run Cycle.around).2
    s'.checked = [(.indirect Cycle.first, "Ring"), (.indirect Cycle.second, "Ring")] ∧
      ∀ item ∈ s'.checkedItems, ∃ table container,
        s'.cache.find? item.link = some (.ok table) ∧
        Container.of? item.object = some container ∧
        (scopeOf Cycle.around s'.version item table container).Conforms s'.checked := by
  intro s s'
  refine ⟨by decide +kernel, ?_⟩
  have hprepared : ∀ c ∈ [Call.seed (.reference Cycle.first) "Ring" ""], c.Prepares := by
    simp [Call.Prepares]
  have hstats : (s.run Cycle.around).1 = .ok ⟨.two, 2, 1, 0, false⟩ := by decide +kernel
  have hclean : s'.findings = [] := by decide +kernel
  exact (conforms_of_clean_run Cycle.cache_reached Cycle.around none none hprepared hstats rfl
    hclean).2

end Session

end PdfConform
