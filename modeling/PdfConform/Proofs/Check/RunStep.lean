import Mathlib.Data.Option.Basic
import PdfConform.Proofs.Check.TreeStep
import PdfConform.Proofs.Schema.WellFormed

/-! The check of a table does nothing but the elementary steps, with the links that the
table declares. What a run keeps follows from what taking one item keeps. -/
namespace PdfConform

/-- The lists of links that a table has for its types. -/
def Table.Declares (t : Table) (links : List String) : Prop := ∃ row ∈ t.rows, links ∈ row.links

theorem Row.linksFor_mem_links {row : Row} {type : Nat} (h : row.linksFor type ≠ []) :
    row.linksFor type ∈ row.links := by
  unfold linksFor at h ⊢
  cases hlinks : row.links[type]? with
  | none => simp [hlinks] at h
  | some links => exact List.mem_of_getElem? hlinks

theorem Table.declares_linksFor {t : Table} {row : Row} (hrow : row ∈ t.rows) {type : Nat}
    (h : row.linksFor type ≠ []) : t.Declares (row.linksFor type) :=
  ⟨row, hrow, Row.linksFor_mem_links h⟩

/-- The trees that a table has for its types. -/
def Table.Plants (t : Table) (tree : Tree) : Prop :=
  ∃ row ∈ t.rows, ∃ index type, row.types[index]? = some (.known type) ∧
    TreeKind.ofType? type = some tree.kind ∧ tree.links = row.linksFor index ∧
    row.linksFor index ≠ []

theorem Table.Plants.declares {t : Table} {tree : Tree} (h : t.Plants tree) :
    t.Declares tree.links := by
  obtain ⟨row, hrow, index, _, _, _, hlinks, hne⟩ := h
  rw [hlinks]
  exact Table.declares_linksFor hrow hne

namespace Scope

/-- Why an entry leads on to a container: its value is there, and the first type that it
has carries links. -/
structure LeadsTo (s : Scope) (row : Row) (value : Option Object) (child : Child) : Prop where
  present : value.bind s.store.present = some (child.object, child.reference)
  typed : ∃ index, TypeToken.select? s.store child.object row.types = some index ∧
    row.types[index]? = some (.known child.type) ∧ child.links = row.linksFor index
  links_ne_nil : child.links ≠ []
  isContainer : child.object.isContainer = true

theorem leadsTo_of_child? {s : Scope} {row : Row} {label : String} {value : Option Object}
    {child : Child} (h : s.child? row label value = some child) : s.LeadsTo row value child := by
  unfold child? at h
  obtain ⟨⟨object, reference⟩, hpresent, h⟩ := Option.bind_eq_some_iff.1 h
  obtain ⟨index, hindex, h⟩ := Option.bind_eq_some_iff.1 h
  obtain ⟨type, htype, h⟩ := Option.bind_eq_some_iff.1 h
  obtain ⟨_, hguard, h⟩ := Option.bind_eq_some_iff.1 h
  obtain ⟨token, htoken, hknown⟩ := Option.bind_eq_some_iff.1 htype
  rw [Option.guard_eq_some', Bool.and_eq_true, Bool.not_eq_true',
    List.isEmpty_eq_false_iff] at hguard
  have htype : token = .known type := by cases token <;> simp_all [TypeToken.known?]
  cases h
  exact ⟨hpresent, ⟨index, hindex, htype ▸ htoken, rfl⟩, hguard.1, hguard.2⟩

theorem child?_eq_some {s : Scope} {row : Row} {value : Option Object} {object : Object}
    {reference : Option ObjectId} {index : Nat} {type : ValueType} (label : String)
    (hpresent : value.bind s.store.present = some (object, reference))
    (hindex : TypeToken.select? s.store object row.types = some index)
    (htype : row.types[index]? = some (.known type)) (hlinks : row.linksFor index ≠ [])
    (hcontainer : object.isContainer = true) :
    s.child? row label value =
      some ⟨object, reference, type, row.linksFor index, s.container.childPath s.path label⟩ := by
  simp [child?, hpresent, hindex, htype, hlinks, hcontainer, TypeToken.known?, guard]

/-- What an entry leads to is nested in the container, and declared by the row. -/
theorem sprung_of_entryLead? {s : Scope} {nested : Object → Prop} {row : Row}
    (hrow : row ∈ s.table.rows) {entry : String × Option Object}
    (hentry : ∀ value, entry.2 = some value → nested value) {lead : Lead}
    (h : s.entryLead? row entry = some lead) :
    lead.Sprung s.store nested s.table.Declares s.table.Plants := by
  obtain ⟨child, hchild, rfl⟩ := Option.map_eq_some_iff.1 h
  obtain ⟨hpresent, ⟨index, hindex, htype, hlinks⟩, hne, hcontainer⟩ := leadsTo_of_child? hchild
  obtain ⟨value, hvalue, hpresent⟩ := Option.bind_eq_some_iff.1 hpresent
  have hnested := hentry value hvalue
  rw [hlinks] at hne
  unfold childLead
  rw [hlinks]
  split
  · next kind hkind =>
    exact .enter ⟨row, hrow, index, child.type, htype, hkind, rfl, hne⟩ hnested
      (Store.dereference_of_present hpresent)
  · exact .follow (Table.declares_linksFor hrow hne) hnested hpresent hcontainer

theorem nested_of_mem_entries {s : Scope} {held nested : Object → Prop}
    (hspans : s.store.Spans held nested) {object : Object} (hobject : held object)
    (hcontainer : Container.of? object = some s.container) {row : Row} {label : String}
    {value : Object} (h : (label, some value) ∈ s.entries row) : nested value := by
  have hentry {entries : Dictionary} {key : String} (hdict : s.container = .dictionary entries)
      (hmem : (key, value) ∈ entries) : nested value := by
    rw [hdict] at hcontainer
    refine hspans.entry hobject ?_ hmem
    cases object <;> simp_all [Container.of?, Object.entries?]
  have hitem {items : List Object} (harray : s.container = .array items) (hmem : value ∈ items) :
      nested value := by
    rw [harray] at hcontainer
    refine hspans.item ?_ hmem
    cases object <;> simp_all [Container.of?, Object.entries?]
  unfold entries at h
  split at h
  · next key entries _ hdict =>
    obtain ⟨_, hvalue⟩ := Prod.mk.inj (List.mem_singleton.1 h)
    exact hentry hdict (Ordered.mem_of_get? hvalue.symm)
  · next n items _ harray =>
    obtain ⟨_, hvalue⟩ := Prod.mk.inj (List.mem_singleton.1 h)
    exact hitem harray (List.mem_of_getElem? hvalue.symm)
  · next entries _ hdict =>
    obtain ⟨⟨key, found⟩, hmem, heq⟩ := List.mem_map.1 h
    cases heq
    exact hentry hdict (List.mem_filter.1 hmem).1
  · next items _ harray =>
    obtain ⟨⟨found, n⟩, hmem, heq⟩ := List.mem_map.1 h
    cases heq
    exact hitem harray (List.fst_mem_of_mem_zipIdx (List.mem_filter.1 hmem).1)
  · simp at h

end Scope

namespace Session

variable {around : Surroundings} {known : Object → Prop}

theorem Checks.steps (hclosed : around.store.Closed known) {declared : List String → Prop}
    {lead : Lead} (hlead : lead.Sprung around.store known declared fun t => declared t.links)
    {s s' : Session} (h : Checks around lead s s') : Steps around known declared s s' := by
  cases h with
  | follow hfollow => exact hfollow.steps hlead
  | walk s object reference t path =>
    cases hlead with
    | enter htree hvalue hobject => exact walkTree_steps hclosed htree hvalue hobject _ path

theorem sprung_of_mem_leadsUnder {store : Store} {held nested : Object → Prop}
    (hspans : store.Spans held nested) {version : Version} {table : Table} {object : Object}
    (hobject : held object) {lead : Lead} (h : lead ∈ leadsUnder store version table object) :
    lead.Sprung store nested table.Declares table.Plants := by
  unfold leadsUnder at h
  split at h
  · next container hcontainer =>
    obtain ⟨row, hrow, h⟩ := List.mem_flatMap.1 h
    obtain ⟨⟨label, value⟩, hentry, hlead⟩ := List.mem_filterMap.1 h
    refine Scope.sprung_of_entryLead? hrow ?_ hlead
    rintro value rfl
    exact Scope.nested_of_mem_entries hspans hobject hcontainer hentry
  · cases h

/-- What is found on an entry is reported before anything it leads to. -/
theorem descend_checkEntry_steps (hclosed : around.store.Closed known) (scope : Scope)
    (hstore : scope.store = around.store) {row : Row} (hrow : row ∈ scope.table.rows)
    {entry : String × Option Object} (hentry : ∀ value, entry.2 = some value → known value)
    (s : Session) :
    Steps around known scope.table.Declares
      (s.report (scope.entryFindings row entry.1 entry.2))
      (checkEntry around scope row s entry) := by
  refine (checkEntry_trace around scope s row entry).keep
    (P := Steps around known scope.table.Declares
      (s.report (scope.entryFindings row entry.1 entry.2))) ?_ ?_ .refl
  · exact fun hstep hsteps => hsteps.tail hstep.step
  · intro a b lead hlead hstep hsteps
    have hsprung := Scope.sprung_of_entryLead? hrow hentry (Option.mem_toList.1 hlead)
    rw [hstore] at hsprung
    exact hsteps.trans (hstep.steps hclosed (hsprung.mono id id Table.Plants.declares))

theorem checkEntry_steps (hclosed : around.store.Closed known) (scope : Scope)
    (hstore : scope.store = around.store) {row : Row} (hrow : row ∈ scope.table.rows)
    {entry : String × Option Object} (hentry : ∀ value, entry.2 = some value → known value)
    (s : Session) :
    Steps around known scope.table.Declares s (checkEntry around scope row s entry) :=
  (Step.report _ _).steps.trans (descend_checkEntry_steps hclosed scope hstore hrow hentry s)

theorem checkRow_steps (hclosed : around.store.Closed known) (scope : Scope)
    (hstore : scope.store = around.store) {object : Object} (hobject : known object)
    (hcontainer : Container.of? object = some scope.container) {row : Row}
    (hrow : row ∈ scope.table.rows) (s : Session) :
    Steps around known scope.table.Declares s (checkRow around scope s row) := by
  refine steps_foldl id ?_ s
  intro s entry hentry
  refine checkEntry_steps hclosed scope hstore hrow ?_ s
  intro value hvalue
  have hmem : (entry.1, some value) ∈ scope.entries row := hvalue ▸ hentry
  exact Scope.nested_of_mem_entries (hstore ▸ hclosed.spans) hobject hcontainer hmem

theorem checkObject_steps (hclosed : around.store.Closed known) {item : WorkItem}
    (hobject : known item.object) (s : Session) (table : Table) :
    Steps around known table.Declares s (s.checkObject around item table) := by
  unfold checkObject
  split
  · exact (Step.report _ _).steps
  · next container hcontainer =>
    refine steps_foldl id ?_ s
    intro s' row hrow
    exact checkRow_steps hclosed (scopeOf around s.version item table container) rfl hobject
      hcontainer hrow s'

/-- A check keeps what every step with links of its table keeps. -/
theorem checkObject_keep {P : Session → Prop} {table : Table}
    (hstep : ∀ {a b : Session}, Step around (fun _ => True) table.Declares a b → P a → P b)
    (item : WorkItem) {s : Session} (hs : P s) : P (s.checkObject around item table) := by
  have hsteps : Steps around (fun _ => True) table.Declares s (s.checkObject around item table) :=
    checkObject_steps around.store.closed_true trivial s table
  exact hsteps.keep hstep hs

theorem grows_checkObject (around : Surroundings) (s : Session) (item : WorkItem)
    (table : Table) : Grows s (s.checkObject around item table) :=
  checkObject_keep (fun hstep hgrows => hgrows.trans hstep.grows) item (.refl s)

/-- The moment in a check at which one entry has its turn under one row. -/
theorem exists_turn_checkObject (hclosed : around.store.Closed known) {item : WorkItem}
    (hobject : known item.object) {container : Container}
    (hcontainer : Container.of? item.object = some container) (s : Session) {table : Table}
    {row : Row} (hrow : row ∈ table.rows) {entry : String × Option Object}
    (hentry : entry ∈ (scopeOf around s.version item table container).entries row) :
    ∃ s', Steps around known table.Declares s s' ∧
      Steps around known table.Declares
        (checkEntry around (scopeOf around s.version item table container) row s' entry)
        (s.checkObject around item table) := by
  have hrows : ∀ s', ∀ row ∈ table.rows, Steps around known table.Declares s'
      (checkRow around (scopeOf around s.version item table container) s' row) :=
    fun s' row hrow => checkRow_steps hclosed (scopeOf around s.version item table container) rfl
      hobject hcontainer hrow s'
  obtain ⟨before, hbefore, hafter⟩ := exists_turn_foldl id hrows hrow s
  have hentries : ∀ s', ∀ entry ∈ (scopeOf around s.version item table container).entries row,
      Steps around known table.Declares s'
        (checkEntry around (scopeOf around s.version item table container) row s' entry) := by
    intro s' entry hentry
    refine checkEntry_steps hclosed (scopeOf around s.version item table container) rfl hrow ?_ s'
    intro value hvalue
    have hmem : (entry.1, some value) ∈
      (scopeOf around s.version item table container).entries row := hvalue ▸ hentry
    exact Scope.nested_of_mem_entries hclosed.spans hobject hcontainer hmem
  obtain ⟨turn, hturn, hrest⟩ := exists_turn_foldl id hentries hentry before
  refine ⟨turn, hbefore.trans hturn, ?_⟩
  unfold checkObject
  rw [hcontainer]
  exact hrest.trans hafter

/-- A table that a lookup gives is there from then on. -/
theorem find?_of_table {s : Session} {link : String} {table : Table}
    (h : (s.table around link).1 = .ok table) :
    (s.table around link).2.cache.find? link = some (.ok table) :=
  Cache.find?_of_get h

theorem take_of_table_ok {s : Session} {item : WorkItem} {table : Table}
    (h : (s.table around item.link).1 = .ok table) :
    s.take around item =
      (.ok true, ((s.table around item.link).2.enter item).checkObject around item table) := by
  unfold take
  generalize s.table around item.link = looked at h ⊢
  obtain ⟨result, looked⟩ := looked
  obtain rfl : result = .ok table := h
  rfl

/-- Without a table nothing is done with an item. -/
theorem take_of_table_error {s : Session} {item : WorkItem} {unavailable : Unavailable}
    (h : (s.table around item.link).1 = .error unavailable) :
    s.take around item =
      let dropped := (s.table around item.link).2.note (.dropped item)
      if item.seeded then (.error unavailable, dropped)
      else (.ok false, dropped.report [⟨.schemaMissing, item.link, none, item.path,
        "cannot load grammar: " ++ unavailable.reason⟩]) := by
  unfold take
  generalize s.table around item.link = looked at h ⊢
  obtain ⟨result, looked⟩ := looked
  obtain rfl : result = .error unavailable := h
  rfl

/-- An item cannot be taken when it is a seed without a table. -/
theorem error_of_take {s : Session} {item : WorkItem} {unavailable : Unavailable}
    (h : (s.take around item).1 = .error unavailable) :
    (s.table around item.link).1 = .error unavailable := by
  cases hresult : (s.table around item.link).1 with
  | ok table =>
    rw [take_of_table_ok hresult] at h
    cases h
  | error reason =>
    rw [take_of_table_error hresult] at h
    dsimp only at h
    split at h <;> cases h
    rfl

/-- What becomes of an item that was taken, once its table was looked up. -/
inductive Taken (around : Surroundings) (item : WorkItem) (s : Session) :
    Except Unavailable Bool × Session → Prop
  | checked (table : Table) : s.cache.find? item.link = some (.ok table) →
    Taken around item s (.ok true, (s.enter item).checkObject around item table)
  | passed (found : Finding) : item.seeded = false →
    Taken around item s (.ok false, (s.note (.dropped item)).report [found])
  | failed (unavailable : Unavailable) : item.seeded = true →
    Taken around item s (.error unavailable, s.note (.dropped item))

theorem taken_take (s : Session) (around : Surroundings) (item : WorkItem) :
    Taken around item (s.table around item.link).2 (s.take around item) := by
  cases hresult : (s.table around item.link).1 with
  | ok table =>
    rw [take_of_table_ok hresult]
    exact .checked table (find?_of_table hresult)
  | error unavailable =>
    rw [take_of_table_error hresult]
    dsimp only
    split
    · next hseeded => exact .failed unavailable hseeded
    · next hmet => exact .passed _ (Bool.not_eq_true _ ▸ hmet)

theorem grows_enter (s : Session) (item : WorkItem) : Grows s (s.enter item) :=
  ⟨rfl, List.prefix_refl _, List.prefix_refl _, List.prefix_append _ _, fun _ _ h => h⟩

theorem grows_take (s : Session) (around : Surroundings) (item : WorkItem) :
    Grows s (s.take around item).2 := by
  have htable : Grows s (s.table around item.link).2 := grows_table s item.link
  have htaken := taken_take s around item
  generalize s.take around item = taken at htaken
  refine htable.trans ?_
  cases htaken with
  | checked table => exact (grows_enter _ item).trans (grows_checkObject around _ item table)
  | passed found => exact (grows_note _ _).trans (grows_report _ _)
  | failed unavailable => exact grows_note _ _

/-- What holds at the end of a run, which depends on whether a seed lacked its table. -/
def Ended (P Q : Session → Prop) : End × Session → Prop
  | (.ok _, s) => P s
  | (.error _, s) => Q s

theorem Ended.state {P : Session → Prop} {ended : End × Session} (h : Ended P P ended) :
    P ended.2 := by
  rcases ended with ⟨_ | _, s⟩ <;> exact h

/-- A property that taking an item keeps is kept until a run stops. A seed without a table
may end a run in a state of another kind. -/
theorem drain_keep {P Q : Session → Prop}
    (hok : ∀ s item rest taken s', s.queue = item :: rest →
      take { s with queue := rest } around item = (.ok taken, s') → P s → P s')
    (herror : ∀ s item rest unavailable s', s.queue = item :: rest →
      take { s with queue := rest } around item = (.error unavailable, s') → P s → Q s')
    (fuel count : Nat) {s : Session} (hs : P s) : Ended P Q (drain around fuel count s) := by
  induction fuel generalizing count s with
  | zero =>
    unfold drain
    split
    · exact hs
    · split <;> exact hs
  | succ fuel ih =>
    unfold drain
    dsimp only
    split
    · exact hs
    · next item rest hqueue =>
      split
      · exact hs
      · split
        · next taken s' htake => exact ih _ (hok s item rest taken s' hqueue htake hs)
        · next unavailable s' htake => exact herror s item rest unavailable s' hqueue htake hs

/-- A run that ends in an error has come to an item that could not be taken. -/
theorem exists_take_of_drain {P : Session → Prop}
    (hok : ∀ s item rest taken s', s.queue = item :: rest →
      take { s with queue := rest } around item = (.ok taken, s') → P s → P s')
    {fuel count : Nat} {s s' : Session} {unavailable : Unavailable}
    (h : drain around fuel count s = (.error unavailable, s')) (hs : P s) :
    ∃ s item rest, P s ∧ s.queue = item :: rest ∧
      (take { s with queue := rest } around item).1 = .error unavailable := by
  induction fuel generalizing count s with
  | zero =>
    unfold drain at h
    split at h
    · cases h
    · split at h <;> cases h
  | succ fuel ih =>
    unfold drain at h
    dsimp only at h
    split at h
    · cases h
    · next item rest hqueue =>
      split at h
      · cases h
      · split at h
        · next taken s₁ htake => exact ih h (hok s item rest taken s₁ hqueue htake hs)
        · next htake =>
          cases h
          exact ⟨s, item, rest, hs, hqueue, congrArg Prod.fst htake⟩

theorem grows_drain (around : Surroundings) (fuel count : Nat) (s : Session) :
    Grows s (drain around fuel count s).2 := by
  have htake {a : Session} {item : WorkItem} {rest : List WorkItem}
      {result : Except Unavailable Bool} {b : Session}
      (htake : take { a with queue := rest } around item = (result, b)) (ha : Grows s a) :
      Grows s b := by
    have hgrows := grows_take { a with queue := rest } around item
    rw [htake] at hgrows
    exact ha.trans ⟨hgrows.version, hgrows.findings, hgrows.pairs, hgrows.log, hgrows.tables⟩
  have hended : Ended (Grows s) (Grows s) (drain around fuel count s) :=
    drain_keep (fun _ _ _ _ _ _ h ha => htake h ha) (fun _ _ _ _ _ _ h ha => htake h ha)
      fuel count (.refl s)
  exact hended.state

/-- A run that was not stopped has emptied the queue. -/
theorem queue_of_drain {fuel count checked : Nat} {s s' : Session}
    (h : drain around fuel count s = (.ok (checked, false), s')) : s'.queue = [] := by
  induction fuel generalizing count s with
  | zero =>
    unfold drain at h
    split at h
    · next hqueue => cases h; exact hqueue
    · split at h <;> cases h
  | succ fuel ih =>
    unfold drain at h
    dsimp only at h
    split at h
    · next hqueue => cases h; exact hqueue
    · split at h
      · cases h
      · split at h
        · exact ih h
        · cases h

theorem drain_of_run {s : Session} {stats : Stats} (h : (s.run around).1 = .ok stats) :
    drain around (s.bound around) 0 s =
      (.ok (stats.checked, stats.cancelled), (s.run around).2) := by
  unfold run at h ⊢
  generalize drain around (s.bound around) 0 s = ended at h ⊢
  rcases ended with ⟨unavailable | ended, s'⟩
  · cases h
  · cases h; rfl

theorem drain_of_run_error {s : Session} {unavailable : Unavailable}
    (h : (s.run around).1 = .error unavailable) :
    drain around (s.bound around) 0 s = (.error unavailable, (s.run around).2) := by
  unfold run at h ⊢
  generalize drain around (s.bound around) 0 s = ended at h ⊢
  rcases ended with ⟨reason | ended, s'⟩
  · cases h; rfl
  · cases h

end Session

end PdfConform
