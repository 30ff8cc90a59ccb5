import PdfConform.Proofs.Check.RunStep
import PdfConform.Proofs.Check.Simulation

/-! Null entries. A container goes on to be checked as if such an entry were not there, but for
wildcard rows that require a value: they report the entry as missing, and nothing without it. -/
namespace PdfConform

theorem Ordered.split_of_get? {α : Type} {key : String} {value : α} {entries : List (String × α)}
    (hsorted : Sorted entries) (hget : get? key entries = some value) :
    ∃ before after, entries = before ++ (key, value) :: after ∧
      erase key entries = before ++ after := by
  obtain ⟨before, after, rfl⟩ := List.append_of_mem (mem_of_get? hget)
  obtain ⟨_, hafter, hbefore⟩ := List.pairwise_append.1 hsorted
  have hsmaller : ∀ e ∈ before, e.1 ≠ key := fun e he heq =>
    String.lt_irrefl key (heq ▸ hbefore e he (key, value) List.mem_cons_self)
  have hgreater : ∀ e ∈ after, e.1 ≠ key := fun e he heq =>
    String.lt_irrefl key (heq ▸ (List.pairwise_cons.1 hafter).1 e he)
  refine ⟨before, after, rfl, ?_⟩
  simp only [erase, List.filter_append, ne_eq, not_true_eq_false, decide_false,
    Bool.false_eq_true, not_false_eq_true, List.filter_cons_of_neg]
  rw [List.filter_eq_self.2 (by simpa using hsmaller),
    List.filter_eq_self.2 (by simpa using hgreater)]

/-- The object with this key taken out, if it has entries. -/
def Object.without (key : String) : Object → Object
  | .dictionary entries => .dictionary (Ordered.erase key entries)
  | .stream entries data => .stream (Ordered.erase key entries) data
  | object => object

def Container.without (key : String) : Container → Container
  | .dictionary entries => .dictionary (Ordered.erase key entries)
  | .array items => .array items

theorem Container.of?_without (key : String) (object : Object) :
    of? (object.without key) = (of? object).map (without key) := by
  cases object <;> rfl

theorem Container.lookup?_without {label key : String} (h : label ≠ key) (container : Container) :
    (container.without key).lookup? label = container.lookup? label := by
  cases container with
  | dictionary entries => exact Ordered.get?_erase_of_ne h entries
  | array items => rfl

theorem Container.lookup?_without_self (key : String) (container : Container) :
    (container.without key).lookup? key = none ∨
      (container.without key).lookup? key = container.lookup? key := by
  cases container with
  | dictionary entries => exact .inl (Ordered.get?_erase_self key entries)
  | array items => exact .inr rfl

namespace Scope

/-- The scope of the same check once a key is taken out. -/
def without (s : Scope) (key : String) : Scope := { s with container := s.container.without key }

section Absent

variable {s : Scope} {key : String} (habsent : s.present? key = none)
include habsent

theorem present?_without : (s.without key).present? = s.present? := by
  funext label
  by_cases hlabel : label = key
  · rw [hlabel, habsent]
    rcases s.container.lookup?_without_self key with hnone | hsame
    · simp [present?, without, hnone]
    · simpa [present?, without, hsame] using habsent
  · simp [present?, without, Container.lookup?_without hlabel]

theorem context_without : (s.without key).context = s.context :=
  context_of_present? rfl rfl (present?_without habsent)

theorem valueMessage?_without : (s.without key).valueMessage? = s.valueMessage? :=
  valueMessage?_of_context (context_without habsent)

theorem entryFindings_without : (s.without key).entryFindings = s.entryFindings := by
  funext row label value
  unfold entryFindings typedFindings
  rw [context_without habsent, valueMessage?_without habsent]
  rfl

end Absent

theorem childPath_without (s : Scope) (key path label : String) :
    (s.without key).container.childPath path label = s.container.childPath path label := by
  obtain ⟨store, version, table, container, own⟩ := s
  cases container <;> rfl

theorem child?_without (s : Scope) (key : String) : (s.without key).child? = s.child? := by
  funext row label value
  unfold child?
  simp only [childPath_without]
  rfl

/-- What is null or refers to nothing is like no entry. -/
theorem entryFindings_of_absent (s : Scope) (row : Row) (label : String) {value : Option Object}
    (h : value.bind s.store.present = none) :
    s.entryFindings row label value = s.entryFindings row label none := by
  unfold entryFindings
  rw [h]
  rfl

theorem child?_of_absent (s : Scope) (row : Row) (label : String) {value : Option Object}
    (h : value.bind s.store.present = none) : s.child? row label value = none := by
  unfold child?
  rw [h]
  rfl

/-- The scope of the same check over other entries. -/
def holding (s : Scope) (entries : Dictionary) : Scope :=
  { s with container := .dictionary entries }

theorem holding_self {s : Scope} {d : Dictionary} (h : s.container = .dictionary d) :
    s.holding d = s := by
  rw [holding, ← h]

theorem without_eq_holding {s : Scope} {d : Dictionary} (h : s.container = .dictionary d)
    (key : String) : s.without key = s.holding (Ordered.erase key d) := by
  rw [without, h]
  rfl

section Wildcard

variable (s : Scope) {row : Row} (hrow : row.key = .wildcard)
include hrow

theorem entries_holding (entries : Dictionary) : (s.holding entries).entries row =
    (entries.filter fun e => !s.table.namesKey e.1).map fun e => (e.1, some e.2) := by
  simp only [Scope.entries, holding, hrow]

theorem entries_holding_append (before after : Dictionary) :
    (s.holding (before ++ after)).entries row =
      (s.holding before).entries row ++ (s.holding after).entries row := by
  simp only [s.entries_holding hrow, List.filter_append, List.map_append]

theorem entries_holding_singleton (key : String) (value : Object) :
    (s.holding [(key, value)]).entries row =
      if s.table.namesKey key then [] else [(key, some value)] := by
  rw [s.entries_holding hrow]
  cases hnamed : s.table.namesKey key <;> simp [hnamed]

end Wildcard

/-- A wildcard row that requires a value of every key that no row names. -/
def demands (s : Scope) (key : String) (row : Row) : Bool :=
  row.key = .wildcard && row.isRequired s.context && !s.table.namesKey key

end Scope

/-- That this key is missing. -/
def Finding.isMissing (key : String) (f : Finding) : Bool :=
  f.kind = .missingRequiredKey && f.key = some key

namespace Session

/-- The second session is the first one but for so many findings that the key is missing. -/
structure Spared (key : String) (lost : Nat) (s s' : Session) : Prop where
  version : s.version = s'.version
  budget : s.budget = s'.budget
  cancelled : s.cancelled = s'.cancelled
  cache : s.cache = s'.cache
  record : s.record = s'.record
  queue : s.queue = s'.queue
  checked : s.checked = s'.checked
  log : s.log = s'.log
  fewer : s'.findings.Sublist s.findings
  length : s.findings.length = s'.findings.length + lost
  others : s.findings.filter (!Finding.isMissing key ·) =
    s'.findings.filter (!Finding.isMissing key ·)

namespace Spared

variable {fs : Files} {store : Store} {key : String} {lost : Nat} {s s' : Session}

theorem refl (key : String) (s : Session) : Spared key 0 s s :=
  ⟨rfl, rfl, rfl, rfl, rfl, rfl, rfl, rfl, List.Sublist.refl _, rfl, rfl⟩

theorem findings_eq_iff (h : Spared key lost s s') : s.findings = s'.findings ↔ lost = 0 := by
  have hlength := h.length
  constructor
  · intro hsame
    rw [hsame] at hlength
    omega
  · rintro rfl
    exact (h.fewer.eq_of_length hlength.symm).symm

theorem report (h : Spared key lost s s') (found : List Finding) :
    Spared key lost (s.report found) (s'.report found) := by
  have hlength := h.length
  refine { h with fewer := ?_, length := ?_, others := ?_ }
  · exact h.fewer.append_right found
  · simp only [Session.report, List.length_append]
    omega
  · simp only [Session.report, List.filter_append, h.others]

/-- A finding that only the first session has. -/
theorem lose (h : Spared key lost s s') {f : Finding} (hf : f.isMissing key = true) :
    Spared key (lost + 1) (s.report [f]) s' := by
  have hlength := h.length
  refine { h with fewer := ?_, length := ?_, others := ?_ }
  · exact h.fewer.trans (List.sublist_append_left _ _)
  · simp only [Session.report, List.length_append, List.length_singleton]
    omega
  · simp [Session.report, List.filter_append, hf, h.others]

theorem note (h : Spared key lost s s') (event : Event) :
    Spared key lost (s.note event) (s'.note event) :=
  { h with log := congrArg (· ++ [event]) h.log }

theorem mark (h : Spared key lost s s') (identity : Identity) (link : String) :
    Matches (Spared key lost) (s.mark identity link) (s'.mark identity link) := by
  unfold Session.mark
  rw [h.record]
  exact ⟨rfl, { h with record := rfl }⟩

theorem table (h : Spared key lost s s') (link : String) :
    Matches (Spared key lost) (s.table (.still fs store) link)
      (s'.table (.still fs store) link) := by
  have hlooked : s.cache.get fs link = s'.cache.get fs link := by rw [h.cache]
  have hreported := h.report (s'.cache.get fs link).2.2
  simp only [Session.table, Surroundings.still]
  rw [hlooked]
  exact ⟨rfl, { hreported with cache := rfl }⟩

theorem enqueue (h : Spared key lost s s') (object : Object) (reference : Option ObjectId)
    (link path : String) :
    Spared key lost (s.enqueue object reference link path)
      (s'.enqueue object reference link path) := by
  obtain ⟨hfresh, hmarked⟩ := h.mark (.of object reference) link
  unfold Session.enqueue
  dsimp only
  rw [hfresh]
  split
  · exact { hmarked with queue := congrArg (· ++ _) h.queue, log := congrArg (· ++ _) h.log }
  · exact hmarked.note _

theorem simulation (fs : Files) (store : Store) (key : String) (lost : Nat) :
    Simulation (.still fs store) (Spared key lost) where
  version h := h.version
  queue h := h.queue
  report found h := h.report found
  note event h := h.note event
  table link h := h.table link
  mark identity link h := h.mark identity link
  enqueue object reference link path h := h.enqueue object reference link path
  enter _ h :=
    { h with checked := congrArg (· ++ _) h.checked, log := congrArg (· ++ _) h.log }
  pop _ h := { h with queue := rfl }

theorem checkEntry_without {scope : Scope} (habsent : scope.present? key = none)
    (around : Surroundings) (row : Row) :
    Session.checkEntry around (scope.without key) row = Session.checkEntry around scope row := by
  funext s entry
  unfold Session.checkEntry
  rw [Scope.entryFindings_without habsent, Scope.child?_without]
  rfl

theorem checkEntry_of_absent (around : Surroundings) (scope : Scope) (row : Row) (s : Session)
    (label : String) {value : Option Object} (h : value.bind scope.store.present = none) :
    Session.checkEntry around scope row s (label, value) =
      s.report (scope.entryFindings row label none) := by
  unfold Session.checkEntry
  dsimp only
  rw [scope.entryFindings_of_absent row label h, scope.child?_of_absent row label h]

theorem checkEntry (h : Spared key lost s s') (scope : Scope) (row : Row)
    (entry : String × Option Object) :
    Spared key lost (Session.checkEntry (.still fs store) scope row s entry)
      (Session.checkEntry (.still fs store) scope row s' entry) :=
  (simulation fs store key lost).congruent.checkEntry rfl row entry h

theorem checkEntries (h : Spared key lost s s') (scope : Scope) (row : Row)
    (entries : List (String × Option Object)) :
    Spared key lost (entries.foldl (Session.checkEntry (.still fs store) scope row) s)
      (entries.foldl (Session.checkEntry (.still fs store) scope row) s') :=
  List.foldl_rel h fun entry _ _ _ hentry => hentry.checkEntry scope row entry

theorem demand (h : Spared key lost s s') (scope : Scope) {row : Row}
    (hrow : row.key = .wildcard) (hnamed : scope.table.namesKey key = false) :
    Spared key (lost + if scope.demands key row then 1 else 0)
      (s.report (scope.entryFindings row key none)) s' := by
  have hdemands : scope.demands key row = row.isRequired scope.context := by
    simp [Scope.demands, hrow, hnamed]
  rw [hdemands]
  cases hrequired : row.isRequired scope.context with
  | false =>
    have hnothing : scope.entryFindings row key none = [] := by
      simp [Scope.entryFindings, hrequired]
    have hreport : s.report [] = s := by
      unfold Session.report
      rw [List.append_nil]
    rw [hnothing, hreport]
    exact h
  | true =>
    have hmissing : scope.entryFindings row key none =
        [scope.finding key .missingRequiredKey ("required " ++ row.typeList ++ " is missing")] := by
      simp [Scope.entryFindings, hrequired]
    rw [hmissing]
    exact h.lose (by simp [Finding.isMissing, Scope.finding])

section Row

variable {scope : Scope} {d : Dictionary} {value : Object}

theorem checkNamed (h : Spared key lost s s') (hget : d.get? key = some value)
    (hnull : scope.store.present value = none) (row : Row) (named : String) :
    Spared key lost (Session.checkEntry (.still fs store) scope row s (named, d.get? named))
      (Session.checkEntry (.still fs store) scope row s'
        (named, Dictionary.get? (Ordered.erase key d) named)) := by
  by_cases hnamed : named = key
  · have hgone : Dictionary.get? (Ordered.erase key d) key = none := Ordered.get?_erase_self key d
    have hvalue : (some value).bind scope.store.present = none := hnull
    rw [hnamed, hget, hgone, checkEntry_of_absent _ scope row s key hvalue,
      checkEntry_of_absent _ scope row s' key (Option.bind_none _)]
    exact h.report _
  · have hkept : Dictionary.get? (Ordered.erase key d) named = d.get? named :=
      Ordered.get?_erase_of_ne hnamed d
    rw [hkept]
    exact h.checkEntry scope row _

/-- The wildcard comes to all entries before this one, then to it if no row names its key, and
then to all after it. -/
theorem checkUnnamed (h : Spared key lost s s') (hsorted : Ordered.Sorted d)
    (hget : d.get? key = some value) (hnull : scope.store.present value = none) {row : Row}
    (hrow : row.key = .wildcard) :
    Spared key (lost + if scope.demands key row then 1 else 0)
      (((scope.holding d).entries row).foldl (Session.checkEntry (.still fs store) scope row) s)
      (((scope.holding (Ordered.erase key d)).entries row).foldl
        (Session.checkEntry (.still fs store) scope row) s') := by
  obtain ⟨before, after, hsplit, herased⟩ := Ordered.split_of_get? hsorted hget
  have hbefore : Spared key lost
      (((scope.holding before).entries row).foldl
        (Session.checkEntry (.still fs store) scope row) s)
      (((scope.holding before).entries row).foldl
        (Session.checkEntry (.still fs store) scope row) s') := h.checkEntries scope row _
  rw [herased, hsplit, ← List.singleton_append]
  simp only [scope.entries_holding_append hrow, scope.entries_holding_singleton hrow,
    List.foldl_append]
  refine checkEntries ?_ scope row _
  cases hnamed : scope.table.namesKey key with
  | true =>
    have hdemands : scope.demands key row = false := by simp [Scope.demands, hnamed]
    rw [hdemands]
    exact hbefore
  | false =>
    have hvalue : (some value).bind scope.store.present = none := hnull
    simp only [Bool.false_eq_true, if_false, List.foldl_cons, List.foldl_nil]
    rw [checkEntry_of_absent _ scope row _ key hvalue]
    exact hbefore.demand scope hrow hnamed

theorem checkRow (h : Spared key lost s s') (hcontainer : scope.container = .dictionary d)
    (hsorted : Ordered.Sorted d) (hget : d.get? key = some value)
    (hnull : scope.store.present value = none) (row : Row) :
    Spared key (lost + if scope.demands key row then 1 else 0)
      (Session.checkRow (.still fs store) scope s row)
      (Session.checkRow (.still fs store) (scope.without key) s' row) := by
  have habsent : scope.present? key = none := by
    simp [Scope.present?, hcontainer, Container.lookup?, hget, hnull]
  have hself : scope.entries row = (scope.holding d).entries row := by
    rw [Scope.holding_self hcontainer]
  unfold Session.checkRow
  rw [checkEntry_without habsent, hself, Scope.without_eq_holding hcontainer]
  cases hrow : row.key with
  | name named =>
    have hdemands : scope.demands key row = false := by simp [Scope.demands, hrow]
    have hentries (entries : Dictionary) :
        (scope.holding entries).entries row = [(named, entries.get? named)] := by
      simp only [Scope.entries, Scope.holding, hrow]
    rw [hdemands, hentries, hentries]
    exact h.checkNamed hget hnull row named
  | index n =>
    have hdemands : scope.demands key row = false := by simp [Scope.demands, hrow]
    have hentries (entries : Dictionary) : (scope.holding entries).entries row = [] := by
      simp only [Scope.entries, Scope.holding, hrow]
    rw [hdemands, hentries, hentries]
    exact h
  | wildcard => exact h.checkUnnamed hsorted hget hnull hrow

theorem checkRows (h : Spared key lost s s') (hcontainer : scope.container = .dictionary d)
    (hsorted : Ordered.Sorted d) (hget : d.get? key = some value)
    (hnull : scope.store.present value = none) (rows : List Row) :
    Spared key (lost + rows.countP (scope.demands key))
      (rows.foldl (Session.checkRow (.still fs store) scope) s)
      (rows.foldl (Session.checkRow (.still fs store) (scope.without key)) s') := by
  induction rows generalizing lost s s' with
  | nil => exact h
  | cons row rows ih =>
    rw [List.countP_cons, Nat.add_comm (rows.countP _), ← Nat.add_assoc]
    exact ih (h.checkRow hcontainer hsorted hget hnull row)

end Row

end Spared

/-- Taking out an entry that is null or refers to nothing changes nothing in the work that a check
queues. It changes nothing in what the check finds either, unless no row names the key and a
wildcard row requires a value: each such row finds the key missing, and only while it is there. -/
theorem checkObject_without_null (fs : Files) (store : Store) (s : Session) (item : WorkItem)
    (identity : Identity) (table : Table) {d : Dictionary} {key : String} {value : Object}
    (hentries : item.object.entries? = some d) (hsorted : Ordered.Sorted d)
    (hget : d.get? key = some value) (hnull : store.present value = none) :
    let scope : Scope := ⟨store, s.version, table, .dictionary d, item.path⟩
    let full := s.checkObject (.still fs store) item table
    let bare := s.checkObject (.still fs store)
      { item with object := item.object.without key, identity } table
    full.queue = bare.queue ∧ full.record = bare.record ∧ full.log = bare.log ∧
      bare.findings.Sublist full.findings ∧
      full.findings.filter (!Finding.isMissing key ·) =
        bare.findings.filter (!Finding.isMissing key ·) ∧
      full.findings.length = bare.findings.length + table.rows.countP (scope.demands key) ∧
      (full.findings = bare.findings ↔ table.namesKey key = true ∨
        ∀ row ∈ table.rows, row.key = .wildcard → row.isRequired scope.context = false) := by
  intro scope full bare
  have hcontainer : Container.of? item.object = some (.dictionary d) := by
    cases hobject : item.object <;> rw [hobject] at hentries <;> cases hentries <;> rfl
  have hwithout : Container.of? (item.object.without key) =
      some (.dictionary (Ordered.erase key d)) := by
    rw [Container.of?_without, hcontainer]
    rfl
  have hfull : full = table.rows.foldl (checkRow (.still fs store) scope) s := by
    simp only [full, checkObject, hcontainer]
    rfl
  have hbare : bare = table.rows.foldl (checkRow (.still fs store) (scope.without key)) s := by
    simp only [bare, checkObject, hwithout]
    rfl
  have hspared : Spared key (0 + table.rows.countP (scope.demands key)) full bare := by
    rw [hfull, hbare]
    exact (Spared.refl key s).checkRows rfl hsorted hget hnull table.rows
  rw [Nat.zero_add] at hspared
  refine ⟨hspared.queue, hspared.record, hspared.log, hspared.fewer, hspared.others,
    hspared.length, ?_⟩
  rw [hspared.findings_eq_iff, List.countP_eq_zero]
  cases hnamed : table.namesKey key <;> simp [Scope.demands, scope, hnamed]

end Session

/-! A table that requires a name of every key, and a dictionary with a null entry. -/
namespace Anything

def row : Row where
  line := 2
  key := .wildcard
  types := [.known .name]
  since := none
  deprecated := none
  required := .const true
  indirect := .const false
  requiredValue := none
  defaultText := ""
  possible := [⟨[]⟩]
  special := none
  links := [[]]

def table : Table := ⟨"FileTrailer", "grammar/FileTrailer.tsv", Row.columns, [row], []⟩

def item : WorkItem where
  object := .dictionary [("Extra", .null)]
  identity := .indirect ⟨1, 0⟩
  link := "FileTrailer"
  path := "Trailer"
  seeded := true

def session : Session := .start .empty (.ofFolder (.of "grammar")) (some ⟨1, 7⟩) none

def around : Surroundings := .still .empty .empty

end Anything

/-- The one row that there is requires a value, and finds the key missing. -/
theorem Session.checkObject_without_null_anything :
    let full := Anything.session.checkObject Anything.around Anything.item Anything.table
    let bare := Anything.session.checkObject Anything.around
      { Anything.item with object := Anything.item.object.without "Extra" } Anything.table
    Anything.item.object.entries? = some [("Extra", .null)] ∧
      Store.empty.present .null = none ∧ full.queue = bare.queue ∧
      full.findings.filter (!Finding.isMissing "Extra" ·) =
        bare.findings.filter (!Finding.isMissing "Extra" ·) ∧
      full.findings.length = bare.findings.length + 1 := by
  intro full bare
  obtain ⟨hqueue, _, _, _, hothers, hlength, _⟩ := checkObject_without_null .empty .empty
    Anything.session Anything.item Anything.item.identity Anything.table
    (rfl : Anything.item.object.entries? = some [("Extra", .null)]) (List.pairwise_singleton _ _)
    (rfl : Dictionary.get? [("Extra", .null)] "Extra" = some .null) (by decide +kernel)
  exact ⟨rfl, by decide +kernel, hqueue, hothers, hlength⟩

/-- What a check finds is not the same without a null entry. -/
theorem Session.null_entry_missing :
    Anything.item.object.entries? = some [("Extra", .null)] ∧
      Store.empty.present .null = none ∧
      (Anything.session.checkObject Anything.around Anything.item Anything.table).findings =
        [⟨.missingRequiredKey, "FileTrailer", some "Extra", "Trailer",
          "required NAME is missing"⟩] ∧
      (Anything.session.checkObject Anything.around
        { Anything.item with object := Anything.item.object.without "Extra" }
        Anything.table).findings = [] := by
  refine ⟨rfl, ?_, ?_, ?_⟩ <;> decide +kernel

end PdfConform
