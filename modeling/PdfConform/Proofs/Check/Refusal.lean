import PdfConform.Proofs.Check.Discriminator

/-! What a link is turned down for. A row that tells structures apart speaks against its table if
the check of the table would find the value missing, of a wrong type or a wrong value. But a row for
an index is held against a dictionary too, with the number as a key, and no check does that. -/
namespace PdfConform

namespace Scope

variable {s : Scope} {row : Row}

/-- The row turns down nothing of what it looks at. -/
def Clears (s : Scope) (row : Row) : Prop :=
  ∀ entry ∈ s.entries row, ∀ f ∈ s.entryFindings row entry.1 entry.2, f.kind.rejects = false

/-- With an index for a key of a dictionary, the row turns down nothing of what is there. -/
def ClearsKeys (s : Scope) (row : Row) : Prop :=
  ∀ n entries, row.key = .index n → s.container = .dictionary entries →
    ∀ f ∈ s.entryFindings row (Number.showNat n) (entries.get? (Number.showNat n)),
      f.kind.rejects = false

theorem rowFit_ne_none_iff (label : String) {value : Option Object}
    (hvalue : s.container.lookup? row.key.text = value) :
    s.rowFit row ≠ .none ↔ ∀ f ∈ s.entryFindings row label value, f.kind.rejects = false := by
  refine ⟨fun hfit f hf => not_rejects_of_rowFit hfit hvalue hf, fun hclear => ?_⟩
  unfold rowFit present?
  rw [hvalue]
  cases hpresent : value.bind s.store.present with
  | none =>
    have hrequired : row.isRequired s.context = false := by
      by_contra hrequired
      simp [entryFindings, hpresent, hrequired, finding, Finding.Kind.rejects] at hclear
    simp [hrequired]
  | some found =>
    obtain ⟨object, reference⟩ := found
    cases hindex : TypeToken.select? s.store object row.types with
    | none =>
      have hmistyped : s.finding label .typeMismatch
          ("expected " ++ row.typeList ++ ", found " ++ object.kind) ∈
          s.entryFindings row label value := by
        simp [entryFindings, hpresent, hindex]
      cases hclear _ hmistyped
    | some index =>
      cases hliteral : Literal.ofObject? object with
      | none => simp [hindex, hliteral]
      | some literal =>
        have hviolation : ∀ f ∈ s.entryFindings row label value,
            f.kind ≠ .possibleValueViolation := by
          intro f hf hkind
          have hrejects := hclear f hf
          rw [hkind] at hrejects
          cases hrejects
        have hvalues := (no_violation_iff hpresent hindex hliteral).1 hviolation
        simp [hindex, hliteral, hvalues]

theorem fit_ne_none_iff : s.fit ≠ .none ↔ s.shapeFits = true ∧
    ∀ row ∈ s.table.rows, row.isDiscriminator = true → s.rowFit row ≠ .none := by
  constructor
  · intro hfit
    refine ⟨?_, fun row hrow hdiscriminator => rowFit_of_fit hfit hrow hdiscriminator⟩
    by_contra hshape
    simp [fit, hshape] at hfit
  · rintro ⟨hshape, hrows⟩
    have hnone : Fit.none ∉ (s.table.rows.filter Row.isDiscriminator).map s.rowFit := by
      intro hmem
      obtain ⟨row, hrow, hfit⟩ := List.mem_map.1 hmem
      obtain ⟨hrow, hdiscriminator⟩ := List.mem_filter.1 hrow
      exact hrows row hrow hdiscriminator hfit
    unfold fit
    simp only [hshape, Bool.not_true, Bool.false_eq_true, if_false, List.contains_iff_mem,
      hnone]
    split <;> simp

/-- In a table of the right shape, a row speaks against it for what the row looks at in a check,
and for what has its index as a key. -/
theorem rowFit_ne_none_iff_clears (hshape : s.shapeFits = true) (hrow : row ∈ s.table.rows)
    (hdiscriminator : row.isDiscriminator = true)
    (hindex : ∀ n, row.key = .index n → n < UInt64.size) :
    s.rowFit row ≠ .none ↔ s.Clears row ∧ s.ClearsKeys row := by
  cases hkey : row.key with
  | wildcard => exact absurd hkey (key_ne_wildcard hdiscriminator)
  | name key =>
    have hkeys : s.ClearsKeys row := fun n _ hn => by cases hkey.symm.trans hn
    cases hcontainer : s.container with
    | array items =>
      have hnamed : s.table.hasNamedKeys = true :=
        List.any_eq_true.2 ⟨row, hrow, by rw [hkey]; rfl⟩
      simp [shapeFits, hcontainer, hnamed] at hshape
    | dictionary entries =>
      have hvalue : s.container.lookup? row.key.text = entries.get? key := by
        rw [hkey, hcontainer]; rfl
      rw [rowFit_ne_none_iff key hvalue, and_iff_left hkeys]
      simp [Clears, Scope.entries, hkey, hcontainer]
  | index n =>
    cases hcontainer : s.container with
    | array items =>
      have hkeys : s.ClearsKeys row := fun _ _ _ hdict => by cases hcontainer.symm.trans hdict
      have hmem : (Number.showNat n, items[n]?) ∈ s.entries row := by
        simp [Scope.entries, hkey, hcontainer]
      have hvalue := lookup?_of_mem_entries (key_ne_wildcard hdiscriminator) hindex hmem
      rw [rowFit_ne_none_iff (Number.showNat n) hvalue, and_iff_left hkeys]
      simp [Clears, Scope.entries, hkey, hcontainer]
    | dictionary entries =>
      have hentries : s.Clears row := by simp [Clears, Scope.entries, hkey, hcontainer]
      have hvalue : s.container.lookup? row.key.text = entries.get? (Number.showNat n) := by
        rw [hkey, hcontainer]; rfl
      rw [rowFit_ne_none_iff (Number.showNat n) hvalue, and_iff_right hentries]
      constructor
      · intro hclear m found hm hdict
        cases hkey.symm.trans hm
        cases hcontainer.symm.trans hdict
        exact hclear
      · exact fun hkeys => hkeys n entries hkey hcontainer

theorem fit_ne_none_iff_clears
    (hindex : ∀ row ∈ s.table.rows, ∀ n, row.key = .index n → n < UInt64.size) :
    s.fit ≠ .none ↔ s.shapeFits = true ∧
      (∀ row ∈ s.table.rows, row.isDiscriminator = true → s.Clears row) ∧
      ∀ row ∈ s.table.rows, row.isDiscriminator = true → s.ClearsKeys row := by
  rw [fit_ne_none_iff, ← forall₂_and]
  refine and_congr_right fun hshape => forall₂_congr fun row hrow => ?_
  rw [← imp_and]
  exact imp_congr_right fun hdiscriminator =>
    rowFit_ne_none_iff_clears hshape hrow hdiscriminator (hindex row hrow)

end Scope

namespace Session

variable {around : Surroundings} {s : Session} {item : WorkItem} {table : Table}
  {container : Container}

/-- What was reported in between is among all that was reported. -/
theorem Reports.of_mem {P : Finding → Prop} {a b c : Session} {found : List Finding}
    (h : Reports P a c) (hbefore : Grows a b) (hafter : Grows (b.report found) c) :
    ∀ f ∈ found, P f := by
  obtain ⟨reported, hreported, hP⟩ := h
  obtain ⟨earlier, hearlier⟩ := hbefore.findings
  obtain ⟨later, hlater⟩ := hafter.findings
  have hfindings : a.findings ++ reported = a.findings ++ (earlier ++ found ++ later) := by
    rw [← hreported, ← hlater, Session.report, ← hearlier]
    simp only [List.append_assoc]
  have hsame : reported = earlier ++ found ++ later := List.append_cancel_left hfindings
  rw [hsame] at hP
  intro f hf
  exact hP f (by simp [hf])

/-- When an object is checked against a table, no row that tells structures apart turns anything
down in its turn but in a tree. -/
def Passes (around : Surroundings) (s : Session) (item : WorkItem) (table : Table) : Prop :=
  ∃ container, Container.of? item.object = some container ∧
    ∀ before row after, table.rows = before ++ row :: after → row.isDiscriminator = true →
      let check := checkRow around (scopeOf around s.version item table container)
      Reports table.Spares (before.foldl check s) (check (before.foldl check s) row)

/-- What a row turns down in its turn is what it finds on its own entries. -/
theorem clears_of_reports {row : Row} (hrow : row ∈ table.rows) {turn : Session}
    (h : Reports table.Spares turn
      (checkRow around (scopeOf around s.version item table container) turn row)) :
    (scopeOf around s.version item table container).Clears row := by
  intro entry hentry
  have hentries : ∀ turn : Session, ∀ entry ∈
      (scopeOf around s.version item table container).entries row,
      Steps around (fun _ => True) table.Declares turn
        (checkEntry around (scopeOf around s.version item table container) row turn entry) :=
    fun turn _ _ => checkEntry_steps around.store.closed_true
      (scopeOf around s.version item table container) rfl hrow (fun _ _ => trivial) turn
  obtain ⟨before, hbefore, hafter⟩ := exists_turn_foldl id hentries hentry turn
  have hdescend : Steps around (fun _ => True) table.Declares (before.report _)
      (checkEntry around (scopeOf around s.version item table container) row before entry) :=
    descend_checkEntry_steps around.store.closed_true
      (scopeOf around s.version item table container) rfl hrow (fun _ _ => trivial) before
  have hspared := h.of_mem (Steps.grows hbefore) (Steps.grows (hdescend.trans hafter))
  intro f hf
  by_contra hrejects
  obtain ⟨_, _, _, hkey⟩ := hspared f hf (by simpa using hrejects)
  -- In a tree nothing is reported under a key.
  obtain ⟨kind, message, rfl, _⟩ := Scope.exists_of_mem_entryFindings hf
  cases hkey

theorem passes_iff (hcontainer : Container.of? item.object = some container) :
    Passes around s item table ↔ ∀ row ∈ table.rows, row.isDiscriminator = true →
      (scopeOf around s.version item table container).Clears row := by
  constructor
  · rintro ⟨_, hsame, hpasses⟩ row hrow hdiscriminator
    cases hcontainer.symm.trans hsame
    obtain ⟨before, after, hrows⟩ := List.append_of_mem hrow
    exact clears_of_reports hrow (hpasses before row after hrows hdiscriminator)
  · intro hclear
    refine ⟨container, hcontainer, fun before row after hrows hdiscriminator => ?_⟩
    have hrow : row ∈ table.rows := by simp [hrows]
    exact reports_checkRow (scopeOf around s.version item table container) hrow
      (hclear row hrow hdiscriminator) _

end Session

namespace Resolution

theorem ofFits_single (link : String) (fit : Fit) :
    ofFits [(link, fit)] = if fit = .none then .unresolved else .resolved link := by
  cases fit <;> rfl

theorem resolve_single {around : Surroundings} {version : Version} {object : Object} {path : String}
    {before : List Finding} {cache : Cache} {link : String} {table : Table}
    (htable : (cache.get (around.filesAfter before) link).1 = .ok table) :
    (resolve around version object path before cache [link]).1 =
      if fitOf around.store version object table = .none then .unresolved else .resolved link := by
  have hcandidate : (candidate around path before cache link).1 = some table := by
    rw [(candidate_get around path before cache link).1, htable]
    rfl
  simp only [resolve, fits, hcandidate]
  exact ofFits_single link _

/-- An only candidate that has a table is chosen for a container exactly if the table has the shape
for it, the rows that tell structures apart turn nothing down in a check, and none of them that is
for an index turns a key of a dictionary down. -/
theorem resolved_single_iff {folder : Folder} {cache : Cache} (hcache : cache.Reached folder)
    (around : Surroundings) (s : Session) (item : WorkItem) (path : String)
    (before : List Finding) {link : String} {table : Table}
    (htable : (cache.get (around.filesAfter before) link).1 = .ok table)
    {container : Container} (hcontainer : Container.of? item.object = some container) :
    let chosen := (resolve around s.version item.object path before cache [link]).1
    let scope := Session.scopeOf around s.version item table container
    (chosen = .resolved link ∨ chosen = .unresolved) ∧
      (chosen = .resolved link ↔ scope.shapeFits = true ∧ Session.Passes around s item table ∧
        ∀ row ∈ table.rows, row.isDiscriminator = true → scope.ClearsKeys row) := by
  intro chosen scope
  have hchosen : chosen = if scope.fit = .none then .unresolved else .resolved link := by
    have hfit : fitOf around.store s.version item.object table = scope.fit := by
      rw [fitOf, hcontainer]
      rfl
    rw [← hfit]
    exact resolve_single htable
  have hindex : ∀ row ∈ table.rows, ∀ n, row.key = .index n → n < UInt64.size := by
    have hreached := hcache.get (around.filesAfter before) link
    exact fun row hrow n hkey => hreached.index_lt (Cache.find?_of_get htable) hrow hkey
  constructor
  · rw [hchosen]
    split
    · exact .inr rfl
    · exact .inl rfl
  · have hresolved : chosen = .resolved link ↔ scope.fit ≠ .none := by
      rw [hchosen]
      split <;> simp_all
    rw [hresolved, Session.passes_iff hcontainer]
    exact Scope.fit_ne_none_iff_clears hindex

end Resolution

/-! A grammar with a key and an index, and a dictionary that has only the key. -/
namespace Hybrid

def grammar : String := String.intercalate "\t" Row.columns ++
  "\nInfo\tname\t\t\tFALSE\t\t\t\t\t\t\n0\tname\t\t\tTRUE\t\tX\t\t\t\t\n"

def files : Files := ⟨[(["grammar", "Hybrid.tsv"], .file grammar.toUTF8)]⟩

def row (line : Nat) (key : KeyPattern) (required : Bool) (value : Option Literal) : Row where
  line := line
  key := key
  types := [.known .name]
  since := none
  deprecated := none
  required := .const required
  indirect := .const false
  requiredValue := value
  defaultText := ""
  possible := [⟨[]⟩]
  special := none
  links := [[]]

def table : Table := ⟨"Hybrid", "grammar/Hybrid.tsv", Row.columns,
  [row 2 (.name "Info") false none, row 3 (.index 0) true (some (.text "X"))], []⟩

theorem load_hybrid : Cache.load Cycle.folder files "Hybrid" = (.ok table, []) := by
  decide +kernel

/-- A cache in which the one table was looked up before. -/
def cache : Cache := ⟨Cycle.folder, [("Hybrid", .ok table)]⟩

theorem cache_reached : cache.Reached Cycle.folder := .ofLoad load_hybrid

def around : Surroundings := .still .empty .empty

def session : Session := .start around.store cache none none

def item (entries : Dictionary) : WorkItem :=
  ⟨.dictionary entries, .of (.dictionary entries) none, "Hybrid", "", true⟩

def named : Dictionary := [("Info", .name "Y")]

/-- The number stands among the keys. -/
def numbered : Dictionary := [("0", .name "X"), ("Info", .name "Y")]

end Hybrid

/-- With the number for a key and the right value under it, the grammar is chosen. -/
theorem Resolution.resolved_single_hybrid :
    let item := Hybrid.item Hybrid.numbered
    (Hybrid.cache.get (Hybrid.around.filesAfter []) "Hybrid").1 = .ok Hybrid.table ∧
      Container.of? item.object = some (.dictionary Hybrid.numbered) ∧
      (resolve Hybrid.around Hybrid.session.version item.object "" [] Hybrid.cache
        ["Hybrid"]).1 = .resolved "Hybrid" ∧
      Session.Passes Hybrid.around Hybrid.session item Hybrid.table := by
  intro item
  have htable : (Hybrid.cache.get (Hybrid.around.filesAfter []) "Hybrid").1 =
      .ok Hybrid.table := rfl
  have hcontainer : Container.of? item.object = some (.dictionary Hybrid.numbered) := rfl
  have hresolved : (resolve Hybrid.around Hybrid.session.version item.object "" [] Hybrid.cache
      ["Hybrid"]).1 = .resolved "Hybrid" := by decide +kernel
  obtain ⟨_, hiff⟩ := resolved_single_iff Hybrid.cache_reached Hybrid.around Hybrid.session item ""
    [] htable hcontainer
  exact ⟨htable, hcontainer, hresolved, (hiff.1 hresolved).2.1⟩

/-- Without the number, a check reports nothing, and still the grammar is not chosen. -/
theorem Resolution.unresolved_hybrid :
    let item := Hybrid.item Hybrid.named
    (Hybrid.cache.get (Hybrid.around.filesAfter []) "Hybrid").1 = .ok Hybrid.table ∧
      Hybrid.table.isArrayTable = false ∧
      (Hybrid.session.checkObject Hybrid.around item Hybrid.table).findings = [] ∧
      Session.Passes Hybrid.around Hybrid.session item Hybrid.table ∧
      (resolve Hybrid.around Hybrid.session.version item.object "" [] Hybrid.cache
        ["Hybrid"]).1 = .unresolved := by
  intro item
  have hcontainer : Container.of? item.object = some (.dictionary Hybrid.named) := rfl
  have hpasses : Session.Passes Hybrid.around Hybrid.session item Hybrid.table := by
    rw [Session.passes_iff hcontainer]
    intro row hrow hdiscriminator entry hentry
    rcases List.mem_cons.1 hrow with rfl | hrow
    · cases hdiscriminator
    · -- The only other row is for an index, and looks at nothing in a dictionary.
      obtain rfl := List.mem_singleton.1 hrow
      cases hentry
  exact ⟨rfl, rfl, by decide +kernel, hpasses, by decide +kernel⟩

end PdfConform
