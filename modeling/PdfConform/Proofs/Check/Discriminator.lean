import PdfConform.Proofs.Check.Accounting
import PdfConform.Proofs.Check.Conformance
import PdfConform.Proofs.Check.Reports

/-! A link is chosen by the rows that tell structures apart, and the check of its table comes to
the same verdict on them: none of these rows turns the object down. -/
namespace PdfConform

/-- An index has 64 bits. -/
theorem KeyPattern.lt_of_parse {text : String} {n : Nat} (h : parse text = .index n) :
    n < UInt64.size := by
  unfold parse at h
  dsimp only at h
  split at h
  · cases h
  · split at h
    · next hread =>
      cases h
      exact of_decide_eq_true (Option.filter_eq_some_iff.1 hread).2
    · cases h

theorem Cache.Reached.index_lt {folder : Folder} {cache : Cache} (h : cache.Reached folder)
    {link : String} {table : Table} (hfind : cache.find? link = some (.ok table)) {row : Row}
    (hrow : row ∈ table.rows) {n : Nat} (hkey : row.key = .index n) : n < UInt64.size := by
  obtain ⟨fields, hread⟩ := h.readFrom hfind row hrow
  exact KeyPattern.lt_of_parse (hread.key.symm.trans hkey)

namespace Scope

variable {s : Scope} {row : Row}

/-- A row for one entry looks that entry up. -/
theorem lookup?_of_mem_entries (hkey : row.key ≠ .wildcard)
    (hindex : ∀ n, row.key = .index n → n < UInt64.size) {entry : String × Option Object}
    (h : entry ∈ s.entries row) : s.container.lookup? row.key.text = entry.2 := by
  unfold entries at h
  split at h
  · next key entries hname hdict =>
    rw [List.mem_singleton.1 h, hname, hdict]
    rfl
  · next n items hn harray =>
    rw [List.mem_singleton.1 h, hn, harray, Container.lookup?, KeyPattern.text, Number.showNat,
      String.toList_ofList, Number.readBelow_digits (hindex n hn)]
    rfl
  · next hwildcard _ => exact absurd hwildcard hkey
  · next hwildcard _ => exact absurd hwildcard hkey
  · cases h

theorem key_ne_wildcard (h : row.isDiscriminator = true) : row.key ≠ .wildcard := by
  intro hkey
  simp [Row.isDiscriminator, hkey] at h

/-- What speaks for a table when a link is chosen is not turned down when it is checked. -/
theorem not_rejects_of_rowFit (hfit : s.rowFit row ≠ .none) {label : String}
    {value : Option Object} (hvalue : s.container.lookup? row.key.text = value) {f : Finding}
    (hf : f ∈ s.entryFindings row label value) : f.kind.rejects = false := by
  unfold rowFit present? at hfit
  rw [hvalue] at hfit
  unfold entryFindings at hf
  cases hpresent : value.bind s.store.present with
  | none =>
    simp only [hpresent, Option.map_none] at hfit hf
    split at hf
    · next hrequired => simp [hrequired] at hfit
    · cases hf
  | some found =>
    obtain ⟨object, reference⟩ := found
    simp only [hpresent, Option.map_some] at hfit hf
    rcases List.mem_append.1 hf with hversion | hf
    · split at hversion
      · cases hversion
      · rw [List.mem_singleton.1 hversion]; rfl
    · cases hindex : TypeToken.select? s.store object row.types with
      | none => simp [hindex] at hfit
      | some index =>
        simp only [hindex] at hfit hf
        rcases List.mem_append.1 hf with hindirect | hf
        · split at hindirect
          · rw [List.mem_singleton.1 hindirect]; rfl
          · cases hindirect
        · cases hliteral : Literal.ofObject? object with
          | none => simp [hliteral] at hf
          | some literal =>
            simp only [hliteral] at hfit
            split at hfit
            · next hagrees =>
              obtain ⟨hrequired, hpossible⟩ := Bool.and_eq_true_iff.1 hagrees
              simp [hliteral, valueMessage?_eq_none hrequired hpossible] at hf
            · exact absurd rfl hfit

theorem rowFit_of_fit (h : s.fit ≠ .none) (hrow : row ∈ s.table.rows)
    (hdiscriminator : row.isDiscriminator = true) : s.rowFit row ≠ .none := by
  intro hnone
  have hmem : Fit.none ∈ (s.table.rows.filter Row.isDiscriminator).map s.rowFit :=
    List.mem_map.2 ⟨row, List.mem_filter.2 ⟨hrow, hdiscriminator⟩, hnone⟩
  apply h
  unfold fit
  split
  · rfl
  · exact if_pos (List.contains_iff_mem.2 hmem)

end Scope

namespace Resolution

variable {around : Surroundings} {version : Version} {object : Object} {path : String}

theorem reached_fits {folder : Folder} {cache : Cache} (h : cache.Reached folder)
    (around : Surroundings) (version : Version) (object : Object) (path : String)
    (before : List Finding) (links : List String) :
    (fits around version object path before cache links).2.1.Reached folder := by
  induction links generalizing before cache with
  | nil => exact h
  | cons link links ih =>
    have hcandidate : (candidate around path before cache link).2.1.Reached folder := by
      rw [(candidate_get around path before cache link).2]
      exact h.get _ link
    exact ih hcandidate _

/-- Each fit is that of a table, which is in the cache from then on. -/
theorem table_of_mem_fits {before : List Finding} {cache : Cache} {links : List String}
    {link : String} {fit : Fit}
    (h : (link, fit) ∈ (fits around version object path before cache links).1) :
    ∃ table, (fits around version object path before cache links).2.1.find? link =
        some (.ok table) ∧ fit = fitOf around.store version object table := by
  induction links generalizing before cache with
  | nil => cases h
  | cons other links ih =>
    obtain ⟨htable, hcache⟩ := candidate_get around path before cache other
    simp only [fits] at h ⊢
    split at h
    · next table hfound =>
      rcases List.mem_cons.1 h with heq | h
      · obtain ⟨rfl, rfl⟩ := Prod.mk.inj heq
        have hget : (cache.get (around.filesAfter before) link).1 = .ok table :=
          ok_of_toOption (htable.symm.trans hfound)
        refine ⟨table, find?_fits ?_, rfl⟩
        rw [hcache]
        exact Cache.find?_of_get hget
      · exact ih h
    · exact ih h

end Resolution

/-- Nothing is turned down, but in a tree that the table plants. -/
def Table.Spares (t : Table) (f : Finding) : Prop :=
  f.kind.rejects = true → ∃ tree, t.Plants tree ∧ f.link = tree.title ∧ f.key = none

namespace Session

variable {around : Surroundings} {scope : Scope} {row : Row}

theorem reports_descend (hrow : row ∈ scope.table.rows) {entry : String × Option Object}
    {child : Child} (hchild : scope.child? row entry.1 entry.2 = some child) (s : Session) :
    Reports scope.table.Spares s (s.descend around scope entry.1 child) := by
  obtain ⟨_, ⟨index, _, htype, hlinks⟩, hne, _⟩ := Scope.leadsTo_of_child? hchild
  unfold descend
  split
  · next kind hkind =>
    have hplants : scope.table.Plants ⟨kind, child.links⟩ :=
      ⟨row, hrow, index, child.type, htype, hkind, hlinks, hlinks ▸ hne⟩
    have hwalk := reports_walkTree around ⟨kind, child.links⟩ s child.object child.reference
      child.path
    exact hwalk.mono fun f hblames hrejects => ⟨_, hplants, hblames hrejects⟩
  · have hfollow := reports_follow around s child.object child.reference child.links
      scope.table.link entry.1 child.path
    exact hfollow.mono fun f hspared hrejects => absurd hrejects (by simp [hspared])

/-- What a row finds on its entries decides whether anything is turned down in its turn. -/
theorem reports_checkRow (scope : Scope) {row : Row} (hrow : row ∈ scope.table.rows)
    (hown : ∀ entry ∈ scope.entries row, ∀ f ∈ scope.entryFindings row entry.1 entry.2,
      f.kind.rejects = false) (s : Session) :
    Reports scope.table.Spares s (checkRow around scope s row) := by
  refine .foldl id ?_ s
  intro s entry hentry
  have hfound : Reports scope.table.Spares s
      (s.report (scope.entryFindings row entry.1 entry.2)) :=
    .report (fun f hf hrejects => absurd hrejects (by simp [hown entry hentry f hf])) s
  refine hfound.trans ?_
  unfold checkEntry
  dsimp only [id]
  split
  · next child hchild => exact reports_descend hrow hchild _
  · exact .refl _

/-- Whenever the object is checked against the table, and whatever was found before, no row that
tells structures apart turns it down in its turn. -/
def Accepts (store : Store) (version : Version) (object : Object) (table : Table) : Prop :=
  ∃ container, Container.of? object = some container ∧
    ∀ (around : Surroundings) (s : Session) (item : WorkItem),
      around.store = store → s.version = version → item.object = object →
      s.checkObject around item table =
          table.rows.foldl (checkRow around (scopeOf around version item table container)) s ∧
        ∀ row ∈ table.rows, row.isDiscriminator = true → ∀ turn : Session,
          Reports table.Spares turn
            (checkRow around (scopeOf around version item table container) turn row)

theorem accepts_of_fitOf {store : Store} {version : Version} {object : Object} {table : Table}
    (hfit : Resolution.fitOf store version object table ≠ .none)
    (hindex : ∀ row ∈ table.rows, ∀ n, row.key = .index n → n < UInt64.size) :
    Accepts store version object table := by
  unfold Resolution.fitOf at hfit
  split at hfit
  · exact absurd rfl hfit
  · next container hcontainer =>
    refine ⟨container, hcontainer, ?_⟩
    rintro around s item rfl rfl rfl
    refine ⟨by unfold checkObject; rw [hcontainer]; rfl, ?_⟩
    intro row hrow hdiscriminator turn
    -- The fit was found without a path, and no fit depends on one.
    have hrowFit : (scopeOf around s.version item table container).rowFit row ≠ .none :=
      Scope.rowFit_of_fit hfit hrow hdiscriminator
    refine reports_checkRow (scopeOf around s.version item table container) hrow ?_ turn
    intro entry hentry f hf
    have hvalue := Scope.lookup?_of_mem_entries (Scope.key_ne_wildcard hdiscriminator)
      (hindex row hrow) hentry
    exact Scope.not_rejects_of_rowFit hrowFit hvalue hf

end Session

/-- An object is accepted by the table of the link that is chosen for it. -/
theorem Resolution.accepts_of_chosen {folder : Folder} {cache : Cache}
    (hcache : cache.Reached folder) (around : Surroundings) (version : Version) (object : Object)
    (path : String) (before : List Finding) (candidates : List String) {link : String}
    (hchosen : (resolve around version object path before cache candidates).1.chosen? =
      some link) :
    ∃ table,
      (resolve around version object path before cache candidates).2.1.find? link =
          some (.ok table) ∧
        Session.Accepts around.store version object table := by
  obtain ⟨fit, hmem, hfit⟩ := mem_of_chosen? hchosen
  obtain ⟨table, hfind, rfl⟩ := table_of_mem_fits hmem
  refine ⟨table, hfind, Session.accepts_of_fitOf hfit ?_⟩
  have hreached := reached_fits hcache around version object path before candidates
  exact fun row hrow n hkey => hreached.index_lt hfind hrow hkey

/-! A grammar of functions, known by a number. -/
namespace Stitched

def grammar : String :=
  String.intercalate "\t" Row.columns ++ "\nFunctionType\tinteger\t\t\tTRUE\t\t3\t\t\t\t\n"

def around : Surroundings :=
  .still ⟨[(["grammar", "Stitched.tsv"], .file grammar.toUTF8)]⟩ ⟨none, [], []⟩

def function : Object := .dictionary [("FunctionType", .integer 3)]

def candidates : List String := ["Ring", "Stitched"]

end Stitched

/-- Where nothing speaks against one grammar and a number for the other, the other is chosen, and
accepts its function. -/
theorem Resolution.accepts_of_chosen_stitched :
    let resolved := resolve Stitched.around .two Stitched.function "" [] Cycle.cache
      Stitched.candidates
    resolved.1 = .resolved "Stitched" ∧
      ∃ table, resolved.2.1.find? "Stitched" = some (.ok table) ∧
        Session.Accepts Stitched.around.store .two Stitched.function table := by
  have hresolved : (resolve Stitched.around .two Stitched.function "" [] Cycle.cache
      Stitched.candidates).1 = .resolved "Stitched" := by decide +kernel
  exact ⟨hresolved, accepts_of_chosen Cycle.cache_reached Stitched.around .two Stitched.function ""
    [] Stitched.candidates (congrArg chosen? hresolved)⟩

end PdfConform
