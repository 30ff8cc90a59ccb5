import PdfConform.Proofs.Schema.WellFormed

/-! What a cache stands for while the files stay as they are: a lookup gives for each link what
the first lookup gave or would give, so no lookup changes what later ones give. -/
namespace PdfConform

namespace Cache

/-- What looking up each link gives while these files stay. -/
def view (c : Cache) (fs : Files) (link : String) : Except String Table :=
  (c.find? link).getD (load c.folder fs link).1

theorem get_eq_view (c : Cache) (fs : Files) (link : String) :
    (c.get fs link).1 = outcome link (c.view fs link) := by
  unfold get view
  split
  · next entry hfind => rw [hfind, Option.getD_some]
  · next hfind => rw [hfind, Option.getD_none]

theorem view_get (c : Cache) (fs : Files) (link : String) :
    (c.get fs link).2.1.view fs = c.view fs := by
  funext other
  unfold view
  rw [find?_get, folder_get]
  split
  · next hfirst =>
    obtain ⟨rfl, hnone⟩ := hfirst
    rw [hnone, Option.getD_some, Option.getD_none]
  · rfl

theorem view_getAll (c : Cache) (fs : Files) (links : List String) :
    (c.getAll fs links).2.1.view fs = c.view fs := by
  induction links generalizing c with
  | nil => rfl
  | cons link links ih => exact (ih _).trans (view_get c fs link)

/-- A sweep is the lookup of every link that the folder lists. -/
theorem loadAll_eq_ok_iff {c : Cache} {fs : Files} {swept : List String × Cache × List Finding} :
    c.loadAll fs = .ok swept ↔
      ∃ links, c.folder.links fs = .ok links ∧ c.getAll fs links = swept := by
  constructor
  · intro h
    obtain ⟨links, hlinks, hall⟩ := ok_of_bind h
    exact ⟨links, hlinks, Except.ok.inj hall⟩
  · rintro ⟨links, hlinks, rfl⟩
    rw [loadAll, hlinks]
    rfl

/-- The caches that lookups, one by one or of the whole folder, make out of an empty one while
the files stay. -/
inductive Warmed (folder : Folder) (fs : Files) : Cache → Prop
  | empty : Warmed folder fs (ofFolder folder)
  | get {c : Cache} (link : String) : Warmed folder fs c → Warmed folder fs (c.get fs link).2.1
  | loadAll {c c' : Cache} {failed : List String} {found : List Finding} :
    Warmed folder fs c → c.loadAll fs = .ok (failed, c', found) → Warmed folder fs c'

theorem Warmed.view_eq {folder : Folder} {fs : Files} {c : Cache} (h : Warmed folder fs c) :
    c.view fs = (ofFolder folder).view fs := by
  induction h with
  | empty => rfl
  | get link _ ih => exact (view_get _ fs link).trans ih
  | @loadAll c c' _ _ _ hload ih =>
    obtain ⟨links, _, hall⟩ := loadAll_eq_ok_iff.1 hload
    have hcache : (c.getAll fs links).2.1 = c' := congrArg (·.2.1) hall
    rw [← hcache, view_getAll]
    exact ih

theorem Reached.getAll {folder : Folder} {c : Cache} (h : Reached folder c) (fs : Files)
    (links : List String) : Reached folder (c.getAll fs links).2.1 := by
  induction links generalizing c with
  | nil => exact h
  | cons link links ih => exact ih (h.get fs link)

theorem Warmed.reached {folder : Folder} {fs : Files} {c : Cache} (h : Warmed folder fs c) :
    Reached folder c := by
  induction h with
  | empty => exact .empty
  | get link _ ih => exact ih.get fs link
  | @loadAll c c' _ _ _ hload ih =>
    obtain ⟨links, _, hall⟩ := loadAll_eq_ok_iff.1 hload
    have hcache : (c.getAll fs links).2.1 = c' := congrArg (·.2.1) hall
    exact hcache ▸ ih.getAll fs links

/-- What a lookup reports is wrong with the grammar, never with a document. -/
theorem isGrammarDefect_of_mem_load {folder : Folder} {fs : Files} {link : String} {f : Finding}
    (h : f ∈ (load folder fs link).2) : f.kind.isGrammarDefect = true := by
  have hheader (t : Table) (h : f ∈ t.headerFindings) : f.kind.isGrammarDefect = true := by
    obtain ⟨column, _, hcolumn⟩ := List.mem_filterMap.1 h
    dsimp only at hcolumn
    split at hcolumn
    · cases hcolumn
    · cases hcolumn; rfl
  have hline (t : Table) (h : f ∈ t.lineFindings) : f.kind.isGrammarDefect = true := by
    obtain ⟨line, hmem, rfl⟩ := List.mem_map.1 h
    rw [List.mem_mergeSort, List.mem_append, List.mem_map, List.mem_flatMap] at hmem
    rcases hmem with ⟨defect, _, rfl⟩ | ⟨row, _, hmem⟩
    · rfl
    · obtain ⟨type, _, htype⟩ := List.mem_filterMap.1 hmem
      cases type <;> cases htype
      rfl
  rw [load_eq] at h
  split at h
  · next table _ =>
    split at h
    · cases h
    · dsimp only at h
      unfold Table.findings at h
      split at h
      · rw [List.mem_singleton.1 h]; rfl
      · exact (List.mem_append.1 h).elim (hheader table) (hline table)
  · next e _ =>
    cases e with
    | io error => cases h
    | header fault => rw [List.mem_singleton.1 h]; rfl

theorem isGrammarDefect_of_mem_get {c : Cache} {fs : Files} {link : String} {f : Finding}
    (h : f ∈ (c.get fs link).2.2) : f.kind.isGrammarDefect = true := by
  unfold get at h
  split at h
  · cases h
  · exact isGrammarDefect_of_mem_load h

theorem kind_ne_of_mem_get {c : Cache} {fs : Files} {link : String} {f : Finding}
    {kind : Finding.Kind} (hkind : kind.isGrammarDefect = false) (h : f ∈ (c.get fs link).2.2) :
    f.kind ≠ kind := by
  rintro rfl
  rw [isGrammarDefect_of_mem_get h] at hkind
  cases hkind

/-- The tables of a reached cache, and those it would still load, have well-formed rows. -/
theorem Reached.wellFormed_view {folder : Folder} {c : Cache} (h : Reached folder c) {fs : Files}
    {link : String} {table : Table} (hview : c.view fs link = .ok table) :
    ∀ row ∈ table.rows, row.WellFormed := by
  unfold view at hview
  cases hfind : c.find? link with
  | some entry =>
    rw [hfind, Option.getD_some] at hview
    exact h.wellFormed link table (hfind.trans (congrArg _ hview))
  | none =>
    rw [hfind, Option.getD_none] at hview
    exact wellFormed_of_load hview

end Cache

end PdfConform
