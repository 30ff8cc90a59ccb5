import Mathlib.Algebra.Order.BigOperators.Group.List
import Mathlib.Algebra.Order.Group.Nat
import Mathlib.Data.Set.Finite.List
import PdfConform.Proofs.Check.RunStep
import PdfConform.Proofs.Schema.View

/-! The names under which objects can be recorded because of what tables declare. -/
namespace PdfConform

/-- Names without commas can be told from how they are written one after another. -/
theorem intercalate_inj {links links' : List String} (h : ∀ link ∈ links, IsLinkName link)
    (h' : ∀ link ∈ links', IsLinkName link)
    (heq : [','].intercalate (links.map String.toList) =
      [','].intercalate (links'.map String.toList)) : links = links' := by
  have hsplit {names : List String} (hnames : ∀ link ∈ names, IsLinkName link) (hne : names ≠ []) :
      ([','].intercalate (names.map String.toList)).splitOn ',' = names.map String.toList := by
    refine List.splitOn_intercalate ',' ?_ (by simpa using hne)
    intro cs hcs hmem
    obtain ⟨link, hlink, rfl⟩ := List.mem_map.1 hcs
    exact absurd ((hnames link hlink).2 ',' hmem) (by decide)
  have hempty {names : List String} (hnames : ∀ link ∈ names, IsLinkName link)
      (hnil : [','].intercalate (names.map String.toList) = []) : names = [] := by
    by_contra hne
    have hblank : [] ∈ names.map String.toList := by
      rw [← hsplit hnames hne, hnil]
      simp
    obtain ⟨link, hlink, hchars⟩ := List.mem_map.1 hblank
    exact (hnames link hlink).1 (String.toList_inj.1 hchars)
  by_cases hnil : links = []
  · subst hnil
    exact (hempty h' heq.symm).symm
  · have hnil' : links' ≠ [] := by
      rintro rfl
      exact hnil (hempty h heq)
    have hwords : links.map String.toList = links'.map String.toList := by
      rw [← hsplit h hnil, ← hsplit h' hnil', heq]
    exact List.map_injective_iff.2 (fun _ _ => String.toList_inj.1) hwords

/-- Trees whose links are names have different titles. -/
theorem Tree.title_inj {t t' : Tree} (h : ∀ link ∈ t.links, IsLinkName link)
    (h' : ∀ link ∈ t'.links, IsLinkName link) (heq : t.title = t'.title) : t = t' := by
  obtain ⟨kind, links⟩ := t
  obtain ⟨kind', links'⟩ := t'
  have hchars := congrArg String.toList heq
  simp only [title, String.toList_append] at hchars
  cases kind <;> cases kind' <;> simp [TreeKind.title] at hchars
  all_goals
    have hlinks : links = links' := intercalate_inj h h' hchars
    rw [hlinks]

/-- The trees that a row describes. -/
def Row.trees (r : Row) : List Tree :=
  (r.types.zip r.links).filterMap fun (type, links) =>
    if links = [] then none else (type.known?.bind TreeKind.ofType?).map (⟨·, links⟩)

namespace Table

/-- The links that a table declares, and the titles of its trees. -/
def names (t : Table) : List String :=
  t.rows.flatMap fun r => r.links.flatten ++ r.trees.map Tree.title

theorem length_names (t : Table) : t.names.length ≤ t.linkCount := by
  rw [names, List.length_flatMap, linkCount]
  refine List.sum_le_sum fun r _ => ?_
  have htrees : r.trees.length ≤ r.links.length :=
    Nat.le_trans (List.length_filterMap_le _ _) (List.length_zip ▸ Nat.min_le_right _ _)
  have hlinks : (r.links.map fun links => links.length + 1).sum =
      r.links.flatten.length + r.links.length := by
    rw [List.sum_map_add, List.length_flatten, List.map_const', List.sum_replicate_nat, Nat.mul_one]
  rw [hlinks, List.length_append, List.length_map]
  exact Nat.add_le_add_left htrees _

theorem Declares.mem_names {t : Table} {links : List String} (h : t.Declares links) {link : String}
    (hlink : link ∈ links) : link ∈ t.names := by
  obtain ⟨row, hrow, hlinks⟩ := h
  refine List.mem_flatMap.2 ⟨row, hrow, List.mem_append_left _ ?_⟩
  exact List.mem_flatten.2 ⟨links, hlinks, hlink⟩

theorem Plants.title_mem_names {t : Table} {tree : Tree} (h : t.Plants tree) :
    tree.title ∈ t.names := by
  obtain ⟨row, hrow, index, type, htype, hkind, hlinks, hne⟩ := h
  have hrowLinks : row.links[index]? = some (row.linksFor index) := by
    unfold Row.linksFor at hne ⊢
    cases hentry : row.links[index]? with
    | none => simp [hentry] at hne
    | some links => rfl
  have hzip : (.known type, row.linksFor index) ∈ row.types.zip row.links :=
    List.mem_of_getElem? (List.getElem?_zip_eq_some.2 ⟨htype, hrowLinks⟩)
  have htree : tree ∈ row.trees := by
    refine List.mem_filterMap.2 ⟨_, hzip, ?_⟩
    have hknown : (TypeToken.known type).known? = some type := rfl
    rw [← hlinks] at hne ⊢
    simp only [if_neg hne, hknown, Option.bind_some, hkind, Option.map_some]
  exact List.mem_flatMap.2 ⟨row, hrow, List.mem_append_right _ (List.mem_map_of_mem htree)⟩

theorem rows_parse {delimiter : Char} {link source text : String} {table : Table}
    (h : parse delimiter link source text = .ok table) (link' source' : String) :
    ∃ table', parse delimiter link' source' text = .ok table' ∧ table'.rows = table.rows := by
  unfold parse at h ⊢
  split at h
  · cases h
    exact ⟨_, rfl, rfl⟩
  · split at h
    · cases h
    · next hcolumns =>
      cases h
      exact ⟨_, if_neg hcolumns, rfl⟩

end Table

theorem Files.mem_of_read {fs : Files} {path : String} {content : ByteArray}
    (h : fs.read path = .ok content) : ∃ place, (place, .file content) ∈ fs.nodes := by
  unfold read at h
  obtain ⟨place, _, h⟩ := ok_of_bind h
  split at h
  · cases h
  · cases h
  · next found hnode =>
    cases h
    unfold node? at hnode
    split at hnode
    · next at' node hfind =>
      cases hnode
      exact ⟨_, List.mem_of_find?_eq_some hfind⟩
    · split at hnode <;> cases hnode

namespace Cache

/-- What a lookup can give is among the tables that count for the length of a run. -/
theorem rows_of_view {c : Cache} {fs : Files} {link : String} {table : Table}
    (h : c.view fs link = .ok table) : ∃ table' ∈ c.reachable fs, table'.rows = table.rows := by
  unfold view at h
  unfold reachable
  cases hfind : c.find? link with
  | some entry =>
    rw [hfind, Option.getD_some] at h
    obtain ⟨found, hfound, rfl⟩ := Option.map_eq_some_iff.1 hfind
    refine ⟨table, List.mem_append_left _ (List.mem_filterMap.2 ?_), rfl⟩
    exact ⟨found, List.mem_of_find?_eq_some hfound, by rw [h]; rfl⟩
  | none =>
    rw [hfind, Option.getD_none] at h
    rw [load_eq] at h
    split at h
    · next loaded hloaded =>
      split at h
      · cases h
        unfold Folder.loadLink Folder.loadAs at hloaded
        obtain ⟨text, htext, hparse⟩ := ok_of_bind hloaded
        have htext := ok_of_mapError htext
        unfold Files.readText at htext
        obtain ⟨content, hcontent, htext⟩ := ok_of_bind htext
        obtain ⟨place, hplace⟩ := Files.mem_of_read hcontent
        split at htext
        · next read hread =>
          cases htext
          obtain ⟨table', hparse', hrows⟩ := Table.rows_parse (ok_of_mapError hparse) "" ""
          refine ⟨table', List.mem_append_right _ (List.mem_filterMap.2 ⟨_, hplace, ?_⟩), hrows⟩
          simp only [hread, Option.bind_some, hparse']
          rfl
        · cases htext
      · cases h
    · cases h

/-- All names that tables can declare which a lookup gives. -/
def allNames (c : Cache) (fs : Files) : List String := (c.reachable fs).flatMap Table.names

theorem mem_allNames {c : Cache} {fs : Files} {link name : String} {table : Table}
    (h : c.view fs link = .ok table) (hname : name ∈ table.names) : name ∈ c.allNames fs := by
  obtain ⟨table', htable', hrows⟩ := rows_of_view h
  refine List.mem_flatMap.2 ⟨table', htable', ?_⟩
  unfold Table.names at hname ⊢
  rw [hrows]
  exact hname

theorem length_allNames (c : Cache) (fs : Files) :
    (c.allNames fs).length ≤ ((c.reachable fs).map Table.linkCount).sum := by
  rw [allNames, List.length_flatMap]
  exact List.sum_le_sum fun table _ => table.length_names

/-- The names that rows declare in the tables of these links and of whatever a row can name. -/
def declared (c : Cache) (fs : Files) (links : List String) : Set String :=
  {name | ∃ link table, (link ∈ links ∨ IsLinkName link) ∧ c.view fs link = .ok table ∧
    name ∈ table.names}

theorem finite_declared (c : Cache) (fs : Files) (links : List String) :
    (c.declared fs links).Finite := by
  refine (List.finite_toSet (c.allNames fs)).subset ?_
  rintro name ⟨link, table, _, hview, hname⟩
  exact mem_allNames hview hname

end Cache

end PdfConform
