import PdfConform.Schema.Cache

/-! Which tables come out of lookups: each of their rows was read from a line and found
in order, whatever the files held. -/
namespace PdfConform

theorem ok_of_bind {ε α β : Type} {x : Except ε α} {f : α → Except ε β} {b : β}
    (h : x >>= f = .ok b) : ∃ a, x = .ok a ∧ f a = .ok b := by
  cases x with
  | error e => cases h
  | ok a => exact ⟨a, rfl, h⟩

theorem ok_of_map {ε α β : Type} {x : Except ε α} {f : α → β} {b : β} (h : x.map f = .ok b) :
    ∃ a, x = .ok a ∧ f a = b := by
  cases x with
  | error e => cases h
  | ok a => exact ⟨a, rfl, Except.ok.inj h⟩

theorem ok_of_mapError {ε ζ α : Type} {x : Except ε α} {f : ε → ζ} {a : α}
    (h : x.mapError f = .ok a) : x = .ok a := by
  cases x with
  | error e => cases h
  | ok b => exact congrArg _ (Except.ok.inj h)

theorem ok_of_toOption {ε α : Type} {x : Except ε α} {a : α} (h : x.toOption = some a) :
    x = .ok a := by
  cases x with
  | error e => cases h
  | ok b => exact congrArg _ (Option.some.inj h)

theorem map_of_mapM {ε α β : Type} {f : α → Except ε β} {xs : List α} {ys : List β}
    (h : xs.mapM f = .ok ys) : xs.map f = ys.map .ok := by
  induction xs generalizing ys with
  | nil => cases h; rfl
  | cons x xs ih =>
    rw [List.mapM_cons] at h
    obtain ⟨y, hy, h⟩ := ok_of_bind h
    obtain ⟨rest, hrest, h⟩ := ok_of_bind h
    cases h
    rw [List.map_cons, hy, ih hrest, List.map_cons]

theorem length_of_mapM {ε α β : Type} {f : α → Except ε β} {xs : List α} {ys : List β}
    (h : xs.mapM f = .ok ys) : ys.length = xs.length := by
  simpa using (congrArg List.length (map_of_mapM h)).symm

theorem exists_of_mem_mapM {ε α β : Type} {f : α → Except ε β} {xs : List α} {ys : List β}
    (h : xs.mapM f = .ok ys) {y : β} (hy : y ∈ ys) : ∃ x ∈ xs, f x = .ok y := by
  have hmem : Except.ok y ∈ xs.map f := map_of_mapM h ▸ List.mem_map_of_mem hy
  exact List.mem_map.1 hmem

/-- A word over letters, digits and two marks. -/
def IsLinkName (link : String) : Prop := link ≠ "" ∧ ∀ c ∈ link.toList, Row.isLinkChar c = true

/-- What a line has to keep to in order to be a row. -/
structure Row.WellFormed (row : Row) : Prop where
  types : row.types ≠ []
  versions (since deprecated : Version) :
    row.since = some since → row.deprecated = some deprecated → since < deprecated
  possible : row.possible.length = row.types.length
  links : row.links.length = row.types.length
  names : ∀ links ∈ row.links, ∀ link ∈ links, IsLinkName link

namespace Row

theorem isLinkName_of_linkName {cs : List Char} {link : String} (hne : cs ≠ [])
    (h : linkName cs = .ok link) : IsLinkName link := by
  unfold linkName at h
  split at h
  · next hchars =>
    cases h
    simp only [List.all_eq_true] at hchars
    simpa [IsLinkName, hne] using hchars
  · cases h

theorem isLinkName_of_parseLinks {segment : String} {links : List String}
    (h : parseLinks segment = .ok links) : ∀ link ∈ links, IsLinkName link := by
  have hnames : ∃ inner : List Char, (((inner.splitOn ',').map Text.trim).filter
      fun name => !name.isEmpty).mapM linkName = .ok links := by
    unfold parseLinks at h
    dsimp only at h
    split at h
    · split at h
      · exact ⟨_, h⟩
      · cases h
    · exact ⟨_, h⟩
  obtain ⟨inner, hnames⟩ := hnames
  intro link hlink
  obtain ⟨name, hname, hread⟩ := exists_of_mem_mapM hnames hlink
  exact isLinkName_of_linkName (by simpa using (List.mem_filter.1 hname).2) hread

theorem lt_of_checkVersions {since deprecated : Version}
    (h : checkVersions (some since) (some deprecated) = .ok ()) : since < deprecated := by
  unfold checkVersions at h
  dsimp only at h
  split at h
  · cases h
  · next hle => exact Version.not_le.1 hle

/-- A column of a line without the blanks around it. -/
def column (fields : List String) (n : Nat) : String := Text.trimmed (fields.getD n "")

/-- What each column of a line was read as. -/
structure ReadFrom (row : Row) (fields : List String) : Prop where
  key : row.key = .parse (column fields 0)
  types : row.types = TypeToken.parseColumn (column fields 1)
  types_ne_nil : row.types ≠ []
  since : Version.parseOptional (column fields 2) = .ok row.since
  deprecated : Version.parseOptional (column fields 3) = .ok row.deprecated
  versions : checkVersions row.since row.deprecated = .ok ()
  required : Predicate.parse (column fields 4) = .ok row.required
  indirect : Predicate.parse (column fields 5) = .ok row.indirect
  requiredValue : parseRequiredValue (column fields 6) = .ok row.requiredValue
  possible : ∃ segments,
    splitAligned "possible value" row.types.length (column fields 8) = .ok segments ∧
      segments.mapM (fun segment => (PossibleValues.parse segment).mapError .expression) =
        Except.ok (ε := Fault) row.possible
  links : ∃ segments, splitAligned "link" row.types.length (column fields 10) = .ok segments ∧
    segments.mapM parseLinks = .ok row.links

theorem readFrom_of_ofFields {line : Nat} {fields : List String} {row : Row}
    (h : ofFields line fields = .ok row) : row.ReadFrom fields := by
  unfold ofFields at h
  split at h
  · next key type since deprecated required indirect requiredValue default possible special link
      rest hcolumns =>
    have hcolumn (n : Nat) (text : String) (hn : (fields.map Text.trimmed)[n]? = some text) :
        column fields n = text := by
      rw [List.getElem?_map] at hn
      obtain ⟨field, hfield, rfl⟩ := Option.map_eq_some_iff.1 hn
      rw [column, List.getD_eq_getElem?_getD, hfield, Option.getD_some]
    rw [hcolumns] at hcolumn
    dsimp only at h
    split at h
    · cases h
    · next htypes =>
      obtain ⟨since, hsince, h⟩ := ok_of_bind h
      obtain ⟨deprecated, hdeprecated, h⟩ := ok_of_bind h
      obtain ⟨_, hversions, h⟩ := ok_of_bind h
      obtain ⟨required, hrequired, h⟩ := ok_of_bind h
      obtain ⟨indirect, hindirect, h⟩ := ok_of_bind h
      obtain ⟨requiredValue, hvalue, h⟩ := ok_of_bind h
      obtain ⟨values, hvalues, h⟩ := ok_of_bind h
      obtain ⟨possible, hpossible, h⟩ := ok_of_bind h
      obtain ⟨segments, hsegments, h⟩ := ok_of_bind h
      obtain ⟨links, hlinks, h⟩ := ok_of_bind h
      cases h
      constructor
      · rw [hcolumn 0 _ rfl]
      · rw [hcolumn 1 _ rfl]
      · simpa using htypes
      · rw [hcolumn 2 _ rfl, ok_of_mapError hsince]
      · rw [hcolumn 3 _ rfl, ok_of_mapError hdeprecated]
      · exact hversions
      · rw [hcolumn 4 _ rfl, ok_of_mapError hrequired]
      · rw [hcolumn 5 _ rfl, ok_of_mapError hindirect]
      · rw [hcolumn 6 _ rfl, hvalue]
      · rw [hcolumn 8 _ rfl]
        exact ⟨values, hvalues, hpossible⟩
      · rw [hcolumn 10 _ rfl]
        exact ⟨segments, hsegments, hlinks⟩
  · cases h

theorem ReadFrom.wellFormed {row : Row} {fields : List String} (h : row.ReadFrom fields) :
    row.WellFormed := by
  obtain ⟨values, hvalues, hpossible⟩ := h.possible
  obtain ⟨segments, hsegments, hlinks⟩ := h.links
  refine ⟨h.types_ne_nil, ?_, ?_, ?_, ?_⟩
  · intro since deprecated hsince hdeprecated
    have hversions := h.versions
    rw [hsince, hdeprecated] at hversions
    exact lt_of_checkVersions hversions
  · rw [length_of_mapM hpossible, length_of_splitAligned hvalues]
  · rw [length_of_mapM hlinks, length_of_splitAligned hsegments]
  · intro set hset
    obtain ⟨segment, _, hread⟩ := exists_of_mem_mapM hlinks hset
    exact isLinkName_of_parseLinks hread

end Row

/-- The caches that lookups make out of an empty one. -/
inductive Cache.Reached (folder : Folder) : Cache → Prop
  | empty : Reached folder (ofFolder folder)
  | get {c : Cache} (fs : Files) (link : String) :
    Reached folder c → Reached folder (c.get fs link).2.1

namespace Table

theorem readFrom_of_parse {delimiter : Char} {link source text : String} {table : Table}
    (h : parse delimiter link source text = .ok table) :
    ∀ row ∈ table.rows, ∃ fields, row.ReadFrom fields := by
  unfold parse at h
  split at h
  · cases h; simp
  · split at h
    · cases h
    · next header body _ _ =>
      cases h
      intro row hrow
      obtain ⟨result, hresult, hrow⟩ := List.mem_filterMap.1 hrow
      obtain ⟨line, _, rfl⟩ := List.mem_map.1 hresult
      have hread : readLine line = .ok row := ok_of_toOption hrow
      exact ⟨line.2, Row.readFrom_of_ofFields (ok_of_mapError hread)⟩

end Table

namespace Cache

/-- A first lookup loads the table and keeps what comes of it. -/
theorem get_of_none {c : Cache} {link : String} (h : c.find? link = none) (fs : Files) :
    c.get fs link = (outcome link (load c.folder fs link).1,
      { c with entries := c.entries ++ [(link, (load c.folder fs link).1)] },
      (load c.folder fs link).2) := by
  simp [get, h]

/-- The first table that is looked up at all. -/
theorem get_ofFolder {folder : Folder} {fs : Files} {link : String} {table : Table}
    (h : load folder fs link = (.ok table, [])) :
    (ofFolder folder).get fs link = (.ok table, ⟨folder, [(link, .ok table)]⟩, []) := by
  have hload : load (ofFolder folder).folder fs link = (.ok table, []) := h
  rw [get_of_none rfl, hload]
  rfl

/-- A cache with one table, which was looked up before. -/
theorem Reached.ofLoad {folder : Folder} {fs : Files} {link : String} {table : Table}
    (h : load folder fs link = (.ok table, [])) : Reached folder ⟨folder, [(link, .ok table)]⟩ := by
  have hget := Reached.get fs link (.empty : Reached folder (ofFolder folder))
  rwa [get_ofFolder h] at hget

theorem find?_of_get {c : Cache} {fs : Files} {link : String} {table : Table}
    (h : (c.get fs link).1 = .ok table) : (c.get fs link).2.1.find? link = some (.ok table) := by
  rw [find?_get]
  unfold get at h
  split at h
  · next entry hfind => rw [if_neg (by simp [hfind]), hfind, ok_of_mapError h]
  · next hfind => rw [if_pos ⟨rfl, hfind⟩, ok_of_mapError h]

/-- A table that has any defect is not loaded. -/
theorem found_of_load {folder : Folder} {fs : Files} {link : String} {table : Table}
    (h : (load folder fs link).1 = .ok table) : (load folder fs link).2 = [] := by
  rw [load_eq] at h ⊢
  split at h
  · split at h
    · next hclean => rw [if_pos hclean]
    · cases h
  · cases h

theorem readFrom_of_load {folder : Folder} {fs : Files} {link : String} {table : Table}
    (h : (load folder fs link).1 = .ok table) :
    ∀ row ∈ table.rows, ∃ fields, row.ReadFrom fields := by
  rw [load_eq] at h
  split at h
  · next found hfound =>
    split at h
    · cases h
      unfold Folder.loadLink Folder.loadAs at hfound
      obtain ⟨text, _, hparse⟩ := ok_of_bind hfound
      exact Table.readFrom_of_parse (ok_of_mapError hparse)
    · cases h
  · cases h

theorem wellFormed_of_load {folder : Folder} {fs : Files} {link : String} {table : Table}
    (h : (load folder fs link).1 = .ok table) : ∀ row ∈ table.rows, row.WellFormed := by
  intro row hrow
  obtain ⟨fields, hread⟩ := readFrom_of_load h row hrow
  exact hread.wellFormed

/-- Every table of a cache holds well-formed rows only. -/
def WellFormed (c : Cache) : Prop :=
  ∀ link table, c.find? link = some (.ok table) → ∀ row ∈ table.rows, row.WellFormed

theorem wellFormed_get {c : Cache} (h : c.WellFormed) (fs : Files) (link : String) :
    (c.get fs link).2.1.WellFormed := by
  intro other table hfind
  rw [find?_get] at hfind
  split at hfind
  · exact wellFormed_of_load (Option.some.inj hfind)
  · exact h other table hfind

theorem Reached.wellFormed {folder : Folder} {c : Cache} (h : Reached folder c) : c.WellFormed := by
  induction h with
  | empty => intro link table hfind; simp [ofFolder, find?] at hfind
  | get fs link _ ih => exact wellFormed_get ih fs link

theorem Reached.readFrom {folder : Folder} {c : Cache} (h : Reached folder c) {link : String}
    {table : Table} (hfind : c.find? link = some (.ok table)) :
    ∀ row ∈ table.rows, ∃ fields, row.ReadFrom fields := by
  induction h with
  | empty => simp [ofFolder, find?] at hfind
  | get fs other _ ih =>
    rw [find?_get] at hfind
    split at hfind
    · exact readFrom_of_load (Option.some.inj hfind)
    · exact ih hfind

end Cache

end PdfConform
