import PdfConform.Proofs.Json.Lexeme
import PdfConform.Proofs.Schema.View

/-! What a folder lists and what can be loaded from it. The way from a file to its link name and
the way from a link name to its file lead back to each other, so a sweep over the folder without a
failure has looked up everything that can be loaded. Only a file whose name is its extension is not
listed: it has no extension then, but is what the empty link stands for. -/
namespace PdfConform

namespace Path

/-- The name of a file without its extension, whatever points there are in it. -/
theorem splitExtension_append {stem extension : String} (hstem : stem ≠ "")
    (hextension : '.' ∉ extension.toList) :
    splitExtension (stem ++ "." ++ extension) = (stem, some extension) := by
  have hnames : (stem ++ "." ++ extension).toList.reverse =
      extension.toList.reverse ++ '.' :: stem.toList.reverse := by simp
  have hspan : (extension.toList.reverse ++ '.' :: stem.toList.reverse).span (· != '.') =
      (extension.toList.reverse, '.' :: stem.toList.reverse) := by
    refine span_append ?_ (by simp)
    intro c hc
    simp only [bne_iff_ne]
    rintro rfl
    exact hextension (List.mem_reverse.1 hc)
  unfold splitExtension
  rw [hnames, hspan]
  cases hreverse : stem.toList.reverse with
  | nil => simp_all
  | cons last rest =>
    simp only [← hreverse, List.reverse_reverse, String.ofList_toList]

/-- A path goes by the names of the folder, whether or not that ends in a slash, and then by the
name of the file. -/
theorem names_join {folder name : String} (hfolder : folder ≠ "") (hname : '/' ∉ name.toList) :
    ∃ above, above ≠ [] ∧ names (join folder name) = above ++ [name] ∧
      (names folder = above ∨ names folder = above ++ [""]) := by
  have hempty : folder.isEmpty = false := by simpa using hfolder
  have hhead : name.toList.head? ≠ some '/' := fun hhead => hname (List.mem_of_head? hhead)
  have hlast : name.toList.splitOn '/' = [name.toList] := List.splitOn_eq_singleton hname
  unfold join
  simp only [hempty, hhead, decide_false, Bool.or_self, Bool.false_eq_true, if_false]
  split
  · next hslash =>
    obtain ⟨above, habove⟩ := List.getLast?_eq_some_iff.1 hslash
    refine ⟨(above.splitOn '/').map String.ofList, by simp [List.splitOn_ne_nil], ?_, .inr ?_⟩
    · rw [names, String.toList_append, habove, List.append_assoc, List.singleton_append,
        List.splitOn_append_cons_self, hlast, List.map_append]
      simp
    · rw [names, habove, List.splitOn_append_cons_self, List.map_append]
      simp [List.splitOn]
  · refine ⟨names folder, by simp [names, List.splitOn_ne_nil], ?_, .inl rfl⟩
    have hjoin : (folder ++ "/" ++ name).toList = folder.toList ++ '/' :: name.toList := by simp
    rw [names, hjoin, List.splitOn_append_cons_self, hlast, List.map_append, ← names]
    simp

/-- Where a path starts is told by its first name. -/
theorem exists_start {above : List String} (habove : above ≠ []) :
    ∃ root rest, ∀ path more, names path = above ++ more → start path = (root, rest ++ more) := by
  obtain _ | ⟨first, rest⟩ := above
  · exact absurd rfl habove
  · by_cases hfirst : first = ""
    · refine ⟨["/"], rest, ?_⟩
      intro path more hnames
      rw [start, hnames, hfirst]
      rfl
    · refine ⟨[], first :: rest, ?_⟩
      intro path more hnames
      rw [start, hnames]
      split
      · next heq => exact absurd (List.cons.inj heq).1 hfirst
      · rfl

/-- A name that leads from a folder to a place directly in it. -/
def IsName (name : String) : Prop := '/' ∉ name.toList ∧ name ∉ ["", ".", ".."]

theorem IsName.step {name : String} (h : IsName name) (place : List String) :
    Path.step place name = place ++ [name] := by
  obtain ⟨_, hname⟩ := h
  simp only [List.mem_cons, List.not_mem_nil, or_false, not_or] at hname
  simp [Path.step, hname]

end Path

namespace Files

variable {fs : Files}

theorem walk_append (place names more : List String) :
    fs.walk place (names ++ more) =
      fs.walk place names >>= fun reached => fs.walk reached more := by
  induction names generalizing place with
  | nil => rfl
  | cons name names ih =>
    rw [List.cons_append, walk, walk]
    split
    · rfl
    · rfl
    · exact ih _

/-- An empty name, as after a slash at the end, leads nowhere else. -/
theorem walk_slash {place reached : List String} {names : List String}
    (h : fs.walk place (names ++ [""]) = .ok reached) : fs.walk place names = .ok reached := by
  rw [walk_append] at h
  obtain ⟨middle, hmiddle, h⟩ := ok_of_bind h
  rw [walk] at h
  split at h
  · cases h
  · cases h
  · cases h
    exact hmiddle

theorem locate_eq {path : String} (h : path ≠ "") :
    fs.locate path = fs.walk (Path.start path).1 (Path.start path).2 := by
  simp [locate, h]

/-- A name in a folder is found directly in the place of the folder. -/
theorem locate_join {folder name : String} {place : List String}
    (hlocate : fs.locate folder = .ok place) (hfolder : fs.node? place = some .folder)
    (hname : Path.IsName name) : fs.locate (Path.join folder name) = .ok (place ++ [name]) := by
  have hne : folder ≠ "" := by
    rintro rfl
    cases hlocate
  obtain ⟨above, habove, hjoin, hnames⟩ := Path.names_join hne hname.1
  obtain ⟨root, rest, hstart⟩ := Path.exists_start habove
  have hwalk : fs.walk root rest = .ok place := by
    rw [locate_eq hne] at hlocate
    rcases hnames with hnames | hnames
    · rw [hstart folder [] (by rw [hnames, List.append_nil]), List.append_nil] at hlocate
      exact hlocate
    · rw [hstart folder [""] hnames] at hlocate
      exact walk_slash hlocate
  have hjoined : Path.join folder name ≠ "" := by
    intro hempty
    rw [hempty] at hjoin
    have hlast := congrArg List.getLast? hjoin
    simp only [List.getLast?_concat] at hlast
    exact hname.2 (by simp [← Option.some.inj hlast])
  rw [locate_eq hjoined, hstart _ [name] hjoin, walk_append, hwalk]
  change fs.walk place [name] = _
  rw [walk, hfolder]
  change fs.walk (Path.step place name) [] = _
  rw [hname.step, walk]

theorem read_of_locate {path : String} {place : List String} (h : fs.locate path = .ok place) :
    fs.read path = match fs.node? place with
      | none => .error .notFound
      | some .folder => .error .isDirectory
      | some (.file content) => .ok content := by
  unfold read
  rw [h]
  change (match fs.node? place with
    | none => throw .notFound
    | some .folder => throw .isDirectory
    | some (.file content) => return content : Except IoError ByteArray) = _
  split <;> rfl

/-- What a listing holds: it is one of a folder that is there, and misses no file in it. -/
theorem listed_of_fileNames {path : String} {found : List String}
    (h : fs.fileNames path = .ok found) :
    ∃ place, fs.locate path = .ok place ∧ fs.node? place = some .folder ∧
      ∀ name content, fs.node? (place ++ [name]) = some (.file content) → name ∈ found := by
  unfold fileNames at h
  obtain ⟨place, hlocate, h⟩ := ok_of_bind h
  refine ⟨place, hlocate, ?_⟩
  cases hplace : fs.node? place with
  | none => rw [hplace] at h; cases h
  | some node =>
    rw [hplace] at h
    cases node with
    | file content => cases h
    | folder =>
      refine ⟨rfl, ?_⟩
      cases h
      intro name content hnode
      unfold node? at hnode
      split at hnode
      · next entry hentry =>
        cases hnode
        refine List.mem_filterMap.2 ⟨_, List.mem_of_find?_eq_some hentry, ?_⟩
        have hsame := List.find?_some hentry
        obtain rfl : _ = place ++ [name] := of_decide_eq_true hsame
        simp
      · split at hnode <;> cases hnode

end Files

namespace Folder

/-- There is a file for the link in the folder. -/
def Holds (f : Folder) (fs : Files) (link : String) : Prop :=
  ∃ place content, fs.locate f.path = .ok place ∧
    fs.node? (place ++ [link ++ "." ++ f.extension]) = some (.file content)

variable {f : Folder} {fs : Files} {link : String}

/-- Everything that the folder holds is listed under its link name. -/
theorem mem_links (hextension : '.' ∉ f.extension.toList) {links : List String}
    (hlinks : f.links fs = .ok links) (hlink : link ≠ "") (h : f.Holds fs link) :
    link ∈ links := by
  obtain ⟨place, content, hlocate, hnode⟩ := h
  obtain ⟨found, hfound, hlinks⟩ := ok_of_bind hlinks
  obtain ⟨place', hlocate', _, hlisted⟩ := Files.listed_of_fileNames hfound
  obtain rfl : place' = place := Except.ok.inj (hlocate'.symm.trans hlocate)
  cases hlinks
  rw [List.mem_mergeSort, List.mem_filterMap]
  refine ⟨_, hlisted _ content hnode, ?_⟩
  rw [Path.splitExtension_append hlink hextension]
  simp

/-- What the folder does not hold cannot be loaded, and nothing is reported of that. -/
theorem load_of_not_holds {links : List String} (hlinks : f.links fs = .ok links)
    (hname : Path.IsName (link ++ "." ++ f.extension)) (h : ¬f.Holds fs link) :
    ∃ reason, Cache.load f fs link = (.error reason, []) := by
  obtain ⟨found, hfound, _⟩ := ok_of_bind hlinks
  obtain ⟨place, hlocate, hplace, _⟩ := Files.listed_of_fileNames hfound
  have hread : ∃ e, fs.read (f.pathFor link) = .error e := by
    rw [pathFor, Files.read_of_locate (Files.locate_join hlocate hplace hname)]
    split
    · exact ⟨_, rfl⟩
    · exact ⟨_, rfl⟩
    · next content hnode => exact absurd ⟨place, content, hlocate, hnode⟩ h
  obtain ⟨e, he⟩ := hread
  refine ⟨(LoadError.io e).message, ?_⟩
  have hload : f.loadLink fs link = .error (.io e) := by
    unfold loadLink loadAs Files.readText
    rw [he]
    rfl
  unfold Cache.load
  rw [hload]
  rfl

/-- What the folder holds for the link can be loaded, and nothing is to be reported of it. -/
def Loads (f : Folder) (fs : Files) (link : String) : Prop :=
  f.Holds fs link → ∃ table, Cache.load f fs link = (.ok table, [])

/-- Nothing is to be reported of the link, and it is missing only where the folder does not hold
it. -/
structure Serves (f : Folder) (fs : Files) (link : String) : Prop where
  held : f.Loads fs link
  missing : ¬f.Holds fs link → ∃ reason, Cache.load f fs link = (.error reason, [])

end Folder

/-- A word over the characters of link names, which may be empty. -/
def IsLinkWord (link : String) : Prop := ∀ c ∈ link.toList, Row.isLinkChar c = true

theorem IsLinkWord.isName {link : String} (h : IsLinkWord link) :
    Path.IsName (link ++ "." ++ "tsv") := by
  constructor
  · intro hslash
    simp only [String.toList_append, List.mem_append] at hslash
    rcases hslash with (hslash | hslash) | hslash
    · exact absurd (h '/' hslash) (by decide)
    · exact absurd hslash (by decide)
    · exact absurd hslash (by decide)
  · intro hmem
    have hlength : (link ++ "." ++ "tsv").length ≤ 2 := by
      simp only [List.mem_cons, List.not_mem_nil, or_false] at hmem
      rcases hmem with heq | heq | heq <;> rw [heq] <;> decide
    have htsv : "tsv".length = 3 := rfl
    simp only [String.length_append] at hlength
    omega

namespace Cache

variable {c : Cache} {fs : Files}

theorem found_of_get {link : String} {table : Table} (h : (c.get fs link).1 = .ok table) :
    (c.get fs link).2.2 = [] := by
  unfold get at h ⊢
  split at h
  · rfl
  · exact found_of_load (ok_of_mapError h)

/-- When looking up many links none of which fails, each has its table and nothing is reported. -/
theorem ok_of_getAll {links : List String} (h : (c.getAll fs links).1 = []) :
    (c.getAll fs links).2.2 = [] ∧ ∀ link ∈ links, ∃ table, c.view fs link = .ok table := by
  induction links generalizing c with
  | nil => exact ⟨rfl, nofun⟩
  | cons link links ih =>
    unfold getAll at h ⊢
    cases hget : (c.get fs link).1 with
    | error unavailable => simp [hget] at h
    | ok table =>
      simp only [hget] at h
      obtain ⟨hfound, hviews⟩ := ih h
      rw [view_get] at hviews
      have hview : c.view fs link = .ok table := ok_of_mapError ((get_eq_view c fs link) ▸ hget)
      refine ⟨?_, List.forall_mem_cons.2 ⟨⟨table, hview⟩, hviews⟩⟩
      dsimp only
      rw [found_of_get hget, hfound, List.append_nil]

/-- A sweep that nothing fails in reports nothing. Then the folder serves every link name, and the
empty link as far as that can be loaded, which the sweep does not look at. -/
theorem serves_of_loadAll {path : String} {c : Cache} {found : List Finding}
    (h : (ofFolder (.of path)).loadAll fs = .ok ([], c, found)) :
    found = [] ∧ ∀ link, IsLinkWord link → (link = "" → (Folder.of path).Loads fs "") →
      (Folder.of path).Serves fs link := by
  obtain ⟨links, hlinks, hall⟩ := loadAll_eq_ok_iff.1 h
  have hnone : ((ofFolder (.of path)).getAll fs links).1 = [] := by rw [hall]
  obtain ⟨hfound, hviews⟩ := ok_of_getAll hnone
  have hextension : '.' ∉ (Folder.of path).extension.toList := by
    change '.' ∉ "tsv".toList
    decide
  refine ⟨by rw [← hfound, hall], fun link hlink hempty => ⟨fun hholds => ?_, ?_⟩⟩
  · by_cases hne : link = ""
    · subst hne
      exact hempty rfl hholds
    · obtain ⟨table, hview⟩ := hviews link (Folder.mem_links hextension hlinks hne hholds)
      have hload : (load (.of path) fs link).1 = .ok table := hview
      exact ⟨table, Prod.ext hload (found_of_load hload)⟩
  · exact Folder.load_of_not_holds hlinks hlink.isName

end Cache

end PdfConform
