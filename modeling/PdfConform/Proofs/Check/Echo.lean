import PdfConform.Proofs.Check.RunStep

/-! Checks done again. When what a check recorded and looked up is still there, the same check
under another path has nothing left to record, and reports nothing that it did not report before,
paths aside. -/
namespace PdfConform

/-- A finding without the way to the container. -/
def Finding.pathless (f : Finding) : Finding := { f with context := "" }

/-- What a first lookup put into the cache is all that a later lookup finds. -/
theorem Cache.get_again {c c' : Cache} {fs : Files} {link : String}
    (hkept : ∀ entry, (c.get fs link).2.1.find? link = some entry → c'.find? link = some entry)
    (fs' : Files) : c'.get fs' link = ((c.get fs link).1, c', []) := by
  rw [find?_get] at hkept
  cases hfind : c.find? link with
  | some entry =>
    rw [get_of_contains hfind, get_of_contains (hkept entry (by simp [hfind]))]
  | none =>
    have hloaded := hkept (load c.folder fs link).1 (if_pos ⟨rfl, hfind⟩)
    rw [get_of_contains hloaded]
    simp only [get, hfind]

namespace Session

/-- One step leads from `a` to `a'` and another, later, from `b` to `b'`. The other adds nothing
to the queue and the record, and only findings that the one reported in the same order. -/
structure Echo (a a' b b' : Session) : Prop where
  queue : b'.queue = b.queue
  pairs : b'.record.pairs = b.record.pairs
  findings : ∃ found again, a'.findings = a.findings ++ found ∧
    b'.findings = b.findings ++ again ∧
    (again.map Finding.pathless).Sublist (found.map Finding.pathless)

theorem Echo.trans {a₁ a₂ a₃ b₁ b₂ b₃ : Session} (h : Echo a₁ a₂ b₁ b₂) (k : Echo a₂ a₃ b₂ b₃) :
    Echo a₁ a₃ b₁ b₃ := by
  obtain ⟨found, again, hfound, hagain, hsub⟩ := h.findings
  obtain ⟨found', again', hfound', hagain', hsub'⟩ := k.findings
  refine ⟨k.queue.trans h.queue, k.pairs.trans h.pairs, found ++ found', again ++ again',
    ?_, ?_, ?_⟩
  · rw [hfound', hfound, List.append_assoc]
  · rw [hagain', hagain, List.append_assoc]
  · rw [List.map_append, List.map_append]
    exact hsub.append hsub'

/-- A step that reports nothing echoes any other. -/
theorem Echo.silent {a a' b b' : Session} (hgrows : Grows a a') (hqueue : b'.queue = b.queue)
    (hpairs : b'.record.pairs = b.record.pairs) (hfindings : b'.findings = b.findings) :
    Echo a a' b b' := by
  obtain ⟨found, hfound⟩ := hgrows.findings
  exact ⟨hqueue, hpairs, found, [], hfound.symm, by rw [hfindings, List.append_nil], by simp⟩

/-- Whenever `f` was done, `g` only echoes it. -/
structure Settles (f g : Session → Session) : Prop where
  grows (s : Session) : Grows s (f s)
  later (s : Session) : Grows s (g s)
  echo {a b : Session} : Grows (f a) b → Echo a (f a) b (g b)

namespace Settles

variable {f g f' g' : Session → Session}

theorem skip : Settles id id :=
  ⟨.refl, .refl, fun _ => .silent (.refl _) rfl rfl rfl⟩

theorem comp (h : Settles f g) (h' : Settles f' g') :
    Settles (fun s => f' (f s)) (fun s => g' (g s)) where
  grows s := (h.grows s).trans (h'.grows _)
  later s := (h.later s).trans (h'.later _)
  echo {a b} hlater := by
    have hfirst : Grows (f a) b := (h'.grows (f a)).trans hlater
    exact (h.echo hfirst).trans (h'.echo (hlater.trans (h.later b)))

theorem foldl {α : Type} {step step' : Session → α → Session} (items : List α)
    (h : ∀ item ∈ items, Settles (step · item) (step' · item)) :
    Settles (fun s => items.foldl step s) (fun s => items.foldl step' s) := by
  induction items with
  | nil => exact .skip
  | cons item items ih =>
    have hfirst := h item List.mem_cons_self
    exact hfirst.comp (ih fun item hitem => h item (List.mem_cons_of_mem _ hitem))

theorem report {found again : List Finding}
    (h : (again.map Finding.pathless).Sublist (found.map Finding.pathless)) :
    Settles (·.report found) (·.report again) where
  grows s := grows_report s found
  later s := grows_report s again
  echo _ := ⟨rfl, rfl, found, again, rfl, rfl, h⟩

/-- Findings at the same places, but for their paths. -/
theorem reports {found again : List Finding}
    (h : again.map Finding.pathless = found.map Finding.pathless) :
    Settles (·.report found) (·.report again) :=
  .report (h ▸ List.Sublist.refl _)

/-- A pair is queued once only. -/
theorem enqueue (object : Object) (reference : Option ObjectId) (link path path' : String) :
    Settles (·.enqueue object reference link path) (·.enqueue object reference link path') where
  grows s := grows_enqueue s object reference link path
  later s := grows_enqueue s object reference link path'
  echo {a b} hlater := by
    have hrecorded : (Identity.of object reference, link) ∈ b.record.pairs :=
      hlater.pairs.subset (recorded_of_enqueue a object reference link path)
    obtain ⟨hrecord, ⟨hfresh, _⟩ | ⟨_, hqueue, _⟩⟩ :=
      enqueue_cases b object reference link path'
    · exact absurd hrecorded hfresh
    · refine .silent (grows_enqueue a object reference link path) hqueue ?_ ?_
      · rw [hrecord]
        exact (Record.pairs_insert _ _ _).trans (if_pos hrecorded)
      · rw [enqueue_eq]

end Settles

end Session

namespace Resolution

variable {around : Surroundings}

theorem candidate_again {path : String} {before : List Finding} {cache cache' : Cache}
    {link : String}
    (hkept : ∀ entry, (candidate around path before cache link).2.1.find? link = some entry →
      cache'.find? link = some entry) (path' : String) (before' : List Finding) :
    (candidate around path' before' cache' link).1 =
        (candidate around path before cache link).1 ∧
      (candidate around path' before' cache' link).2.1 = cache' ∧
      ((candidate around path' before' cache' link).2.2.map Finding.pathless).Sublist
        ((candidate around path before cache link).2.2.map Finding.pathless) := by
  rw [(candidate_get around path before cache link).2] at hkept
  have hagain := Cache.get_again hkept (around.filesAfter before')
  unfold candidate
  rw [hagain]
  rcases cache.get (around.filesAfter before) link with ⟨_ | table, looked, found⟩
  · exact ⟨rfl, rfl, by simp [Finding.pathless]⟩
  · exact ⟨rfl, rfl, by simp⟩

/-- The fits of the other candidates once the first was looked up. -/
def fitsAfter (around : Surroundings) (version : Version) (object : Object) (path : String)
    (before : List Finding) (cache : Cache) (link : String) (links : List String) :
    List (String × Fit) × Cache × List Finding :=
  fits around version object path (before ++ (candidate around path before cache link).2.2)
    (candidate around path before cache link).2.1 links

theorem fits_cons (version : Version) (object : Object) (path : String) (before : List Finding)
    (cache : Cache) (link : String) (links : List String) :
    fits around version object path before cache (link :: links) =
      (((candidate around path before cache link).1.map fun table =>
          (link, fitOf around.store version object table)).toList ++
          (fitsAfter around version object path before cache link links).1,
        (fitsAfter around version object path before cache link links).2.1,
        (candidate around path before cache link).2.2 ++
          (fitsAfter around version object path before cache link links).2.2) := by
  simp only [fits, fitsAfter]
  split <;> next h => simp [h]

theorem fits_again {version : Version} {object : Object} {path : String} {links : List String}
    {before : List Finding} {cache cache' : Cache}
    (hkept : ∀ link entry,
      (fits around version object path before cache links).2.1.find? link = some entry →
        cache'.find? link = some entry) (path' : String) (before' : List Finding) :
    (fits around version object path' before' cache' links).1 =
        (fits around version object path before cache links).1 ∧
      (fits around version object path' before' cache' links).2.1 = cache' ∧
      ((fits around version object path' before' cache' links).2.2.map Finding.pathless).Sublist
        ((fits around version object path before cache links).2.2.map Finding.pathless) := by
  induction links generalizing before before' cache with
  | nil => exact ⟨rfl, rfl, List.Sublist.refl _⟩
  | cons link links ih =>
    simp only [fits_cons] at hkept ⊢
    obtain ⟨htable, hcache, hfound⟩ := candidate_again
      (fun entry hentry => hkept link entry (find?_fits hentry)) path' before'
    obtain ⟨hfits, hlast, hmore⟩ := ih hkept
      (before' ++ (candidate around path' before' cache' link).2.2)
    have hafter : fitsAfter around version object path' before' cache' link links =
        fits around version object path'
          (before' ++ (candidate around path' before' cache' link).2.2) cache' links := by
      rw [fitsAfter, hcache]
    rw [htable, hafter]
    refine ⟨by rw [hfits]; rfl, hlast, ?_⟩
    rw [List.map_append, List.map_append]
    exact hfound.append hmore

end Resolution

namespace Session

variable {around : Surroundings}

/-- What is said of a choice beside what its candidates give. -/
def verdict (object : Object) (links : List String) (parent label path : String) :
    Resolution → List Finding
  | .resolved _ => []
  | .ambiguous chosen matching => [⟨.ambiguousLink, parent, some label, path,
      "[" ++ String.intercalate "," matching ++ "] all fit, using " ++ chosen⟩]
  | .unresolved => [⟨.unresolvedLink, parent, some label, path,
      "no link in [" ++ String.intercalate "," links ++ "] fits this " ++ object.kind⟩]

theorem pathless_verdict (object : Object) (links : List String) (parent label path path' : String)
    (resolution : Resolution) :
    (verdict object links parent label path' resolution).map Finding.pathless =
      (verdict object links parent label path resolution).map Finding.pathless := by
  cases resolution <;> rfl

theorem chooseLink_eq {links : List String} (hmany : ∀ only, links ≠ [only]) (s : Session)
    (object : Object) (parent label path : String) :
    s.chooseLink around object links parent label path =
      let looked := Resolution.fits around s.version object path s.findings s.cache links
      ((Resolution.ofFits looked.1).chosen?,
        { s with
          cache := looked.2.1
          findings := s.findings ++ (looked.2.2 ++
            verdict object links parent label path (Resolution.ofFits looked.1)) }) := by
  unfold chooseLink
  split
  · next only => exact absurd rfl (hmany only)
  · simp only [Resolution.resolve]
    split <;> next h => simp [h, verdict, Resolution.chosen?, report]

/-- The same link is chosen again. -/
theorem chooseLink_again {a b : Session} {object : Object} {links : List String}
    {parent label path : String}
    (hlater : Grows (a.chooseLink around object links parent label path).2 b) (path' : String) :
    (b.chooseLink around object links parent label path').1 =
        (a.chooseLink around object links parent label path).1 ∧
      Echo a (a.chooseLink around object links parent label path).2 b
        (b.chooseLink around object links parent label path').2 := by
  have hgrows : Grows a (a.chooseLink around object links parent label path).2 :=
    grows_asides (chooseLink_asides a object links parent label path)
  have hversion : b.version = a.version := (hgrows.trans hlater).version
  by_cases hsingle : ∃ only, links = [only]
  · obtain ⟨only, rfl⟩ := hsingle
    exact ⟨rfl, .silent (.refl a) rfl rfl rfl⟩
  · have hmany : ∀ only, links ≠ [only] := fun only h => hsingle ⟨only, h⟩
    rw [chooseLink_eq hmany] at hlater ⊢
    rw [chooseLink_eq hmany, hversion]
    obtain ⟨hfits, _, hfound⟩ := Resolution.fits_again hlater.tables path' b.findings
    dsimp only
    rw [hfits]
    refine ⟨rfl, rfl, rfl, _, _, rfl, rfl, ?_⟩
    rw [List.map_append, List.map_append, pathless_verdict object links parent label path path']
    exact hfound.append (List.Sublist.refl _)

theorem settles_follow (object : Object) (reference : Option ObjectId) (links : List String)
    (parent label path path' : String) :
    Settles (·.follow around object reference links parent label path)
      (·.follow around object reference links parent label path') where
  grows s := grows_follow s object reference links parent label path
  later s := grows_follow s object reference links parent label path'
  echo {a b} hlater := by
    have hlink (link : String) := Settles.enqueue object reference link path path'
    unfold follow at hlater ⊢
    dsimp only at hlater ⊢
    cases hchosen : (a.chooseLink around object links parent label path).1 with
    | none =>
      rw [hchosen] at hlater
      obtain ⟨hsame, hecho⟩ := chooseLink_again hlater path'
      rw [hsame, hchosen]
      exact hecho
    | some link =>
      rw [hchosen] at hlater
      obtain ⟨hsame, hecho⟩ := chooseLink_again (((hlink link).grows _).trans hlater) path'
      have hchoose : Grows b (b.chooseLink around object links parent label path').2 :=
        grows_asides (chooseLink_asides b object links parent label path')
      rw [hsame, hchosen]
      exact hecho.trans ((hlink link).echo (hlater.trans hchoose))

theorem recorded_of_mark (s : Session) (identity : Identity) (link : String) :
    (identity, link) ∈ (s.mark identity link).2.record.pairs :=
  Record.mem_pairs_insert.2 (.inr rfl)

theorem grows_visitNodes (around : Surroundings) (t : Tree) (fuel : Nat) (s : Session)
    (nodes : List TreeNode) : Grows s (visitNodes around t fuel s nodes) := by
  have hsteps : Steps around (fun _ => True) (fun _ => True) s
      (visitNodes around t fuel s nodes) :=
    visitNodes_steps around.store.closed_true trivial fuel s fun _ _ => trivial
  exact hsteps.grows

theorem grows_walkTree (s : Session) (t : Tree) (root : Object) (reference : Option ObjectId)
    (path : String) :
    Grows (s.mark (.of root reference) t.title).2 (s.walkTree around t root reference path) := by
  unfold walkTree
  dsimp only
  split
  · exact grows_visitNodes around t _ _ _
  · exact .refl _

/-- A tree is walked once only. -/
theorem settles_walkTree (t : Tree) (root : Object) (reference : Option ObjectId)
    (path path' : String) :
    Settles (·.walkTree around t root reference path)
      (·.walkTree around t root reference path') where
  grows s := (grows_mark s _ _).trans (grows_walkTree s t root reference path)
  later s := (grows_mark s _ _).trans (grows_walkTree s t root reference path')
  echo {a b} hlater := by
    have hwalk : Grows (a.mark (.of root reference) t.title).2 b :=
      (grows_walkTree a t root reference path).trans hlater
    have hrecorded : (Identity.of root reference, t.title) ∈ b.record.pairs :=
      hwalk.pairs.subset (recorded_of_mark a _ _)
    have hstale : (b.mark (.of root reference) t.title).1 = false := by
      rw [← Bool.not_eq_true]
      exact fun hfresh => Record.fresh_iff.1 hfresh hrecorded
    have hskipped : b.walkTree around t root reference path' =
        (b.mark (.of root reference) t.title).2 := by
      simp [walkTree, hstale]
    rw [hskipped]
    refine .silent ((grows_mark a _ _).trans (grows_walkTree a t root reference path)) rfl ?_ rfl
    exact (Record.pairs_insert _ _ _).trans (if_pos hrecorded)

end Session

namespace Scope

variable (s : Scope) (path : String) (row : Row) (label : String) (value : Option Object)

theorem pathless_entryFindings :
    (entryFindings { s with path } row label value).map Finding.pathless =
      (s.entryFindings row label value).map Finding.pathless := by
  rw [entryFindings_path, List.map_map]
  rfl

end Scope

namespace Session

variable {around : Surroundings} (scope : Scope) (path : String)

theorem settles_descend (label : String) (child : Child) (path' : String) :
    Settles (·.descend around scope label child)
      (·.descend around { scope with path } label { child with path := path' }) := by
  unfold descend
  dsimp only
  cases TreeKind.ofType? child.type with
  | none => exact settles_follow child.object child.reference child.links _ _ _ _
  | some kind => exact settles_walkTree _ child.object child.reference _ _

theorem settles_checkEntry (row : Row) (entry : String × Option Object) :
    Settles (checkEntry around scope row · entry)
      (checkEntry around { scope with path } row · entry) := by
  have hown := Settles.reports (scope.pathless_entryFindings path row entry.1 entry.2)
  unfold checkEntry
  rw [scope.child?_path path row entry.1 entry.2]
  cases scope.child? row entry.1 entry.2 with
  | none => exact hown
  | some child => exact hown.comp (settles_descend scope path entry.1 child _)

theorem settles_checkRow (row : Row) :
    Settles (checkRow around scope · row) (checkRow around { scope with path } · row) :=
  .foldl (scope.entries row) fun entry _ => settles_checkEntry scope path row entry

theorem checkObject_again {a b : Session} {item item' : WorkItem} {table : Table}
    (hlater : Grows (a.checkObject around item table) b) (hobject : item'.object = item.object) :
    Echo a (a.checkObject around item table) b (b.checkObject around item' table) := by
  have hversion : b.version = a.version :=
    ((grows_checkObject around a item table).trans hlater).version
  unfold checkObject at hlater ⊢
  rw [hobject, hversion]
  cases hcontainer : Container.of? item.object with
  | none =>
    rw [hcontainer] at hlater
    refine Settles.echo (f := (·.report [_])) (g := (·.report [_])) (.reports ?_) hlater
    rfl
  | some container =>
    rw [hcontainer] at hlater
    exact (Settles.foldl table.rows fun row _ => settles_checkRow _ item'.path row).echo hlater

theorem grows_pop (s : Session) (rest : List WorkItem) : Grows s { s with queue := rest } :=
  ⟨rfl, List.prefix_refl _, List.prefix_refl _, List.prefix_refl _, fun _ _ h => h⟩

/-- An object that is taken again for the same link is checked again, and that check only echoes
the first. -/
theorem take_again {a a' b : Session} {first second : WorkItem} {rest : List WorkItem}
    (hfirst : take { a with queue := rest } around first = (.ok true, a')) (hlater : Grows a' b)
    (hobject : second.object = first.object) (hlink : second.link = first.link)
    (rest' : List WorkItem) :
    ∃ b', take { b with queue := rest' } around second = (.ok true, b') ∧
      Echo a a' { b with queue := rest' } b' := by
  have htaken := taken_take { a with queue := rest } around first
  rw [hfirst] at htaken
  cases htaken with
  | checked table hfind =>
    have hlooked : Grows a (Session.table { a with queue := rest } around first.link).2 :=
      (grows_pop a rest).trans (grows_table _ _)
    generalize (Session.table { a with queue := rest } around first.link).2 = looked
      at hfind hlooked hlater
    have hcheck := grows_checkObject around (looked.enter first) first table
    have hfound : b.cache.find? second.link = some (.ok table) :=
      hlink ▸ hlater.tables _ _ (hcheck.tables _ _ hfind)
    have htable : Session.table { b with queue := rest' } around second.link =
        (.ok table, { b with queue := rest' }) := by
      simp [Session.table, Cache.get_of_contains hfound, Cache.outcome, Except.mapError]
    refine ⟨(Session.enter { b with queue := rest' } second).checkObject around second table,
      by simp [take, htable], ?_⟩
    have hready : Grows b (Session.enter { b with queue := rest' } second) :=
      (grows_pop b rest').trans (grows_enter _ second)
    obtain ⟨hqueue, hpairs, found, again, hfirst, hagain, hsub⟩ :=
      checkObject_again (hlater.trans hready) hobject
    obtain ⟨before, hbefore⟩ := hlooked.findings
    refine ⟨hqueue, hpairs, before ++ found, again, ?_, hagain, ?_⟩
    · rw [hfirst, ← List.append_assoc, hbefore]
      rfl
    · rw [List.map_append]
      exact hsub.trans (List.sublist_append_right _ _)

end Session

end PdfConform
