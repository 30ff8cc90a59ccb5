import PdfConform.Proofs.Check.Step
import PdfConform.Proofs.Schema.View

/-! Which link is chosen for a container. Over unchanged files that is decided by the tables
alone, whenever they are loaded. -/
namespace PdfConform

namespace Resolution

/-- The fit of every candidate that has a table. -/
def fitting (view : String → Except String Table) (store : Store) (version : Version)
    (object : Object) (links : List String) : List (String × Fit) :=
  links.filterMap fun link =>
    (view link).toOption.map fun table => (link, fitOf store version object table)

/-- The link for a container, given what lookups of its candidates give. -/
def choice (view : String → Except String Table) (store : Store) (version : Version)
    (object : Object) : List String → Option String
  | [only] => some only
  | links => (ofFits (fitting view store version object links)).chosen?

variable {fs : Files} {store : Store}

theorem candidate_still (fs : Files) (store : Store) (path : String) (before : List Finding)
    (cache : Cache) (link : String) :
    (candidate (.still fs store) path before cache link).1 = (cache.view fs link).toOption ∧
      (candidate (.still fs store) path before cache link).2.1.view fs = cache.view fs := by
  have hresult := Cache.get_eq_view cache fs link
  have hview := Cache.view_get cache fs link
  unfold candidate
  rw [show (Surroundings.still fs store).filesAfter before = fs from rfl]
  rcases hget : cache.get fs link with ⟨result, cache', found⟩
  rw [hget] at hresult hview
  cases hentry : cache.view fs link with
  | ok table =>
    rw [hentry] at hresult
    obtain rfl : result = .ok table := hresult
    exact ⟨rfl, hview⟩
  | error reason =>
    rw [hentry] at hresult
    obtain rfl : result = .error ⟨link, reason⟩ := hresult
    exact ⟨rfl, hview⟩

theorem fits_still (version : Version) (object : Object) (path : String) (links : List String)
    (before : List Finding) (cache : Cache) :
    (fits (.still fs store) version object path before cache links).1 =
      fitting (cache.view fs) store version object links := by
  induction links generalizing before cache with
  | nil => rfl
  | cons link links ih =>
    obtain ⟨htable, hview⟩ := candidate_still fs store path before cache link
    simp only [fits]
    generalize candidate (.still fs store) path before cache link = looked at htable hview
    obtain ⟨table, cache', found⟩ := looked
    obtain rfl : table = (cache.view fs link).toOption := htable
    have hview : cache'.view fs = cache.view fs := hview
    dsimp only
    rw [ih, hview]
    unfold fitting
    rw [List.filterMap_cons]
    cases (cache.view fs link).toOption <;> rfl

theorem choice_of_many {view : String → Except String Table} {version : Version}
    {object : Object} {links : List String} (h : ∀ only, links ≠ [only]) :
    choice view store version object links =
      (ofFits (fitting view store version object links)).chosen? := by
  unfold choice
  split
  · next only => exact absurd rfl (h only)
  · rfl

theorem mem_of_choice {view : String → Except String Table} {version : Version}
    {object : Object} {links : List String} {link : String}
    (h : choice view store version object links = some link) : link ∈ links := by
  unfold choice at h
  split at h
  · cases h; exact List.mem_singleton_self _
  · obtain ⟨fit, hfit, _⟩ := mem_of_chosen? h
    obtain ⟨candidate, hcandidate, hmap⟩ := List.mem_filterMap.1 hfit
    obtain ⟨table, _, hpair⟩ := Option.map_eq_some_iff.1 hmap
    cases hpair
    exact hcandidate

end Resolution

namespace Session

theorem chooseLink_still (fs : Files) (store : Store) (s : Session) (object : Object)
    (links : List String) (parent label path : String) :
    (s.chooseLink (.still fs store) object links parent label path).1 =
      Resolution.choice (s.cache.view fs) store s.version object links := by
  unfold chooseLink
  split
  · rfl
  · next hmany =>
    rw [Resolution.choice_of_many hmany,
      ← Resolution.fits_still s.version object path links s.findings s.cache]
    simp only [Resolution.resolve]
    split <;> simp_all [Resolution.chosen?]

theorem table_still (fs : Files) (store : Store) (s : Session) (link : String) :
    (s.table (.still fs store) link).1 = Cache.outcome link (s.cache.view fs link) :=
  Cache.get_eq_view s.cache fs link

theorem view_table (fs : Files) (store : Store) (s : Session) (link : String) :
    (s.table (.still fs store) link).2.cache.view fs = s.cache.view fs :=
  Cache.view_get s.cache fs link

/-- While the files stay no step changes what lookups give. -/
theorem Step.view {fs : Files} {store : Store} {known : Object → Prop}
    {declared : List String → Prop} {s s' : Session}
    (h : Step (.still fs store) known declared s s') : s'.cache.view fs = s.cache.view fs := by
  cases h with
  | report found => rfl
  | lookup link => exact view_table fs store s link
  | visit tree path => rfl
  | node t => rfl
  | enqueue path => rw [enqueue_eq]

end Session

end PdfConform
