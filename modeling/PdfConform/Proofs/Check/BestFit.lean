import Mathlib.Data.List.Destutter
import PdfConform.Proofs.Check.Accounting
import PdfConform.Proofs.Check.Choice
import PdfConform.Proofs.Check.Echo

/-! Which of several links is resolved. The candidates that fit best decide, those that fit strongly
if there are any and else those that fit weakly: whether there are none, one link or several of them
is the outcome, and the first of them is chosen. Candidates without a table are only reported. -/
namespace PdfConform

namespace Cache

/-- The table that a lookup has given for a link. -/
def table? (c : Cache) (link : String) : Option Table := (c.find? link).bind Except.toOption

theorem find?_get_self (c : Cache) (fs : Files) (link : String) :
    (c.get fs link).2.1.find? link = some (c.view fs link) := by
  rw [find?_get]
  unfold view
  cases hfind : c.find? link with
  | none => simp
  | some entry => simp

end Cache

theorem Surroundings.eq_still {around : Surroundings} {fs : Files}
    (h : ∀ found, around.filesAfter found = fs) : around = .still fs around.store :=
  congrArg (Surroundings.mk · around.store) (funext h)

namespace Resolution

/-- The links that fit strongly, or those that fit weakly if there are none. -/
def best (fit? : String → Option Fit) (links : List String) : List String :=
  if links.filter (fun link => fit? link = some .strong) = [] then
    links.filter fun link => fit? link = some .weak
  else links.filter fun link => fit? link = some .strong

/-- The fit of a candidate, if there is a table for it. -/
def fitIn (tables : String → Option Table) (store : Store) (version : Version) (object : Object)
    (link : String) : Option Fit :=
  (tables link).map (fitOf store version object)

/-- What is resolved when these candidates fit best. -/
def ofBest (best : List String) : Resolution :=
  match collapse best with
  | [] => .unresolved
  | [link] => .resolved link
  | link :: more => .ambiguous link (link :: more)

theorem collapse_eq_destutter (links : List String) : collapse links = links.destutter (· ≠ ·) := by
  fun_induction collapse links with
  | case1 b rest ih => rw [ih, List.destutter_cons_cons, if_neg (by simp), List.destutter_cons']
  | case2 a b rest h ih => rw [ih, List.destutter_cons_cons, if_pos h, List.destutter_cons']
  | case3 links h =>
    rcases links with _ | ⟨a, _ | ⟨b, rest⟩⟩
    · rfl
    · rfl
    · exact absurd rfl (h a b rest)

theorem withFit_filterMap (fit? : String → Option Fit) (fit : Fit) (links : List String) :
    withFit fit (links.filterMap fun link => (fit? link).map fun fit => (link, fit)) =
      links.filter fun link => fit? link = some fit := by
  induction links with
  | nil => rfl
  | cons link links ih =>
    unfold withFit at ih ⊢
    rw [List.filterMap_cons, List.filter_cons]
    cases hfit : fit? link with
    | none => simpa using ih
    | some other =>
      by_cases hsame : other = fit
      · simpa [hsame] using ih
      · simpa [hsame] using ih

theorem ofFits_filterMap (fit? : String → Option Fit) (links : List String) :
    ofFits (links.filterMap fun link => (fit? link).map fun fit => (link, fit)) =
      ofBest (best fit? links) := by
  simp only [ofFits, withFit_filterMap, List.isEmpty_iff]
  rfl

theorem best_congr {fit? fit?' : String → Option Fit} {links : List String}
    (h : ∀ link ∈ links, fit? link = fit?' link) : best fit? links = best fit?' links := by
  have hfilter (fit : Fit) : links.filter (fun link => fit? link = some fit) =
      links.filter fun link => fit?' link = some fit :=
    List.filter_congr fun link hlink => by rw [h link hlink]
  unfold best
  rw [hfilter, hfilter]

theorem best_perm (fit? : String → Option Fit) {links links' : List String}
    (h : links.Perm links') : (best fit? links).Perm (best fit? links') := by
  have hstrong : (links.filter fun link => fit? link = some .strong) = [] ↔
      (links'.filter fun link => fit? link = some .strong) = [] := by
    rw [← List.length_eq_zero_iff, ← List.length_eq_zero_iff, (h.filter _).length_eq]
  unfold best
  by_cases hnone : (links'.filter fun link => fit? link = some .strong) = []
  · rw [if_pos (hstrong.2 hnone), if_pos hnone]
    exact h.filter _
  · rw [if_neg (mt hstrong.1 hnone), if_neg hnone]
    exact h.filter _

/-- A candidate without a fit is not among those that fit best. -/
theorem best_filter (fit? : String → Option Fit) (links : List String) :
    best fit? (links.filter fun link => (fit? link).isSome) = best fit? links := by
  have hfilter (fit : Fit) :
      (links.filter fun link => (fit? link).isSome).filter (fun link => fit? link = some fit) =
        links.filter fun link => fit? link = some fit := by
    rw [List.filter_filter]
    refine List.filter_congr fun link _ => ?_
    cases fit? link <;> simp
  unfold best
  rw [hfilter, hfilter]

/-- What the candidates that fit best leave to be resolved: nothing where there are none, a link
where all are that link, and else the first of them, named with all others in their order. -/
structure OfBest (best : List String) (resolution : Resolution) : Prop where
  unresolved : resolution = .unresolved ↔ best = []
  resolved (link : String) :
    resolution = .resolved link ↔ best ≠ [] ∧ ∀ other ∈ best, other = link
  ambiguous : (∃ link ∈ best, ∃ other ∈ best, link ≠ other) → ∃ chosen matching,
    resolution = .ambiguous chosen matching ∧ best.head? = some chosen ∧
      matching.head? = some chosen ∧ matching.Sublist best ∧ ∀ link ∈ best, link ∈ matching

theorem eq_of_collapse_eq_singleton {best : List String} {link : String}
    (h : collapse best = [link]) : ∀ other ∈ best, other = link := by
  intro other hother
  rw [← mem_collapse, h] at hother
  exact List.mem_singleton.1 hother

theorem collapse_eq_nil_iff {best : List String} : collapse best = [] ↔ best = [] := by
  rw [collapse_eq_destutter, List.destutter_eq_nil]

/-- Two neighbours that are left when runs become one are different. -/
theorem ne_of_collapse {best more : List String} {first second : String}
    (h : collapse best = first :: second :: more) : first ≠ second := by
  have hchain := List.isChain_destutter (· ≠ ·) best
  rw [← collapse_eq_destutter, h] at hchain
  exact (List.isChain_cons_cons.1 hchain).1

theorem ofBest_spec (best : List String) : OfBest best (ofBest best) := by
  unfold ofBest
  split
  · next hnil =>
    obtain rfl := collapse_eq_nil_iff.1 hnil
    exact ⟨by simp, by simp, by simp⟩
  · next link hone =>
    have hall := eq_of_collapse_eq_singleton hone
    have hmem : link ∈ best := mem_collapse.1 (hone ▸ List.mem_singleton_self link)
    have hne : best ≠ [] := List.ne_nil_of_mem hmem
    refine ⟨by simpa using hne, ?_, ?_⟩
    · intro other
      rw [resolved.injEq]
      constructor
      · rintro rfl
        exact ⟨hne, hall⟩
      · exact fun h => h.2 link hmem
    · rintro ⟨a, ha, b, hb, hdiffer⟩
      exact absurd ((hall a ha).trans (hall b hb).symm) hdiffer
  · next first more hmore hmany =>
    have hmem : ∀ link, link ∈ best ↔ link ∈ first :: more :=
      fun link => by rw [← mem_collapse, hmany]
    obtain ⟨second, rest, rfl⟩ := List.exists_cons_of_ne_nil hmore
    have hdiffer := ne_of_collapse hmany
    have hfirst : first ∈ best := (hmem first).2 List.mem_cons_self
    have hsecond : second ∈ best :=
      (hmem second).2 (List.mem_cons_of_mem first List.mem_cons_self)
    refine ⟨by simpa using List.ne_nil_of_mem hfirst, ?_, fun _ => ⟨first, _, rfl, ?_, rfl, ?_, ?_⟩⟩
    · intro link
      simp only [reduceCtorEq, false_iff, not_and]
      exact fun _ hall => hdiffer ((hall first hfirst).trans (hall second hsecond).symm)
    · rw [← head?_collapse, hmany]
      rfl
    · rw [← hmany, collapse_eq_destutter]
      exact List.destutter_sublist _ best
    · exact fun link => (hmem link).1

/-- The same outcome with the same links. -/
inductive Alike : Resolution → Resolution → Prop
  | unresolved : Alike .unresolved .unresolved
  | resolved (link : String) : Alike (.resolved link) (.resolved link)
  | ambiguous {chosen chosen' : String} {matching matching' : List String} :
    (∀ link, link ∈ matching ↔ link ∈ matching') →
    Alike (.ambiguous chosen matching) (.ambiguous chosen' matching')

/-- The outcome is a matter of which links fit best, in whatever order and how often. -/
theorem OfBest.alike {best best' : List String} {resolution resolution' : Resolution}
    (h : OfBest best resolution) (h' : OfBest best' resolution')
    (hsame : ∀ link, link ∈ best ↔ link ∈ best') : Alike resolution resolution' := by
  have hempty : best = [] ↔ best' = [] := by
    simp only [List.eq_nil_iff_forall_not_mem, hsame]
  by_cases hnil : best = []
  · rw [h.unresolved.2 hnil, h'.unresolved.2 (hempty.1 hnil)]
    exact .unresolved
  by_cases hmany : ∃ link ∈ best, ∃ other ∈ best, link ≠ other
  · have hmany' : ∃ link ∈ best', ∃ other ∈ best', link ≠ other := by simpa only [hsame] using hmany
    obtain ⟨chosen, matching, rfl, _, _, hsub, hall⟩ := h.ambiguous hmany
    obtain ⟨chosen', matching', rfl, _, _, hsub', hall'⟩ := h'.ambiguous hmany'
    refine .ambiguous fun link => ⟨fun hlink => ?_, fun hlink => ?_⟩
    · exact hall' link ((hsame link).1 (hsub.subset hlink))
    · exact hall link ((hsame link).2 (hsub'.subset hlink))
  · obtain ⟨link, hlink⟩ := List.exists_mem_of_ne_nil best hnil
    have hall : ∀ other ∈ best, other = link := by
      intro other hother
      by_contra hdiffer
      exact hmany ⟨other, hother, link, hlink, hdiffer⟩
    have hall' : ∀ other ∈ best', other = link :=
      fun other hother => hall other ((hsame other).2 hother)
    rw [(h.resolved link).2 ⟨hnil, hall⟩, (h'.resolved link).2 ⟨mt hempty.2 hnil, hall'⟩]
    exact .resolved link

section Lookup

variable {around : Surroundings} {version : Version} {object : Object} {path : String}

/-- What was looked up for a candidate is still there when all others were looked up. -/
theorem find?_fitsAfter (before : List Finding) (cache : Cache) (link : String)
    (links : List String) :
    (fitsAfter around version object path before cache link links).2.1.find? link =
      some (cache.view (around.filesAfter before) link) := by
  refine find?_fits ?_
  rw [(candidate_get around path before cache link).2]
  exact Cache.find?_get_self cache _ link

theorem table?_fitsAfter (before : List Finding) (cache : Cache) (link : String)
    (links : List String) :
    (fitsAfter around version object path before cache link links).2.1.table? link =
      (candidate around path before cache link).1 := by
  rw [Cache.table?, find?_fitsAfter, (candidate_get around path before cache link).1,
    Cache.get_eq_view]
  cases cache.view (around.filesAfter before) link <;> rfl

/-- Every candidate has been looked up in the end. -/
theorem isSome_find?_fits {before : List Finding} {cache : Cache} {links : List String}
    {link : String} (h : link ∈ links) :
    ((fits around version object path before cache links).2.1.find? link).isSome = true := by
  induction links generalizing before cache with
  | nil => cases h
  | cons other links ih =>
    rw [fits_cons]
    rcases List.mem_cons.1 h with rfl | h
    · exact Option.isSome_of_eq_some (find?_fitsAfter before cache link links)
    · exact ih h

/-- Over files that stay a lookup gives the same at any time. -/
theorem find?_fits_still (fs : Files) (store : Store) {before : List Finding} {cache : Cache}
    {links : List String} {link : String} (h : link ∈ links) :
    (fits (.still fs store) version object path before cache links).2.1.find? link =
      some (cache.view fs link) := by
  induction links generalizing before cache with
  | nil => cases h
  | cons other links ih =>
    rw [fits_cons]
    rcases List.mem_cons.1 h with rfl | h
    · exact find?_fitsAfter before cache link links
    · rw [← (candidate_still fs store path before cache other).2]
      exact ih h

theorem fits_eq (before : List Finding) (cache : Cache) (links : List String) :
    (fits around version object path before cache links).1 = links.filterMap fun link =>
      (fitIn (fits around version object path before cache links).2.1.table? around.store version
        object link).map fun fit => (link, fit) := by
  induction links generalizing before cache with
  | nil => rfl
  | cons link links ih =>
    have hrest : (fitsAfter around version object path before cache link links).1 = _ := ih _ _
    rw [fits_cons, List.filterMap_cons, fitIn, table?_fitsAfter]
    cases (candidate around path before cache link).1 with
    | none => exact hrest
    | some table => exact congrArg _ hrest

/-- What is reported on a candidate for which there is no table. -/
def missing? (cache : Cache) (path link : String) : Option Finding :=
  match cache.find? link with
  | some (.error reason) => some ⟨.schemaMissing, link, none, path,
      "cannot load candidate grammar: " ++ (Unavailable.mk link reason).message⟩
  | _ => none

theorem missing_of_candidate (before : List Finding) (cache : Cache) {link : String}
    {later : Cache} (h : later.find? link = some (cache.view (around.filesAfter before) link)) :
    (candidate around path before cache link).2.2.filter (·.kind = .schemaMissing) =
      (missing? later path link).toList := by
  have hdefects : (cache.get (around.filesAfter before) link).2.2.filter
      (·.kind = .schemaMissing) = [] := by
    rw [List.filter_eq_nil_iff]
    intro f hf hkind
    exact Cache.kind_ne_of_mem_get rfl hf (of_decide_eq_true hkind)
  have hview := Cache.get_eq_view cache (around.filesAfter before) link
  unfold missing? candidate
  rw [h]
  rcases hget : cache.get (around.filesAfter before) link with ⟨result, looked, found⟩
  rw [hget] at hdefects hview
  cases hentry : cache.view (around.filesAfter before) link with
  | ok table =>
    rw [hentry] at hview
    obtain rfl : result = .ok table := hview
    exact hdefects
  | error reason =>
    rw [hentry] at hview
    obtain rfl : result = .error ⟨link, reason⟩ := hview
    dsimp only
    rw [List.filter_append, hdefects]
    rfl

/-- A candidate is reported missing once for each time it stands among the candidates, and nothing
else is. -/
theorem missing_of_fits (before : List Finding) (cache : Cache) (links : List String) :
    (fits around version object path before cache links).2.2.filter (·.kind = .schemaMissing) =
      links.filterMap (missing? (fits around version object path before cache links).2.1 path) := by
  induction links generalizing before cache with
  | nil => rfl
  | cons link links ih =>
    have hrest : (fitsAfter around version object path before cache link links).2.2.filter _ = _ :=
      ih _ _
    rw [fits_cons, List.filter_append,
      missing_of_candidate before cache (find?_fitsAfter before cache link links), hrest,
      List.filterMap_cons]
    dsimp only
    cases missing? (fitsAfter around version object path before cache link links).2.1 path link <;>
      rfl

end Lookup

theorem resolve_eq_ofBest (around : Surroundings) (version : Version) (object : Object)
    (path : String) (before : List Finding) (cache : Cache) (candidates : List String) :
    (resolve around version object path before cache candidates).1 =
      ofBest (best (fitIn (resolve around version object path before cache candidates).2.1.table?
        around.store version object) candidates) := by
  rw [← ofFits_filterMap]
  exact congrArg ofFits (fits_eq before cache candidates)

/-- Over files that stay the outcome depends on what lookups give for the candidates. -/
theorem resolve_still_eq_ofBest (fs : Files) (store : Store) (version : Version) (object : Object)
    (path : String) (before : List Finding) (cache : Cache) (candidates : List String) :
    (resolve (.still fs store) version object path before cache candidates).1 =
      ofBest (best (fitIn (fun link => (cache.view fs link).toOption) store version object)
        candidates) := by
  rw [resolve_eq_ofBest]
  refine congrArg ofBest (best_congr fun link hlink => ?_)
  have hfound : (resolve (.still fs store) version object path before cache candidates).2.1.find?
      link = some (cache.view fs link) := find?_fits_still fs store hlink
  rw [fitIn, Cache.table?, hfound]
  rfl

/-- The candidates that fit best by the tables that were found decide what is resolved. Each
candidate without a table is reported missing as often as it stands there. While the files stay, the
candidates without a table can be left out, and in whatever order the candidates come the outcome is
the same, with the same links. -/
theorem resolve_best (around : Surroundings) (version : Version) (object : Object) (path : String)
    (before : List Finding) (cache : Cache) (candidates : List String) :
    let resolved := resolve around version object path before cache candidates
    let tables := resolved.2.1.table?
    OfBest (best (fitIn tables around.store version object) candidates) resolved.1 ∧
      (∀ link ∈ candidates, (resolved.2.1.find? link).isSome = true) ∧
      resolved.2.2.filter (·.kind = .schemaMissing) =
        candidates.filterMap (missing? resolved.2.1 path) ∧
      ∀ fs, (∀ found, around.filesAfter found = fs) →
        (resolve around version object path before cache
            (candidates.filter fun link => (tables link).isSome)).1 = resolved.1 ∧
          ∀ candidates', candidates'.Perm candidates →
            Alike (resolve around version object path before cache candidates').1 resolved.1 := by
  intro resolved tables
  have hresolved : resolved.1 =
      ofBest (best (fitIn tables around.store version object) candidates) :=
    resolve_eq_ofBest around version object path before cache candidates
  refine ⟨hresolved ▸ ofBest_spec _, fun link => isSome_find?_fits, missing_of_fits _ _ _, ?_⟩
  intro fs hstill
  have haround := Surroundings.eq_still hstill
  have houtcome (links : List String) :
      (resolve around version object path before cache links).1 =
        ofBest (best (fitIn (fun link => (cache.view fs link).toOption) around.store version object)
          links) := by
    rw [haround]
    exact resolve_still_eq_ofBest fs around.store version object path before cache links
  constructor
  · -- While the files stay, a candidate that is found without a table never has one.
    have hfilter : (candidates.filter fun link => (tables link).isSome) = candidates.filter
        fun link => (fitIn (fun link => (cache.view fs link).toOption) around.store version object
          link).isSome := by
      refine List.filter_congr fun link hlink => ?_
      have hfound : resolved.2.1.find? link = some (cache.view fs link) := by
        change (resolve around version object path before cache candidates).2.1.find? link = _
        rw [haround]
        exact find?_fits_still fs around.store hlink
      simp [tables, Cache.table?, hfound, fitIn]
    rw [hfilter, houtcome, best_filter]
    exact (houtcome candidates).symm
  · intro candidates' hperm
    change Alike _ (resolve around version object path before cache candidates).1
    rw [houtcome, houtcome]
    exact (ofBest_spec _).alike (ofBest_spec _) fun link => (best_perm _ hperm).mem_iff

end Resolution

/-! Two tables that are confirmed by what a dictionary says that it is, one that nothing speaks
against, and a candidate that has no table. -/
namespace Typed

def row : Row :=
  { Cycle.row with
    key := .name "Type", types := [.known .name], requiredValue := some (.text "Ring"),
    links := [[]] }

def table (link : String) : Table := { Cycle.table with link, rows := [row, Cycle.row] }

def cache : Cache :=
  ⟨Cycle.folder, [("Open", .ok { Cycle.table with link := "Open" }), ("Ring", .ok (table "Ring")),
    ("Loop", .ok (table "Loop"))]⟩

def object : Object := .dictionary [("Type", .name "Ring")]

def candidates : List String := ["Open", "Ring", "Nowhere", "Loop", "Ring"]

def reordered : List String := ["Loop", "Open", "Ring", "Ring", "Nowhere"]

def resolved (candidates : List String) : Resolution × Cache × List Finding :=
  Resolution.resolve Cycle.around .two object "" [] cache candidates

end Typed

/-- The table that nothing speaks against comes first and is chosen if there is no other. With the
others it is left out, and in another order another of them is chosen, out of the same. -/
theorem Resolution.resolve_best_typed :
    (Typed.resolved ["Open"]).1 = .resolved "Open" ∧
      (Typed.resolved ["Open", "Ring"]).1 = .resolved "Ring" ∧
      (Typed.resolved Typed.candidates).1 = .ambiguous "Ring" ["Ring", "Loop", "Ring"] ∧
      (Typed.resolved Typed.reordered).1 = .ambiguous "Loop" ["Loop", "Ring"] ∧
      (Typed.resolved Typed.candidates).2.2.length = 1 ∧
      OfBest ["Ring", "Loop", "Ring"] (Typed.resolved Typed.candidates).1 ∧
      Alike (Typed.resolved Typed.reordered).1 (Typed.resolved Typed.candidates).1 := by
  have hresolved := resolve_best Cycle.around .two Typed.object "" [] Typed.cache Typed.candidates
  obtain ⟨hbest, _, _, hstill⟩ := hresolved
  have hperm : Typed.reordered.Perm Typed.candidates := by decide
  refine ⟨by decide +kernel, by decide +kernel, by decide +kernel, by decide +kernel,
    by decide +kernel, hbest, ?_⟩
  exact (hstill .empty fun _ => rfl).2 Typed.reordered hperm

end PdfConform
