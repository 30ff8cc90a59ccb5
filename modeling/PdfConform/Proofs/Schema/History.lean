import Mathlib.Data.List.Dedup
import Mathlib.Data.List.Perm.Basic
import PdfConform.Proofs.Schema.WellFormed

/-! What a cache answers in the course of its use. The verdict on a link falls at its first
lookup, on the files as they are then, and whatever becomes of the files it stays. -/
namespace PdfConform

/-- A lookup that was made: what it gave and what it reported. -/
structure Lookup where
  link : String
  result : Except Unavailable Table
  found : List Finding

def Lookup.failed? (l : Lookup) : Option String :=
  match l.result with
  | .ok _ => none
  | .error _ => some l.link

/-- A cache in use, with the files as they are by now and the lookups made so far. -/
structure History where
  cache : Cache
  files : Files
  lookups : List Lookup

namespace Cache

def links (c : Cache) : List String := c.entries.map (·.1)

theorem find?_isSome_iff {c : Cache} {link : String} :
    (c.find? link).isSome = true ↔ link ∈ c.links := by
  simp [find?, links]

end Cache

namespace History

/-- What is asked of a cache, or done to the files behind it. -/
inductive Use
  | get (link : String)
  | loadAll
  | change (files : Files)

def start (folder : Folder) (files : Files) : History := ⟨.ofFolder folder, files, []⟩

def look (h : History) (link : String) : History :=
  let (result, cache, found) := h.cache.get h.files link
  { h with cache, lookups := h.lookups ++ [⟨link, result, found⟩] }

def use (h : History) : Use → History
  | .get link => h.look link
  | .loadAll =>
    match h.cache.folder.links h.files with
    | .ok links => links.foldl look h
    | .error _ => h
  | .change files => { h with files }

def after (h : History) (uses : List Use) : History := uses.foldl use h

/-- The lookups that one use of the cache makes. -/
def made (h : History) (u : Use) : List Lookup := (h.use u).lookups.drop h.lookups.length

/-- What stays so in the course of use. -/
structure Kept (h : History) : Prop where
  nodup : h.cache.links.Nodup
  links : ∀ link, link ∈ h.cache.links ↔ link ∈ h.lookups.map Lookup.link
  held : ∀ l ∈ h.lookups, ∀ entry, h.cache.find? l.link = some entry →
    l.result = Cache.outcome l.link entry
  final : h.lookups.Pairwise fun first later => later.link = first.link →
    later.result = first.result ∧ later.found = []
  silent : ∀ l ∈ h.lookups, ∀ table, l.result = .ok table → l.found = []

namespace Kept

variable {h : History}

theorem start (folder : Folder) (files : Files) : (History.start folder files).Kept := by
  constructor <;> simp [History.start, Cache.ofFolder, Cache.links]

theorem exists_entry (k : h.Kept) {l : Lookup} (hl : l ∈ h.lookups) :
    ∃ entry, h.cache.find? l.link = some entry ∧ l.result = Cache.outcome l.link entry := by
  have hlink : l.link ∈ h.cache.links := (k.links _).2 (List.mem_map_of_mem hl)
  obtain ⟨entry, hentry⟩ := Option.isSome_iff_exists.1 (Cache.find?_isSome_iff.2 hlink)
  exact ⟨entry, hentry, k.held l hl entry hentry⟩

/-- A link that was looked up before gives what it gave then. -/
theorem again (k : h.Kept) {link : String} {entry : Except String Table}
    (hfind : h.cache.find? link = some entry) : (h.look link).Kept := by
  have hlook : h.look link =
      { h with lookups := h.lookups ++ [⟨link, Cache.outcome link entry, []⟩] } := by
    unfold look
    rw [Cache.get_of_contains hfind]
  have hlink : link ∈ h.lookups.map Lookup.link :=
    (k.links link).1 (Cache.find?_isSome_iff.1 (by rw [hfind]; rfl))
  rw [hlook]
  refine ⟨k.nodup, ?_, ?_, ?_, ?_⟩
  · intro other
    rw [List.map_append, List.mem_append, k.links]
    simp only [List.map_cons, List.map_nil, List.mem_singleton]
    exact ⟨.inl, fun hother => hother.elim id fun heq => heq ▸ hlink⟩
  · intro l hl other hother
    rcases List.mem_append.1 hl with hold | hnew
    · exact k.held l hold other hother
    · obtain rfl := List.mem_singleton.1 hnew
      rw [show entry = other from Option.some.inj (hfind.symm.trans hother)]
  · refine List.pairwise_append.2 ⟨k.final, List.pairwise_singleton _ _, ?_⟩
    intro first hfirst later hlater hsame
    obtain rfl := List.mem_singleton.1 hlater
    obtain rfl : link = first.link := hsame
    exact ⟨(k.held first hfirst entry hfind).symm, rfl⟩
  · intro l hl table htable
    rcases List.mem_append.1 hl with hold | hnew
    · exact k.silent l hold table htable
    · rw [List.mem_singleton.1 hnew]

/-- A link that comes for the first time is loaded, and what comes of that is kept. -/
theorem first (k : h.Kept) {link : String} (hfind : h.cache.find? link = none) :
    (h.look link).Kept := by
  have hlook : h.look link = { h with
      cache := { h.cache with
        entries := h.cache.entries ++ [(link, (Cache.load h.cache.folder h.files link).1)] }
      lookups := h.lookups ++ [⟨link,
        Cache.outcome link (Cache.load h.cache.folder h.files link).1,
        (Cache.load h.cache.folder h.files link).2⟩] } := by
    unfold look
    rw [Cache.get_of_none hfind]
  have hfresh : link ∉ h.cache.links := by
    rw [← Cache.find?_isSome_iff, hfind]
    exact Bool.false_ne_true
  have hother : ∀ l ∈ h.lookups, l.link ≠ link := by
    rintro l hl rfl
    exact hfresh ((k.links _).2 (List.mem_map_of_mem hl))
  have hkept (other : String) : (h.look link).cache.find? other =
      if other = link then some (Cache.load h.cache.folder h.files link).1
      else h.cache.find? other := by
    have hget : (h.look link).cache.find? other = _ :=
      Cache.find?_get h.cache h.files link other
    simpa only [hfind, and_true] using hget
  have hlinks : (h.look link).cache.links = h.cache.links ++ [link] := by
    rw [hlook]
    simp [Cache.links]
  have hlookups : (h.look link).lookups = h.lookups ++ [⟨link,
      Cache.outcome link (Cache.load h.cache.folder h.files link).1,
      (Cache.load h.cache.folder h.files link).2⟩] := by rw [hlook]
  constructor
  · rw [hlinks]
    exact List.nodup_append.2 ⟨k.nodup, List.nodup_singleton _, by grind⟩
  · intro other
    rw [hlinks, hlookups, List.mem_append, List.map_append, List.mem_append, k.links]
    rfl
  · intro l hl entry hentry
    rw [hkept] at hentry
    rw [hlookups] at hl
    rcases List.mem_append.1 hl with hold | hnew
    · rw [if_neg (hother l hold)] at hentry
      exact k.held l hold entry hentry
    · obtain rfl := List.mem_singleton.1 hnew
      rw [if_pos rfl] at hentry
      rw [Option.some.inj hentry]
  · rw [hlookups]
    refine List.pairwise_append.2 ⟨k.final, List.pairwise_singleton _ _, ?_⟩
    intro first hfirst later hlater hsame
    obtain rfl := List.mem_singleton.1 hlater
    exact absurd hsame.symm (hother first hfirst)
  · intro l hl table htable
    rw [hlookups] at hl
    rcases List.mem_append.1 hl with hold | hnew
    · exact k.silent l hold table htable
    · obtain rfl := List.mem_singleton.1 hnew
      exact Cache.found_of_load (ok_of_mapError htable)

theorem look (k : h.Kept) (link : String) : (h.look link).Kept := by
  cases hfind : h.cache.find? link with
  | none => exact k.first hfind
  | some entry => exact k.again hfind

theorem foldl_look (k : h.Kept) (links : List String) : (links.foldl History.look h).Kept := by
  induction links generalizing h with
  | nil => exact k
  | cons link links ih => exact ih (k.look link)

theorem use (k : h.Kept) (u : Use) : (h.use u).Kept := by
  cases u with
  | get link => exact k.look link
  | loadAll =>
    simp only [History.use]
    cases h.cache.folder.links h.files with
    | ok links => exact k.foldl_look links
    | error _ => exact k
  | change files => exact ⟨k.nodup, k.links, k.held, k.final, k.silent⟩

theorem after (k : h.Kept) (uses : List Use) : (h.after uses).Kept := by
  induction uses generalizing h with
  | nil => exact k
  | cons u uses ih => exact ih (k.use u)

theorem size_eq (k : h.Kept) : h.cache.size = (h.lookups.map Lookup.link).dedup.length := by
  have hperm : h.cache.links.Perm (h.lookups.map Lookup.link).dedup := by
    refine (List.perm_ext_iff_of_nodup k.nodup (List.nodup_dedup _)).2 ?_
    intro link
    rw [List.mem_dedup, k.links]
  rw [← hperm.length_eq]
  exact (List.length_map _).symm

end Kept

/-- What looking up a whole folder answers is read off the lookups that it makes. -/
theorem getAll_eq (h : History) (links : List String) :
    ∃ made, (links.foldl look h).lookups = h.lookups ++ made ∧
      (links.foldl look h).files = h.files ∧ made.map Lookup.link = links ∧
      h.cache.getAll h.files links =
        (made.filterMap Lookup.failed?, (links.foldl look h).cache, made.flatMap Lookup.found) := by
  induction links generalizing h with
  | nil => exact ⟨[], by simp, rfl, rfl, rfl⟩
  | cons link links ih =>
    obtain ⟨made, hmade, hfiles, hlinks, hall⟩ := ih (h.look link)
    refine ⟨⟨link, (h.cache.get h.files link).1, (h.cache.get h.files link).2.2⟩ :: made,
      ?_, hfiles, by rw [List.map_cons, hlinks], ?_⟩
    · rw [List.foldl_cons, hmade]
      simp [look]
    · have hall' : (h.cache.get h.files link).2.1.getAll h.files links = _ := hall
      unfold Cache.getAll
      dsimp only
      rw [hall', List.filterMap_cons]
      unfold Lookup.failed?
      cases (h.cache.get h.files link).1 <;> rfl

theorem loadAll_eq (h : History) :
    h.cache.loadAll h.files = (h.cache.folder.links h.files).map fun _ =>
      ((h.made .loadAll).filterMap Lookup.failed?, (h.use .loadAll).cache,
        (h.made .loadAll).flatMap Lookup.found) := by
  unfold Cache.loadAll made use
  cases h.cache.folder.links h.files with
  | error e => rfl
  | ok links =>
    obtain ⟨made, hmade, _, _, hall⟩ := h.getAll_eq links
    dsimp only
    rw [hmade, List.drop_left]
    exact congrArg Except.ok hall

/-- In any course of lookups, sweeps over the folder and changes to its files, every lookup of a
link after the first gives what that gave and reports nothing, and the first gives a table only
if it reported nothing. The cache holds the links looked up so far, and no others. -/
theorem verdict_final (folder : Folder) (files : Files) (uses : List Use) :
    let h := (start folder files).after uses
    h.lookups.Pairwise (fun first later => later.link = first.link →
        later.result = first.result ∧ later.found = []) ∧
      (∀ l ∈ h.lookups, ∀ table, l.result = .ok table → l.found = []) ∧
      (∀ l ∈ h.lookups, ∀ unavailable, l.result = .error unavailable →
        unavailable.link = l.link) ∧
      (∀ link, h.cache.contains link = true ↔ link ∈ h.lookups.map Lookup.link) ∧
      h.cache.size = (h.lookups.map Lookup.link).dedup.length ∧
      h.cache.loadAll h.files = (h.cache.folder.links h.files).map fun _ =>
        ((h.made .loadAll).filterMap Lookup.failed?, (h.use .loadAll).cache,
          (h.made .loadAll).flatMap Lookup.found) := by
  intro h
  have hkept : h.Kept := (Kept.start folder files).after uses
  refine ⟨hkept.final, hkept.silent, ?_, ?_, hkept.size_eq, h.loadAll_eq⟩
  · intro l hl unavailable hresult
    obtain ⟨entry, _, hentry⟩ := hkept.exists_entry hl
    rw [hresult] at hentry
    cases entry with
    | ok table => cases hentry
    | error reason => cases hentry; rfl
  · intro link
    exact Cache.find?_isSome_iff.trans (hkept.links link)

end History

end PdfConform
