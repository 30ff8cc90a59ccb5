import Mathlib.Logic.Relation
import PdfConform.Check.Run
import PdfConform.Proofs.Document.Reach

/-! Whatever a check does to a session it does in a few elementary steps. What the steps
keep, every walk, check and run keeps. -/
namespace PdfConform

namespace Session

/-- One thing that a check does beside its way through a document. -/
inductive Aside (around : Surroundings) : Session → Session → Prop
  | report (s : Session) (found : List Finding) : Aside around s (s.report found)
  | lookup (s : Session) (link : String) : Aside around s (s.table around link).2

abbrev Asides (around : Surroundings) : Session → Session → Prop :=
  Relation.ReflTransGen (Aside around)

/-- One lookup of a table, and a report that there is none. -/
inductive Asking (around : Surroundings) (asked : String → Prop) : Session → Session → Prop
  | lookup (s : Session) {link : String} : asked link →
    Asking around asked s (s.table around link).2
  | missing (s : Session) {link : String} {unavailable : Unavailable} (path message : String) :
    asked link → (s.table around link).1 = .error unavailable →
    Asking around asked s
      ((s.table around link).2.report [⟨.schemaMissing, link, none, path, message⟩])

abbrev Asks (around : Surroundings) (asked : String → Prop) : Session → Session → Prop :=
  Relation.ReflTransGen (Asking around asked)

/-- One thing that a check does, with the lists of links it may choose from. -/
inductive Step (around : Surroundings) (known : Object → Prop) (declared : List String → Prop) :
    Session → Session → Prop
  | report (s : Session) (found : List Finding) : Step around known declared s (s.report found)
  | lookup (s : Session) (link : String) : Step around known declared s (s.table around link).2
  | visit (s : Session) (tree path : String) :
    Step around known declared s (s.note (.visited tree path))
  | node (s : Session) (t : Tree) {value object : Object} {reference : Option ObjectId} :
    declared t.links → known value →
    around.store.dereference value = some (object, reference) →
    Step around known declared s (s.mark (.of object reference) t.title).2
  | enqueue (s : Session) (path : String) {links : List String} {link : String}
    {value object : Object} {reference : Option ObjectId} :
    declared links → link ∈ links → known value →
    around.store.present value = some (object, reference) → object.isContainer = true →
    Step around known declared s (s.enqueue object reference link path)

abbrev Steps (around : Surroundings) (known : Object → Prop) (declared : List String → Prop) :
    Session → Session → Prop :=
  Relation.ReflTransGen (Step around known declared)

variable {around : Surroundings} {asked : String → Prop} {known : Object → Prop}
  {declared : List String → Prop}

theorem Step.steps {s s' : Session} (h : Step around known declared s s') :
    Steps around known declared s s' := .single h

theorem Aside.step {s s' : Session} (h : Aside around s s') : Step around known declared s s' := by
  cases h with
  | report found => exact .report s found
  | lookup link => exact .lookup s link

theorem Aside.asides {s s' : Session} (h : Aside around s s') : Asides around s s' := .single h

theorem Asks.asides {s s' : Session} (h : Asks around asked s s') : Asides around s s' := by
  induction h with
  | refl => exact .refl
  | tail _ hlast ih =>
    cases hlast with
    | lookup => exact ih.tail (.lookup _ _)
    | missing => exact (ih.tail (.lookup _ _)).tail (.report _ _)

theorem Asides.steps {s s' : Session} (h : Asides around s s') :
    Steps around known declared s s' :=
  Relation.ReflTransGen.mono (fun _ _ => Aside.step) s s' h

/-- A property that every step keeps is kept by any number of them. -/
theorem Steps.keep {P : Session → Prop} {s s' : Session}
    (hstep : ∀ {a b : Session}, Step around known declared a b → P a → P b)
    (h : Steps around known declared s s') (hs : P s) : P s' := by
  induction h with
  | refl => exact hs
  | tail _ hlast ih => exact hstep hlast ih

section Fold

variable {α σ : Type} (session : σ → Session) {f : σ → α → σ} {items : List α}

/-- A relation between sessions that goes on from step to step holds across a fold. -/
theorem foldl_rel {R : Session → Session → Prop} (hrefl : ∀ s, R s s)
    (htrans : ∀ {a b c}, R a b → R b c → R a c)
    (h : ∀ state, ∀ item ∈ items, R (session state) (session (f state item))) (state : σ) :
    R (session state) (session (items.foldl f state)) :=
  List.foldlRecOn (motive := fun reached => R (session state) (session reached)) items f
    (hrefl _) fun reached hreached item hitem => htrans hreached (h reached item hitem)

theorem steps_foldl
    (h : ∀ state, ∀ item ∈ items,
      Steps around known declared (session state) (session (f state item)))
    (state : σ) : Steps around known declared (session state) (session (items.foldl f state)) :=
  foldl_rel session (fun _ => .refl) .trans h state

/-- The moment in a fold at which one of the items has its turn. -/
theorem exists_turn_foldl
    (h : ∀ state, ∀ item ∈ items,
      Steps around known declared (session state) (session (f state item)))
    {item : α} (hitem : item ∈ items) (state : σ) :
    ∃ state', Steps around known declared (session state) (session state') ∧
      Steps around known declared (session (f state' item)) (session (items.foldl f state)) := by
  induction items generalizing state with
  | nil => simp at hitem
  | cons first items ih =>
    have hlater : ∀ state, ∀ item ∈ items,
        Steps around known declared (session state) (session (f state item)) :=
      fun state item hitem => h state item (by simp [hitem])
    rcases List.mem_cons.1 hitem with rfl | hitem
    · exact ⟨state, .refl, steps_foldl session hlater _⟩
    · obtain ⟨state', hbefore, hafter⟩ := ih hlater hitem (f state first)
      exact ⟨state', (h state first (by simp)).trans hbefore, hafter⟩

end Fold

/-- What was found, recorded, logged or looked up stays so. -/
structure Grows (s s' : Session) : Prop where
  version : s'.version = s.version
  findings : s.findings <+: s'.findings
  pairs : s.record.pairs <+: s'.record.pairs
  log : s.log <+: s'.log
  tables (link : String) (entry : Except String Table) :
    s.cache.find? link = some entry → s'.cache.find? link = some entry

theorem Grows.refl (s : Session) : Grows s s :=
  ⟨rfl, List.prefix_refl _, List.prefix_refl _, List.prefix_refl _, fun _ _ h => h⟩

theorem Grows.trans {a b c : Session} (h : Grows a b) (k : Grows b c) : Grows a c :=
  ⟨k.version.trans h.version, h.findings.trans k.findings, h.pairs.trans k.pairs,
    h.log.trans k.log, fun link entry hentry => k.tables link entry (h.tables link entry hentry)⟩

/-- Nothing was found at the end, so nothing was found before. -/
theorem Grows.clean {s s' : Session} (h : Grows s s') (hclean : s'.findings = []) :
    s.findings = [] :=
  List.prefix_nil.1 (hclean ▸ h.findings)

theorem grows_report (s : Session) (found : List Finding) : Grows s (s.report found) :=
  ⟨rfl, List.prefix_append _ _, List.prefix_refl _, List.prefix_refl _, fun _ _ h => h⟩

theorem grows_table (s : Session) (link : String) : Grows s (s.table around link).2 :=
  ⟨rfl, List.prefix_append _ _, List.prefix_refl _, List.prefix_refl _,
    fun _ _ h => Cache.find?_get_of_some h _ link⟩

theorem pairs_mark (s : Session) (identity : Identity) (link : String) :
    s.record.pairs <+: (s.mark identity link).2.record.pairs := by
  change s.record.pairs <+: (s.record.insert identity link).2.pairs
  rw [Record.pairs_insert]
  split
  · exact List.prefix_refl _
  · exact List.prefix_append _ _

theorem grows_mark (s : Session) (identity : Identity) (link : String) :
    Grows s (s.mark identity link).2 :=
  ⟨rfl, List.prefix_refl _, pairs_mark s identity link, List.prefix_refl _, fun _ _ h => h⟩

theorem grows_note (s : Session) (event : Event) : Grows s (s.note event) :=
  ⟨rfl, List.prefix_refl _, List.prefix_refl _, List.prefix_append _ _, fun _ _ h => h⟩

/-- A pair is recorded in any case; the object waits when the pair was not recorded before. -/
theorem enqueue_cases (s : Session) (object : Object) (reference : Option ObjectId)
    (link path : String) :
    (s.enqueue object reference link path).record =
        (s.mark (.of object reference) link).2.record ∧
      (((Identity.of object reference, link) ∉ s.record.pairs ∧
          (s.enqueue object reference link path).queue =
            s.queue ++ [⟨object, .of object reference, link, path, false⟩] ∧
          (s.enqueue object reference link path).log =
            s.log ++ [.queued ⟨object, .of object reference, link, path, false⟩]) ∨
        ((Identity.of object reference, link) ∈ s.record.pairs ∧
          (s.enqueue object reference link path).queue = s.queue ∧
          (s.enqueue object reference link path).log =
            s.log ++ [.repeated (.of object reference) link])) := by
  unfold enqueue
  dsimp only
  split
  · next hfresh => exact ⟨rfl, .inl ⟨Record.fresh_iff.1 hfresh, rfl, rfl⟩⟩
  · next hstale =>
    refine ⟨rfl, .inr ⟨Classical.byContradiction fun hnew => ?_, rfl, rfl⟩⟩
    exact hstale (Record.fresh_iff.2 hnew)

/-- Nothing else than the record, the queue and the log changes. -/
theorem enqueue_eq (s : Session) (object : Object) (reference : Option ObjectId)
    (link path : String) :
    s.enqueue object reference link path = { s with
      record := (s.mark (.of object reference) link).2.record
      queue := (s.enqueue object reference link path).queue
      log := (s.enqueue object reference link path).log } := by
  unfold enqueue
  dsimp only
  split <;> rfl

theorem recorded_of_enqueue (s : Session) (object : Object) (reference : Option ObjectId)
    (link path : String) :
    (Identity.of object reference, link) ∈ (s.enqueue object reference link path).record.pairs := by
  rw [(enqueue_cases s object reference link path).1]
  exact Record.mem_pairs_insert.2 (.inr rfl)

theorem grows_enqueue (s : Session) (object : Object) (reference : Option ObjectId)
    (link path : String) : Grows s (s.enqueue object reference link path) := by
  have hmark := grows_mark s (.of object reference) link
  unfold enqueue
  dsimp only
  split
  · exact hmark.trans ⟨rfl, List.prefix_refl _, List.prefix_refl _, List.prefix_append _ _,
      fun _ _ h => h⟩
  · exact hmark.trans (grows_note _ _)

theorem Step.grows {s s' : Session} (h : Step around known declared s s') : Grows s s' := by
  cases h with
  | report found => exact grows_report s found
  | lookup link => exact grows_table s link
  | visit tree path => exact grows_note s _
  | node t => exact grows_mark s _ _
  | enqueue path => exact grows_enqueue s _ _ _ path

theorem Steps.grows {s s' : Session} (h : Steps around known declared s s') : Grows s s' := by
  induction h with
  | refl => exact .refl s
  | tail _ hlast ih => exact ih.trans hlast.grows

theorem candidate_asks (path : String) (s : Session) {link : String} (hlink : asked link) :
    Asks around asked s { s with
      cache := (Resolution.candidate around path s.findings s.cache link).2.1
      findings :=
        s.findings ++ (Resolution.candidate around path s.findings s.cache link).2.2 } := by
  have hlookup : Asking around asked s (s.table around link).2 := .lookup s hlink
  have hmissing (unavailable : Unavailable) (h : (s.table around link).1 = .error unavailable) :=
    Asking.missing s path ("cannot load candidate grammar: " ++ unavailable.message) hlink h
  unfold table at hlookup hmissing
  unfold Resolution.candidate
  rcases hget : s.cache.get (around.filesAfter s.findings) link with ⟨result, cache, found⟩
  rw [hget] at hlookup hmissing
  cases result with
  | ok table => exact .single hlookup
  | error unavailable =>
    have hreport := hmissing unavailable rfl
    simp only [report, List.append_assoc] at hreport
    exact .single hreport

theorem fits_asks (version : Version) (object : Object) (path : String) (links : List String)
    (hlinks : ∀ link ∈ links, asked link) (s : Session) :
    Asks around asked s { s with
      cache := (Resolution.fits around version object path s.findings s.cache links).2.1
      findings := s.findings ++
        (Resolution.fits around version object path s.findings s.cache links).2.2 } := by
  induction links generalizing s with
  | nil =>
    simp only [Resolution.fits, List.append_nil]
    exact .refl
  | cons link links ih =>
    have hcandidate : Asks around asked s _ := candidate_asks path s (hlinks link (by simp))
    have hrest := ih (fun other hother => hlinks other (List.mem_cons_of_mem link hother)) { s with
      cache := (Resolution.candidate around path s.findings s.cache link).2.1
      findings := s.findings ++ (Resolution.candidate around path s.findings s.cache link).2.2 }
    simpa only [Resolution.fits, List.append_assoc] using hcandidate.trans hrest

theorem chooseLink_asides (s : Session) (object : Object) (links : List String)
    (parent label path : String) :
    Asides around s (s.chooseLink around object links parent label path).2 := by
  have hasks : Asks around (fun _ => True) s _ :=
    fits_asks s.version object path links (fun _ _ => trivial) s
  have hfits := hasks.asides
  unfold chooseLink
  split
  · exact .refl
  · simp only [Resolution.resolve]
    split
    · exact hfits
    · exact hfits.tail (.report _ _)
    · exact hfits.tail (.report _ _)

theorem chooseLink_steps (s : Session) (object : Object) (links : List String)
    (parent label path : String) :
    Steps around known declared s (s.chooseLink around object links parent label path).2 :=
  (chooseLink_asides s object links parent label path).steps

end Session

namespace Resolution

theorem candidate_get (around : Surroundings) (path : String) (before : List Finding)
    (cache : Cache) (link : String) :
    (candidate around path before cache link).1 =
        (cache.get (around.filesAfter before) link).1.toOption ∧
      (candidate around path before cache link).2.1 =
        (cache.get (around.filesAfter before) link).2.1 := by
  unfold candidate
  split
  · next hget => rw [hget]; exact ⟨rfl, rfl⟩
  · next hget => rw [hget]; exact ⟨rfl, rfl⟩

theorem find?_fits {around : Surroundings} {version : Version} {object : Object} {path : String}
    {before : List Finding} {cache : Cache} {links : List String} {link : String}
    {entry : Except String Table} (h : cache.find? link = some entry) :
    (fits around version object path before cache links).2.1.find? link = some entry := by
  induction links generalizing before cache with
  | nil => exact h
  | cons other links ih =>
    have hcandidate : (candidate around path before cache other).2.1.find? link = some entry := by
      rw [(candidate_get around path before cache other).2]
      exact Cache.find?_get_of_some h _ other
    exact ih hcandidate

theorem mem_of_mem_fits {around : Surroundings} {version : Version} {object : Object}
    {path : String} {before : List Finding} {cache : Cache} {links : List String}
    {fitting : String × Fit}
    (h : fitting ∈ (fits around version object path before cache links).1) :
    fitting.1 ∈ links := by
  induction links generalizing before cache with
  | nil => simp [fits] at h
  | cons link links ih =>
    simp only [fits] at h
    split at h
    · rcases List.mem_cons.1 h with rfl | h
      · exact List.mem_cons_self
      · exact List.mem_cons_of_mem _ (ih h)
    · exact List.mem_cons_of_mem _ (ih h)

theorem mem_of_mem_withFit {fit : Fit} {fitting : List (String × Fit)} {link : String}
    (h : link ∈ withFit fit fitting) : (link, fit) ∈ fitting := by
  obtain ⟨⟨_, f⟩, hmem, rfl⟩ := List.mem_map.1 h
  obtain ⟨hmem, hfit⟩ := List.mem_filter.1 hmem
  exact of_decide_eq_true hfit ▸ hmem

/-- The link that a resolution settles on, if on any. -/
def chosen? : Resolution → Option String
  | .resolved link => some link
  | .ambiguous link _ => some link
  | .unresolved => none

/-- Nothing is chosen that does not fit. -/
theorem mem_of_chosen? {fitting : List (String × Fit)} {link : String}
    (h : (ofFits fitting).chosen? = some link) : ∃ fit, (link, fit) ∈ fitting ∧ fit ≠ .none := by
  have hcollapse : link ∈ collapse (if (withFit .strong fitting).isEmpty
      then withFit .weak fitting else withFit .strong fitting) := by
    unfold ofFits at h
    dsimp only at h
    split at h <;> simp_all [chosen?]
  rw [mem_collapse] at hcollapse
  split at hcollapse
  · exact ⟨.weak, mem_of_mem_withFit hcollapse, by simp⟩
  · exact ⟨.strong, mem_of_mem_withFit hcollapse, by simp⟩

end Resolution

namespace Session

theorem mem_of_chooseLink {around : Surroundings} {s : Session} {object : Object}
    {links : List String} {parent label path link : String}
    (h : (s.chooseLink around object links parent label path).1 = some link) : link ∈ links := by
  unfold chooseLink at h
  split at h
  · cases h; exact List.mem_singleton_self _
  · simp only [Resolution.resolve] at h
    have hchosen : (Resolution.ofFits (Resolution.fits around s.version object path s.findings
        s.cache links).1).chosen? = some link := by
      split at h <;> simp_all [Resolution.chosen?]
    obtain ⟨fit, hfit, _⟩ := Resolution.mem_of_chosen? hchosen
    exact Resolution.mem_of_mem_fits hfit

/-- A choice that fails is reported. -/
theorem findings_of_chooseLink {around : Surroundings} {s : Session} {object : Object}
    {links : List String} {parent label path : String}
    (h : (s.chooseLink around object links parent label path).1 = none) :
    (s.chooseLink around object links parent label path).2.findings ≠ [] := by
  unfold chooseLink at h ⊢
  split at h
  · cases h
  · simp only [Resolution.resolve] at h ⊢
    split at h
    · cases h
    · cases h
    · simp [report]

end Session

end PdfConform
