import PdfConform.Proofs.Check.BestFit

/-! Candidates that stand more than once among the links. Only repeats that follow each other are
dropped from the links of an ambiguous resolution: a link is named again wherever another link that
fits as well stands between, and with repeats left out of the candidates it would not be. -/
namespace PdfConform

section Lists

variable {α : Type} [DecidableEq α]

theorem filter_eraseDups (p : α → Bool) (l : List α) :
    l.eraseDups.filter p = (l.filter p).eraseDups := by
  cases l with
  | nil => rfl
  | cons a l =>
    rw [List.eraseDups_cons, List.filter_cons, filter_eraseDups p (l.filter fun b => !b == a),
      List.filter_cons, List.filter_filter]
    by_cases ha : p a
    · rw [if_pos ha, if_pos ha, List.eraseDups_cons, List.filter_filter]
      simp only [Bool.and_comm]
    · rw [if_neg ha, if_neg ha]
      congr 1
      refine List.filter_congr fun b _ => ?_
      by_cases hb : b = a
      · simp [hb, ha]
      · simp [hb]
termination_by l.length
decreasing_by exact Nat.lt_succ_of_le (List.length_filter_le _ l)

theorem nodup_eraseDups (l : List α) : l.eraseDups.Nodup := by
  cases l with
  | nil => exact List.nodup_nil
  | cons a l =>
    rw [List.eraseDups_cons, List.nodup_cons]
    refine ⟨fun ha => ?_, nodup_eraseDups _⟩
    simpa using (List.mem_filter.1 (List.mem_eraseDups.1 ha)).2
termination_by l.length
decreasing_by exact Nat.lt_succ_of_le (List.length_filter_le _ l)

theorem eraseDups_of_nodup {l : List α} (h : l.Nodup) : l.eraseDups = l := by
  induction l with
  | nil => rfl
  | cons a l ih =>
    rw [List.nodup_cons] at h
    have hkept : (l.filter fun b => !b == a) = l :=
      List.filter_eq_self.2 fun b hb => by simpa using ne_of_mem_of_not_mem hb h.1
    rw [List.eraseDups_cons, hkept, ih h.2]

omit [DecidableEq α] in
/-- Where no two neighbours are the same, something else stands between two that are. -/
theorem exists_between_of_isChain {a : α} {l : List α} (hchain : l.IsChain (· ≠ ·))
    (h : [a, a].Sublist l) : ∃ b, b ≠ a ∧ [a, b, a].Sublist l := by
  induction l with
  | nil => cases h
  | cons c l ih =>
    cases h with
    | cons _ h =>
      obtain ⟨b, hb, hsub⟩ := ih hchain.tail h
      exact ⟨b, hb, hsub.cons c⟩
    | cons_cons _ h =>
      cases l with
      | nil => cases h
      | cons b l =>
        have hdiffer : a ≠ b := (List.isChain_cons_cons.1 hchain).1
        have ha : a ∈ l := by
          rcases List.mem_cons.1 (List.singleton_sublist.1 h) with hsame | ha
          · exact absurd hsame hdiffer
          · exact ha
        exact ⟨b, hdiffer.symm, ((List.singleton_sublist.2 ha).cons_cons b).cons_cons a⟩

end Lists

namespace Resolution

/-- The same outcome with no link named again. -/
def distinct : Resolution → Resolution
  | .ambiguous chosen matching => .ambiguous chosen matching.eraseDups
  | resolution => resolution

/-- The links an ambiguous resolution names. -/
def matching : Resolution → List String
  | .ambiguous _ matching => matching
  | _ => []

theorem eraseDups_collapse (links : List String) :
    (collapse links).eraseDups = links.eraseDups := by
  fun_induction collapse links with
  | case1 link rest ih => rw [ih]; simp [List.eraseDups_cons]
  | case2 a b rest h ih =>
    rw [List.eraseDups_cons, ← filter_eraseDups, ih, filter_eraseDups, ← List.eraseDups_cons]
  | case3 links h => rfl

theorem collapse_of_nodup {links : List String} (h : links.Nodup) : collapse links = links := by
  rw [collapse_eq_destutter]
  exact List.destutter_of_isChain _ links (List.Pairwise.isChain h)

/-- Links of which no two neighbours are the same are still there when runs become one. -/
theorem sublist_collapse {chain links : List String} (hchain : chain.IsChain (· ≠ ·))
    (h : chain.Sublist links) : chain.Sublist (collapse links) := by
  fun_induction collapse links generalizing chain with
  | case1 link rest ih =>
    refine ih hchain ?_
    cases h with
    | cons _ h => exact h
    | cons_cons _ h =>
      cases h with
      | cons _ h => exact h.cons_cons link
      -- Both of two equal neighbours cannot be in the chain.
      | cons_cons _ h => exact absurd rfl (List.isChain_cons_cons.1 hchain).1
  | case2 a b rest hdiffer ih =>
    cases h with
    | cons _ h => exact (ih hchain h).cons a
    | cons_cons _ h => exact (ih hchain.tail h).cons_cons a
  | case3 links _ => exact h

theorem nodup_collapse_iff {links : List String} :
    (collapse links).Nodup ↔ ∀ a b, [a, b, a].Sublist links → b = a := by
  constructor
  · intro hnodup a b hsub
    by_contra hdiffer
    have hkept : [a, b, a].Sublist (collapse links) :=
      sublist_collapse (by simp [Ne.symm hdiffer, hdiffer]) hsub
    have hrepeat : [a, a].Sublist [a, b, a] := by simp
    exact List.nodup_iff_sublist.1 hnodup a (hrepeat.trans hkept)
  · intro hnone
    rw [List.nodup_iff_sublist]
    intro a hrepeat
    rw [collapse_eq_destutter] at hrepeat
    obtain ⟨b, hdiffer, hsub⟩ :=
      exists_between_of_isChain (List.isChain_destutter (· ≠ ·) links) hrepeat
    exact hdiffer (hnone a b (hsub.trans (List.destutter_sublist _ links)))

theorem best_eraseDups (fit? : String → Option Fit) (links : List String) :
    best fit? links.eraseDups = (best fit? links).eraseDups := by
  have hnil (l : List String) : l.eraseDups = [] ↔ l = [] := by
    simp only [List.eq_nil_iff_forall_not_mem, List.mem_eraseDups]
  simp only [best, filter_eraseDups, hnil]
  split <;> rfl

theorem ofBest_eraseDups (best : List String) : ofBest best.eraseDups = (ofBest best).distinct := by
  unfold ofBest
  rw [collapse_of_nodup (nodup_eraseDups best), ← eraseDups_collapse]
  rcases hcollapse : collapse best with _ | ⟨first, _ | ⟨second, more⟩⟩
  · rfl
  · rfl
  · have hkept : ((second :: more).filter fun link => !link == first) =
        second :: more.filter fun link => !link == first :=
      List.filter_cons_of_pos (by simpa using (ne_of_collapse hcollapse).symm)
    simp only [distinct, List.eraseDups_cons, hkept]

theorem distinct_eq_self_iff {resolution : Resolution} :
    resolution.distinct = resolution ↔ resolution.matching.Nodup := by
  cases resolution with
  | unresolved => simp [distinct, matching]
  | resolved link => simp [distinct, matching]
  | ambiguous chosen links =>
    simp only [distinct, matching, ambiguous.injEq, true_and]
    exact ⟨fun h => h ▸ nodup_eraseDups links, eraseDups_of_nodup⟩

theorem matching_distinct (resolution : Resolution) :
    resolution.distinct.matching = resolution.matching.eraseDups := by
  cases resolution <;> rfl

theorem distinct_ofBest_eq_self_iff (best : List String) :
    (ofBest best).distinct = ofBest best ↔ ∀ a b, [a, b, a].Sublist best → b = a := by
  rw [distinct_eq_self_iff, ← nodup_collapse_iff]
  unfold ofBest
  rcases collapse best with _ | ⟨first, _ | ⟨second, more⟩⟩ <;> simp [matching]

theorem isChain_matching_ofBest (best : List String) :
    (ofBest best).matching.IsChain (· ≠ ·) := by
  have hchain := List.isChain_destutter (· ≠ ·) best
  rw [← collapse_eq_destutter] at hchain
  unfold ofBest
  split
  · exact List.isChain_nil
  · exact List.isChain_nil
  · next hcollapse => exact hcollapse ▸ hchain

/-- While the files stay, leaving repeats out of the candidates leaves the outcome and the chosen
link as they are, and no link is named again. That is all the same as before unless, of those that
fit best, a link stands again behind another one. -/
theorem resolve_eraseDups (fs : Files) (store : Store) (version : Version) (object : Object)
    (path : String) (before : List Finding) (cache : Cache) (candidates : List String) :
    let whole := (resolve (.still fs store) version object path before cache candidates).1
    let once := (resolve (.still fs store) version object path before cache candidates.eraseDups).1
    let fit? := fitIn (fun link => (cache.view fs link).toOption) store version object
    once = whole.distinct ∧ once.matching.Nodup ∧ whole.matching.IsChain (· ≠ ·) ∧
      (once = whole ↔ ∀ a b, [a, b, a].Sublist (best fit? candidates) → b = a) := by
  intro whole once fit?
  have hwhole : whole = ofBest (best fit? candidates) :=
    resolve_still_eq_ofBest fs store version object path before cache candidates
  have honce : once = whole.distinct := by
    rw [hwhole, ← ofBest_eraseDups, ← best_eraseDups]
    exact resolve_still_eq_ofBest fs store version object path before cache candidates.eraseDups
  refine ⟨honce, ?_, ?_, ?_⟩
  · rw [honce, matching_distinct]
    exact nodup_eraseDups _
  · rw [hwhole]
    exact isChain_matching_ofBest _
  · rw [honce, hwhole]
    exact distinct_ofBest_eq_self_iff _

end Resolution

/-! Two tables that fit every dictionary. -/
namespace Twins

def cache : Cache :=
  ⟨Cycle.folder, [("Ring", .ok Cycle.table), ("Loop", .ok { Cycle.table with link := "Loop" })]⟩

def resolved (candidates : List String) : Resolution × Cache × List Finding :=
  Resolution.resolve Cycle.around .two (.dictionary []) "" [] cache candidates

end Twins

/-- A link is named again behind another one that fits as well. -/
theorem Resolution.named_again_twins :
    let repeated := ["Ring", "Loop", "Ring"]
    (Twins.resolved repeated).1 = .ambiguous "Ring" ["Ring", "Loop", "Ring"] ∧
      ¬ (Twins.resolved repeated).1.matching.Nodup ∧
      (Twins.resolved repeated.eraseDups).1 = .ambiguous "Ring" ["Ring", "Loop"] ∧
      (Twins.resolved repeated.eraseDups).1 ≠ (Twins.resolved repeated).1 := by
  refine ⟨?_, ?_, ?_, ?_⟩ <;> decide +kernel

end PdfConform
