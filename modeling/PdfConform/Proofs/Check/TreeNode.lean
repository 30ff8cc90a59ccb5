import Mathlib.Data.List.Basic
import PdfConform.Proofs.Check.TreeStep

/-! What the keys and the limits of a tree node have to be like, and that a visit which
reports neither a violation of limits nor a malformed node has found them so. -/
namespace PdfConform

namespace TreeKey

instance : LE TreeKey := ⟨fun a b => b.lt a = false⟩

instance : DecidableLE TreeKey := fun a b => inferInstanceAs (Decidable (b.lt a = false))

theorem le_trans {a b c : TreeKey} (h : a ≤ b) (k : b ≤ c) : a ≤ c := by
  have hba : b.lt a = false := h
  have hcb : c.lt b = false := k
  change c.lt a = false
  by_contra hca
  rw [Bool.not_eq_false] at hca
  cases hab : a.lt b with
  | true => rw [lt_trans hca hab] at hcb; cases hcb
  | false => rw [eq_of_not_lt hab hba, hcb] at hca; cases hca

end TreeKey

namespace Limits

def Contains (l : Limits) (key : TreeKey) : Prop := l.low ≤ key ∧ key ≤ l.high

def Within (inner outer : Limits) : Prop := outer.low ≤ inner.low ∧ inner.high ≤ outer.high

theorem contains_iff {l : Limits} {key : TreeKey} : l.Contains key ↔ l.excludes key = false := by
  rw [excludes, Bool.or_eq_false_iff]
  exact Iff.rfl

theorem Within.trans {a b c : Limits} (h : a.Within b) (k : b.Within c) : a.Within c :=
  ⟨TreeKey.le_trans k.1 h.1, TreeKey.le_trans h.2 k.2⟩

theorem Within.contains {inner outer : Limits} (h : inner.Within outer) {key : TreeKey}
    (hkey : inner.Contains key) : outer.Contains key :=
  ⟨TreeKey.le_trans h.1 hkey.1, TreeKey.le_trans hkey.2 h.2⟩

end Limits

namespace Tree

/-- The keys of a node, none where it has no entries, and all of the tree's kind. -/
inductive HasKeys (t : Tree) (store : Store) : Object → List TreeKey → Prop
  | none {d : Dictionary} :
    value? store d t.kind.entriesKey = .none → HasKeys t store (.dictionary d) []
  | entries {d : Dictionary} {items : List Object} {keys : List TreeKey} :
    value? store d t.kind.entriesKey = some (.array items) →
    t.keys store items = keys.map some → HasKeys t store (.dictionary d) keys

/-- The limits of a node are two keys in order. -/
inductive HasLimits (t : Tree) (store : Store) : Object → Limits → Prop
  | bounds {d : Dictionary} {low high : Object} {limits : Limits} :
    value? store d "Limits" = some (.array [low, high]) →
    t.keyOf? store low = some limits.low → t.keyOf? store high = some limits.high →
    limits.low ≤ limits.high → HasLimits t store (.dictionary d) limits

variable {t : Tree} {store : Store}

theorem HasKeys.exists_dictionary {object : Object} {keys : List TreeKey}
    (h : t.HasKeys store object keys) : ∃ d, object = .dictionary d := by
  cases h <;> exact ⟨_, rfl⟩

theorem HasKeys.unique {object : Object} {keys keys' : List TreeKey}
    (h : t.HasKeys store object keys) (h' : t.HasKeys store object keys') : keys = keys' := by
  cases h with
  | none hnone =>
    cases h' with
    | none => rfl
    | entries hentries => rw [hnone] at hentries; cases hentries
  | entries hentries hkeys =>
    cases h' with
    | none hnone => rw [hentries] at hnone; cases hnone
    | entries hentries' hkeys' =>
      rw [hentries] at hentries'
      cases hentries'
      rw [hkeys] at hkeys'
      exact List.map_injective_iff.2 (fun _ _ => Option.some.inj) hkeys'

theorem hasLimits_of_limits {d : Dictionary} {limits : Limits}
    (h : t.limits store d = .ok limits) : t.HasLimits store (.dictionary d) limits := by
  unfold Tree.limits at h
  split at h
  · cases h
  · next low high hbounds =>
    split at h
    · next lowKey highKey hlow hhigh =>
      dsimp only at h
      split at h
      · cases h
      · next horder =>
        cases h
        exact .bounds hbounds hlow hhigh (Bool.eq_false_iff.2 horder)
    · cases h
  · cases h
  · cases h

theorem HasLimits.eq_ok {d : Dictionary} {limits : Limits}
    (h : t.HasLimits store (.dictionary d) limits) : t.limits store d = .ok limits := by
  obtain ⟨hbounds, hlow, hhigh, horder⟩ := h
  have horder : limits.high.lt limits.low = false := horder
  simp [Tree.limits, hbounds, hlow, hhigh, horder]

theorem HasLimits.exists_dictionary {object : Object} {limits : Limits}
    (h : t.HasLimits store object limits) : ∃ d, object = .dictionary d := by
  cases h
  exact ⟨_, rfl⟩

theorem HasLimits.unique {object : Object} {limits limits' : Limits}
    (h : t.HasLimits store object limits) (h' : t.HasLimits store object limits') :
    limits = limits' := by
  obtain ⟨d, rfl⟩ := h.exists_dictionary
  have hok := h.eq_ok
  rw [h'.eq_ok] at hok
  exact (Except.ok.inj hok).symm

end Tree

def Finding.isTrouble (f : Finding) : Bool :=
  f.kind = .limitsViolation || f.kind = .malformedContainer

namespace Session

def troubles (s : Session) : Nat := s.findings.countP Finding.isTrouble

/-- From one session to a later one nothing was found that makes a tree unsound. -/
structure Quiet (s s' : Session) : Prop where
  grows : Grows s s'
  troubles : s'.troubles = s.troubles

theorem Grows.troubles_le {s s' : Session} (h : Grows s s') : s.troubles ≤ s'.troubles :=
  h.findings.sublist.countP_le

theorem Quiet.first {a b c : Session} (h : Quiet a c) (hab : Grows a b) (hbc : Grows b c) :
    Quiet a b := by
  have hfirst := hab.troubles_le
  have hlast := hbc.troubles_le
  have hwhole := h.troubles
  exact ⟨hab, by omega⟩

theorem Quiet.second {a b c : Session} (h : Quiet a c) (hab : Grows a b) (hbc : Grows b c) :
    Quiet b c := by
  have hfirst := (h.first hab hbc).troubles
  have hwhole := h.troubles
  exact ⟨hbc, by omega⟩

theorem Quiet.not_report {s s' : Session} (h : Quiet s s') {f : Finding}
    (hf : f.isTrouble = true) : ¬Grows (s.report [f]) s' := by
  intro hrest
  have hreport : (s.report [f]).troubles = s.troubles + 1 := by
    simp [Session.troubles, report, hf]
  have hquiet := (h.first (grows_report s [f]) hrest).troubles
  omega

variable {around : Surroundings} {t : Tree} {limits : Option Limits} {path : String}

theorem grows_readPair (k : Keys) (pair : (Object × Option Object) × Nat) :
    Grows k.session (readPair around t limits path k pair).session :=
  grows_trace (readPair_trace around t limits path k pair)

theorem grows_readPairs (around : Surroundings) (t : Tree) (limits : Option Limits)
    (path : String) (k : Keys) (pairs : List ((Object × Option Object) × Nat)) :
    Grows k.session (pairs.foldl (readPair around t limits path) k).session := by
  induction pairs generalizing k with
  | nil => exact .refl _
  | cons pair pairs ih => exact (grows_readPair k pair).trans (ih _)

/-- One key that was read without trouble: it does not drop below the one before. -/
theorem readPair_of_quiet {k : Keys} (hsorted : k.unsorted = false)
    {pair : (Object × Option Object) × Nat}
    (hquiet : Quiet k.session (readPair around t limits path k pair).session) :
    ∃ key, t.keyOf? around.store pair.1.1 = some key ∧
      (∀ previous, k.previous = some previous → previous ≤ key) ∧
      (readPair around t limits path k pair).previous = some key ∧
      (readPair around t limits path k pair).unsorted = false ∧
      (readPair around t limits path k pair).outside =
        (k.outside || limits.any (·.excludes key)) := by
  cases hkey : t.keyOf? around.store pair.1.1 with
  | none =>
    simp only [readPair, hkey] at hquiet
    exact absurd (Grows.refl _) (hquiet.not_report rfl)
  | some key =>
    cases hdrops : k.previous.any key.lt with
    | true =>
      have hreported : Grows (k.session.report [t.finding .malformedContainer path
          (t.kind.entriesKey ++ " keys are not sorted at " ++ key.label)])
          (readPair around t limits path k pair).session := by
        simp only [readPair, hkey, hsorted, hdrops, Bool.not_false, Bool.and_self, if_true]
        cases pair.1.2 with
        | none => exact .refl _
        | some value => exact grows_trace (scheduleValue_trace around t _ key value _)
      exact absurd hreported (hquiet.not_report rfl)
    | false =>
      refine ⟨key, rfl, ?_, ?_⟩
      · intro previous hprevious
        rw [hprevious] at hdrops
        exact hdrops
      · simp [readPair, hkey, hsorted, hdrops]

/-- Keys that were read without trouble do not decrease, and none before them is greater. -/
theorem readPairs_of_quiet {pairs : List ((Object × Option Object) × Nat)} {k : Keys}
    (hsorted : k.unsorted = false)
    (hquiet : Quiet k.session (pairs.foldl (readPair around t limits path) k).session) :
    ∃ keys : List TreeKey,
      pairs.map (fun pair => t.keyOf? around.store pair.1.1) = keys.map some ∧
      (∀ previous, k.previous = some previous → ∀ key ∈ keys, previous ≤ key) ∧
      keys.Pairwise (· ≤ ·) ∧
      (pairs.foldl (readPair around t limits path) k).outside =
        (k.outside || keys.any fun key => limits.any (·.excludes key)) := by
  induction pairs generalizing k with
  | nil => exact ⟨[], rfl, by simp, .nil, by simp⟩
  | cons pair pairs ih =>
    have hgrows := grows_readPairs around t limits path
      (readPair around t limits path k pair) pairs
    have hfirst := hquiet.first (grows_readPair k pair) hgrows
    have hrest := hquiet.second (grows_readPair k pair) hgrows
    obtain ⟨key, hkey, hprevious, hnext, hsorted, houtside⟩ := readPair_of_quiet hsorted hfirst
    obtain ⟨keys, hkeys, hafter, hpairwise, hall⟩ := ih hsorted hrest
    refine ⟨key :: keys, ?_, ?_, ?_, ?_⟩
    · rw [List.map_cons, hkey, hkeys, List.map_cons]
    · intro previous hold other hother
      rcases List.mem_cons.1 hother with rfl | hother
      · exact hprevious previous hold
      · exact TreeKey.le_trans (hprevious previous hold) (hafter key hnext other hother)
    · exact List.pairwise_cons.2 ⟨hafter key hnext, hpairwise⟩
    · rw [List.foldl_cons, hall, houtside, List.any_cons, Bool.or_assoc]

/-- Entries that were read without trouble are pairs with sorted keys. -/
theorem readEntries_of_quiet {s : Session} {entries : Object}
    (hquiet : Quiet s (s.readEntries around t limits path entries).2) :
    ∃ (items : List Object) (keys : List TreeKey), entries = .array items ∧
      t.keys around.store items = keys.map some ∧ keys.Pairwise (· ≤ ·) ∧
      (s.readEntries around t limits path entries).1 =
        keys.any fun key => limits.any (·.excludes key) := by
  cases entries with
  | array items =>
    simp only [readEntries] at hquiet ⊢
    generalize hodd : (if items.length % 2 = 0 then s else s.report [t.finding .malformedContainer
      path (t.kind.entriesKey ++ " has an odd number of elements (" ++
        Number.showNat items.length ++ ")")]) = counted at hquiet ⊢
    have hcounted : Grows s counted := by
      rw [← hodd]
      split
      · exact .refl s
      · exact grows_report s _
    have hread := grows_readPairs around t limits path ⟨counted, none, false, false⟩
      (Tree.pairs items).zipIdx
    obtain ⟨keys, hkeys, _, hpairwise, houtside⟩ :=
      readPairs_of_quiet rfl (hquiet.second hcounted hread)
    refine ⟨items, keys, rfl, ?_, hpairwise, ?_⟩
    · have hfst := congrArg (List.map fun pair => t.keyOf? around.store pair.1)
        (List.zipIdx_map_fst 0 (Tree.pairs items))
      rw [List.map_map] at hfst
      exact hfst.symm.trans hkeys
    · rw [houtside, Bool.false_or]
  | _ => exact absurd (Grows.refl _) (hquiet.not_report rfl)

/-- A node that was read without trouble: nothing is wrong with its limits, and its keys are
sorted and within them. -/
theorem readNode_of_quiet {s : Session} {node : TreeNode} {d : Dictionary}
    (hquiet : Quiet s (s.readNode around t node d)) :
    (nodeLimits around t node d).2 = none ∧
    ∃ keys, t.HasKeys around.store (.dictionary d) keys ∧ keys.Pairwise (· ≤ ·) ∧
      ∀ own, (nodeLimits around t node d).1 = some own → ∀ key ∈ keys, own.Contains key := by
  unfold readNode at hquiet
  generalize nodeLimits around t node d = judged at hquiet ⊢
  obtain ⟨limits, violation⟩ := judged
  dsimp only at hquiet ⊢
  cases hentries : Tree.value? around.store d t.kind.entriesKey with
  | none =>
    rw [hentries] at hquiet
    cases violation with
    | some message => exact absurd (Grows.refl _) (hquiet.not_report rfl)
    | none => exact ⟨rfl, [], .none hentries, .nil, by simp⟩
  | some entries =>
    rw [hentries] at hquiet
    cases violation with
    | some message =>
      have hread := grows_trace
        (readEntries_trace around t limits node.path (s.violate t node message) entries)
      have hjudge := fun s outside =>
        grows_trace (violateByKeys_trace around t s node limits (some message) outside)
      exact absurd (hread.trans (hjudge _ _)) (hquiet.not_report rfl)
    | none =>
      have hread := grows_trace (readEntries_trace around t limits node.path s entries)
      have hjudge := grows_trace (violateByKeys_trace around t
        (s.readEntries around t limits node.path entries).2 node limits none
        (s.readEntries around t limits node.path entries).1)
      simp only [Option.elim_none] at hquiet
      obtain ⟨items, keys, rfl, hkeys, hsorted, houtside⟩ :=
        readEntries_of_quiet (hquiet.first hread hjudge)
      have hjudged := hquiet.second hread hjudge
      refine ⟨rfl, keys, .entries hentries hkeys, hsorted, ?_⟩
      rintro own rfl key hkey
      rw [Limits.contains_iff]
      by_contra hexcluded
      have hout : (s.readEntries around t (some own) node.path (.array items)).1 = true := by
        rw [houtside, List.any_eq_true]
        exact ⟨key, hkey, by simpa using hexcluded⟩
      simp only [violateByKeys, hout, Option.isNone_none, Bool.and_self, if_true] at hjudged
      exact absurd (Grows.refl _) (hjudged.not_report rfl)

/-- Limits with which nothing is wrong lie within those of the parent, if it has any. -/
theorem hasLimits_of_nodeLimits {node : TreeNode} {d : Dictionary} (hroot : node.isRoot = false)
    (h : (nodeLimits around t node d).2 = none) :
    ∃ own, (nodeLimits around t node d).1 = some own ∧
      t.HasLimits around.store (.dictionary d) own ∧
      ∀ bounds, node.bounds = some bounds → own.Within bounds := by
  unfold nodeLimits at h ⊢
  rw [hroot] at h ⊢
  simp only [Bool.false_eq_true, if_false] at h ⊢
  cases hlimits : t.limits around.store d with
  | error message => simp [hlimits] at h
  | ok own =>
    refine ⟨own, rfl, Tree.hasLimits_of_limits hlimits, ?_⟩
    intro bounds hbounds
    simp only [hlimits, hbounds, Option.bind_some] at h
    split at h
    · cases h
    · next hinside =>
      rw [Bool.not_eq_true, Bool.or_eq_false_iff] at hinside
      exact hinside

theorem nodeLimits_of_hasLimits {node : TreeNode} {d : Dictionary} {own : Limits}
    (hroot : node.isRoot = false) (h : t.HasLimits around.store (.dictionary d) own) :
    (nodeLimits around t node d).1 = some own := by
  simp [nodeLimits, hroot, h.eq_ok]

theorem nodeLimits_of_isRoot {node : TreeNode} (d : Dictionary) (hroot : node.isRoot = true) :
    (nodeLimits around t node d).1 = none := by
  unfold nodeLimits
  rw [hroot]
  rfl

end Session

end PdfConform
