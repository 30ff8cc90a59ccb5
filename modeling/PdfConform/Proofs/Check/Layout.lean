import Mathlib.Data.List.Forall2
import PdfConform.Proofs.Check.TreeNode

/-! A tree as the document lays it out: every node with its child nodes in order. Its keys read in
that order are sorted if those of each node are and the child nodes of each follow one another. -/
namespace PdfConform

/-- A node of a tree and all below it. -/
inductive Layout
  | node (identity : Identity) (limits : Option Limits) (own : List TreeKey) (kids : List Layout)

namespace Layout

def identity : Layout → Identity
  | .node identity _ _ _ => identity

def limits : Layout → Option Limits
  | .node _ limits _ _ => limits

/-- The keys of the node itself. -/
def own : Layout → List TreeKey
  | .node _ _ own _ => own

def kids : Layout → List Layout
  | .node _ _ _ kids => kids

mutual

/-- All keys in the order of the document: those of a node before those below it. -/
def keys : Layout → List TreeKey
  | .node _ _ own kids => own ++ keysOf kids

def keysOf : List Layout → List TreeKey
  | [] => []
  | kid :: kids => kid.keys ++ keysOf kids

end

mutual

/-- All nodes, as often as they are reached. -/
def identities : Layout → List Identity
  | .node identity _ _ kids => identity :: identitiesOf kids

def identitiesOf : List Layout → List Identity
  | [] => []
  | kid :: kids => kid.identities ++ identitiesOf kids

end

theorem keysOf_eq (kids : List Layout) : keysOf kids = kids.flatMap keys := by
  induction kids with
  | nil => rfl
  | cons kid kids ih => rw [keysOf, ih, List.flatMap_cons]

theorem identitiesOf_eq (kids : List Layout) : identitiesOf kids = kids.flatMap identities := by
  induction kids with
  | nil => rfl
  | cons kid kids ih => rw [identitiesOf, ih, List.flatMap_cons]

/-- The identities of all nodes below the first. -/
def beneath (layout : Layout) : List Identity := identitiesOf layout.kids

theorem identities_eq (layout : Layout) :
    layout.identities = layout.identity :: layout.beneath := by
  cases layout
  rfl

/-- What is so of every node. -/
inductive All (P : Layout → Prop) : Layout → Prop
  | node {identity : Identity} {limits : Option Limits} {own : List TreeKey}
    {kids : List Layout} : P (.node identity limits own kids) → (∀ kid ∈ kids, All P kid) →
    All P (.node identity limits own kids)

theorem all_node_iff {P : Layout → Prop} {identity : Identity} {limits : Option Limits}
    {own : List TreeKey} {kids : List Layout} : All P (.node identity limits own kids) ↔
      P (.node identity limits own kids) ∧ ∀ kid ∈ kids, All P kid := by
  constructor
  · rintro ⟨hnode, hkids⟩
    exact ⟨hnode, hkids⟩
  · rintro ⟨hnode, hkids⟩
    exact .node hnode hkids

/-- No key of a child node or below it is greater than one of a later child node or below that. -/
def InOrder (layout : Layout) : Prop :=
  layout.kids.Pairwise fun a b => ∀ x ∈ a.keys, ∀ y ∈ b.keys, x ≤ y

/-- The limits of no child node end beyond where those of a later one begin. -/
def LimitsInOrder (layout : Layout) : Prop :=
  layout.kids.Pairwise fun a b => ∀ x ∈ a.limits, ∀ y ∈ b.limits, x.high ≤ y.low

/-- A node with sorted keys, which has no child nodes beside them. -/
structure Neat (layout : Layout) : Prop where
  sorted : layout.own.Pairwise (· ≤ ·)
  apart : layout.own = [] ∨ layout.kids = []

/-- The order of all keys comes down to that of child nodes among each other. -/
theorem sorted_iff {layout : Layout} (h : layout.All Neat) :
    layout.keys.Pairwise (· ≤ ·) ↔ layout.All InOrder := by
  induction h with
  | @node identity limits own kids hneat _ ih =>
    rw [all_node_iff, keys, keysOf_eq]
    rcases hneat.apart with hown | hkids
    · obtain rfl : own = [] := hown
      rw [List.nil_append, List.pairwise_flatMap, and_comm]
      exact and_congr Iff.rfl (forall₂_congr ih)
    · obtain rfl : kids = [] := hkids
      have hsorted : own.Pairwise (· ≤ ·) := hneat.sorted
      simpa [InOrder, Layout.kids] using hsorted

/-- Limits that lie within those of the node above, and contain the keys of the node. -/
inductive Bounded : Option Limits → Layout → Prop
  | node {outer : Option Limits} {limits : Limits} {identity : Identity} {own : List TreeKey}
    {kids : List Layout} : (∀ bounds ∈ outer, limits.Within bounds) →
    (∀ key ∈ own, limits.Contains key) → (∀ kid ∈ kids, Bounded (some limits) kid) →
    Bounded outer (.node identity (some limits) own kids)

/-- The limits of a node contain the keys of all below it. -/
theorem Bounded.contains {outer : Option Limits} {layout : Layout} (h : layout.Bounded outer) :
    ∃ limits, layout.limits = some limits ∧ (∀ bounds ∈ outer, limits.Within bounds) ∧
      ∀ key ∈ layout.keys, limits.Contains key := by
  induction h with
  | @node outer limits identity own kids houter hown _ ih =>
    refine ⟨limits, rfl, houter, ?_⟩
    intro key hkey
    rw [keys, keysOf_eq, List.mem_append, List.mem_flatMap] at hkey
    rcases hkey with hkey | ⟨kid, hkid, hkey⟩
    · exact hown key hkey
    · obtain ⟨inner, _, hwithin, hcontains⟩ := ih kid hkid
      exact (hwithin limits rfl).contains (hcontains key hkey)

/-- Child nodes whose limits follow one another have keys that do. -/
theorem inOrder_of_limits {outer : Option Limits} {layout : Layout}
    (hkids : ∀ kid ∈ layout.kids, kid.Bounded outer) (h : layout.LimitsInOrder) :
    layout.InOrder := by
  refine h.imp_of_mem ?_
  intro a b ha hb hlimits x hx y hy
  obtain ⟨first, hfirst, _, hcontains⟩ := (hkids a ha).contains
  obtain ⟨second, hsecond, _, hcontains'⟩ := (hkids b hb).contains
  have hhigh : x ≤ first.high := (hcontains x hx).2
  have hlow : second.low ≤ y := (hcontains' y hy).1
  exact TreeKey.le_trans hhigh (TreeKey.le_trans (hlimits first hfirst second hsecond) hlow)

theorem Bounded.all_inOrder {outer : Option Limits} {layout : Layout} (h : layout.Bounded outer)
    (hlimits : layout.All LimitsInOrder) : layout.All InOrder := by
  induction h with
  | node _ _ hkids ih =>
    rw [all_node_iff] at hlimits ⊢
    exact ⟨inOrder_of_limits hkids hlimits.1, fun kid hkid => ih kid hkid (hlimits.2 kid hkid)⟩

/-- Where the limits of child nodes follow one another all keys are sorted. -/
theorem sorted_of_limits {layout : Layout} (hneat : layout.All Neat)
    (hkids : ∀ kid ∈ layout.kids, kid.Bounded none) (h : layout.All LimitsInOrder) :
    layout.keys.Pairwise (· ≤ ·) := by
  rw [sorted_iff hneat]
  obtain ⟨identity, limits, own, kids⟩ := layout
  rw [all_node_iff] at h ⊢
  exact ⟨inOrder_of_limits hkids h.1, fun kid hkid => (hkids kid hkid).all_inOrder (h.2 kid hkid)⟩

end Layout

def Place.identity (place : Place) : Identity := .of place.1 place.2

namespace Tree

def keysAt (t : Tree) (store : Store) : Object → List TreeKey
  | .dictionary d => (t.keys store (itemsOf? (value? store d t.kind.entriesKey))).filterMap id
  | _ => []

def limitsAt (t : Tree) (store : Store) : Object → Option Limits
  | .dictionary d => (t.limits store d).toOption
  | _ => none

/-- A node of the document has this layout. A node that leads back to itself has none. -/
inductive Unfolds (t : Tree) (store : Store) : Place → Layout → Prop
  | node {place : Place} {kids : List Layout} :
    List.Forall₂ (Unfolds t store) (childrenOf store place.1) kids →
    Unfolds t store place
      (.node place.identity (t.limitsAt store place.1) (t.keysAt store place.1) kids)

variable {t : Tree} {store : Store}

theorem Unfolds.kids {place : Place} {layout : Layout} (h : t.Unfolds store place layout) :
    List.Forall₂ (t.Unfolds store) (childrenOf store place.1) layout.kids := by
  obtain ⟨hkids⟩ := h
  exact hkids

theorem Unfolds.identity {place : Place} {layout : Layout} (h : t.Unfolds store place layout) :
    layout.identity = place.identity := by
  cases h
  rfl

theorem Unfolds.limits {place : Place} {layout : Layout} (h : t.Unfolds store place layout) :
    layout.limits = t.limitsAt store place.1 := by
  cases h
  rfl

theorem Unfolds.own {place : Place} {layout : Layout} (h : t.Unfolds store place layout) :
    layout.own = t.keysAt store place.1 := by
  cases h
  rfl

theorem HasKeys.keysAt {object : Object} {keys : List TreeKey}
    (h : t.HasKeys store object keys) : t.keysAt store object = keys := by
  cases h with
  | none hnone => simp [Tree.keysAt, hnone, itemsOf?, Tree.keys, pairs]
  | entries hentries hkeys =>
    simp [Tree.keysAt, hentries, itemsOf?, Object.asArray?, hkeys, List.filterMap_map]

theorem HasLimits.limitsAt {object : Object} {limits : Limits}
    (h : t.HasLimits store object limits) : t.limitsAt store object = some limits := by
  obtain ⟨d, rfl⟩ := h.exists_dictionary
  rw [Tree.limitsAt, h.eq_ok]
  rfl

theorem identity_of_unfolds {places : List Place} {kids : List Layout}
    (h : List.Forall₂ (t.Unfolds store) places kids) :
    kids.map Layout.identity = places.map Place.identity := by
  induction h with
  | nil => rfl
  | cons hfirst _ ih => rw [List.map_cons, List.map_cons, hfirst.identity, ih]

end Tree

end PdfConform
