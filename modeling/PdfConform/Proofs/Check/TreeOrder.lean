import PdfConform.Proofs.Check.TreeGather
import PdfConform.Proofs.Check.TreeWalk
import PdfConform.Proofs.Check.Ways

/-! Order across a tree. A walk that finds nothing has seen sorted keys at every node, and limits
that contain all keys below, but it never compares child nodes with each other: their order is all
that is left for the keys of the whole tree to be sorted. -/
namespace PdfConform

namespace Session

variable {around : Surroundings} {t : Tree}

theorem not_grows_report {s s' : Session} (hclean : s'.findings = s.findings) (f : Finding) :
    ¬Grows (s.report [f]) s' := by
  intro hgrows
  have hlength := hgrows.findings.length_le
  rw [hclean, report, List.length_append, List.length_singleton] at hlength
  omega

theorem Grows.findings_eq {a b c : Session} (hab : Grows a b) (hbc : Grows b c)
    (h : c.findings = a.findings) : b.findings = a.findings ∧ c.findings = b.findings := by
  have hfirst := hab.findings.length_le
  have hsecond := hbc.findings.length_le
  rw [h] at hsecond
  have hsame : b.findings = a.findings :=
    (hab.findings.eq_of_length (Nat.le_antisymm hfirst hsecond)).symm
  exact ⟨hsame, h.trans hsame.symm⟩

theorem grows_readShape_visitNode {s : Session} {node : TreeNode} {d : Dictionary}
    (hd : node.object = .dictionary d) :
    Grows ((s.note (.visited t.title node.path)).readShape around t node d)
      (s.visitNode around t node).1 := by
  unfold visitNode
  dsimp only
  rw [hd]
  dsimp only
  generalize (s.note (.visited t.title node.path)).readShape around t node d = shaped
  have hread := grows_trace (readNode_trace around t shaped node d)
  split
  · exact hread
  · next kids _ =>
    exact hread.trans (Walk.grows_trace (meetKids_trace around t _ node.path _ kids))

/-- A visit that finds nothing sees entries or child nodes, not both. -/
theorem apart_of_clean {s : Session} {node : TreeNode} {d : Dictionary}
    (hd : node.object = .dictionary d)
    (hclean : (s.visitNode around t node).1.findings = s.findings) :
    Tree.value? around.store d t.kind.entriesKey = none ∨
      Tree.value? around.store d "Kids" = none := by
  by_contra hboth
  rw [not_or, ← ne_eq, ← ne_eq, Option.ne_none_iff_isSome, Option.ne_none_iff_isSome] at hboth
  have hnoted : (s.visitNode around t node).1.findings =
      (s.note (.visited t.title node.path)).findings := hclean
  have hgrows : Grows ((s.note (.visited t.title node.path)).readShape around t node d)
      (s.visitNode around t node).1 := grows_readShape_visitNode hd
  simp only [readShape, hboth.1, hboth.2, Bool.and_self, if_true] at hgrows
  exact not_grows_report hnoted _ hgrows

end Session

/-- What a walk that finds nothing leaves known of a node and all below it. -/
structure TreeNode.Tidy (node : TreeNode) (layout : Layout) : Prop where
  neat : layout.All Layout.Neat
  bounded : node.isRoot = false → layout.Bounded node.bounds
  kids : node.isRoot = true → ∀ kid ∈ layout.kids, kid.Bounded none

namespace Walk

open Session

variable {around : Surroundings} {t : Tree}

section Visit

variable {s : Session} {node : TreeNode} {layout : Layout} {reference : Option ObjectId}
  (hlayout : t.Unfolds around.store (node.object, reference) layout)
  (hclean : (s.visitNode around t node).1.findings = s.findings)

include hclean in
theorem sound_of_clean_visit : node.Sound t around.store :=
  sound_of_visit ⟨grows_visitNode around t s node, by rw [troubles, hclean, troubles]⟩

include hlayout hclean in
theorem neat_of_visit {d : Dictionary} (hd : node.object = .dictionary d) : layout.Neat := by
  obtain ⟨keys, hkeys, hsorted⟩ := (sound_of_clean_visit hclean).keys
  have hown : layout.own = keys := hlayout.own.trans hkeys.keysAt
  refine ⟨hown ▸ hsorted, ?_⟩
  rw [hd] at hkeys
  rcases apart_of_clean hd hclean with hentries | hnokids
  · left
    rw [hown]
    cases hkeys with
    | none => rfl
    | entries hsome => rw [hentries] at hsome; cases hsome
  · right
    have hunfolds := hlayout.kids
    rw [hd] at hunfolds
    simpa [Tree.childrenOf, hnokids, Tree.itemsOf?] using hunfolds

/-- Child nodes go on with the limits that the visit has for them. -/
theorem kid_of_visit {d : Dictionary} (hd : node.object = .dictionary d)
    {met : List (TreeNode × Layout)} (hmet : (s.visitNode around t node).2 = met.map Prod.fst)
    (hkids : met.map Prod.snd = layout.kids) (htidy : ∀ p ∈ met, p.1.Tidy p.2) {kid : Layout}
    (hkid : kid ∈ layout.kids) :
    kid.All Layout.Neat ∧ kid.Bounded (nodeLimits around t node d).1 := by
  rw [← hkids] at hkid
  obtain ⟨p, hp, rfl⟩ := List.mem_map.1 hkid
  have hwaits : p.1 ∈ (s.visitNode around t node).2 := hmet ▸ List.mem_map_of_mem hp
  have hknown : (fun _ : Object => True) node.object := trivial
  obtain ⟨d', hd', hfound⟩ := met_of_mem_visitNode around.store.closed_true.spans hknown hwaits
  rw [hd] at hd'
  cases hd'
  rw [← hfound.bounds]
  exact ⟨(htidy p hp).neat, (htidy p hp).bounded hfound.notRoot⟩

include hlayout hclean in
/-- A node is tidy if those below it are that a visit without findings has met. -/
theorem tidy_of_visit {met : List (TreeNode × Layout)}
    (hmet : (s.visitNode around t node).2 = met.map Prod.fst)
    (hkids : met.map Prod.snd = layout.kids) (htidy : ∀ p ∈ met, p.1.Tidy p.2) :
    node.Tidy layout := by
  have hsound := sound_of_clean_visit hclean
  obtain ⟨d, hd⟩ : ∃ d, node.object = .dictionary d := by
    obtain ⟨keys, hkeys, _⟩ := hsound.keys
    exact hkeys.exists_dictionary
  have hneat := neat_of_visit hlayout hclean hd
  have hkid : ∀ kid ∈ layout.kids,
      kid.All Layout.Neat ∧ kid.Bounded (nodeLimits around t node d).1 :=
    fun _ hmem => kid_of_visit hd hmet hkids htidy hmem
  obtain ⟨identity, limits, own, kids⟩ := layout
  refine ⟨?_, ?_, ?_⟩
  · exact Layout.all_node_iff.2 ⟨hneat, fun kid hmem => (hkid kid hmem).1⟩
  · intro hroot
    obtain ⟨bounds, hlimits, hinside, hwithin⟩ := hsound.limits hroot
    obtain ⟨keys, hkeys, _⟩ := hsound.keys
    obtain rfl : limits = some bounds := hlayout.limits.trans hlimits.limitsAt
    obtain rfl : own = keys := hlayout.own.trans hkeys.keysAt
    rw [hd] at hlimits
    refine .node hwithin (hinside own hkeys) fun kid hmem => ?_
    rw [← nodeLimits_of_hasLimits hroot hlimits]
    exact (hkid kid hmem).2
  · intro hroot kid hmem
    rw [← nodeLimits_of_isRoot d hroot]
    exact (hkid kid hmem).2

end Visit

theorem tidy_of_visits {w : Walk} {last : Session} (hvisits : Visits around t w (last, []))
    {pending : List (TreeNode × Layout)} (hw : w.2 = pending.map Prod.fst)
    (hawaits : Awaits t around.store w.1 pending) (hclean : last.findings = w.1.findings) :
    ∀ p ∈ pending, p.1.Tidy p.2 := by
  induction hvisits using Relation.ReflTransGen.head_induction_on generalizing pending with
  | refl =>
    rw [eq_comm, List.map_eq_nil_iff] at hw
    simp [hw]
  | head hvisit hrest ih =>
    cases hvisit with
    | first s node rest =>
      rw [eq_comm, List.map_eq_cons_iff] at hw
      obtain ⟨⟨node, layout⟩, others, rfl, rfl, rfl⟩ := hw
      obtain ⟨met, hmet, hkids, hlater⟩ := hawaits.visit
      have hlast : Grows (s.visitNode around t node).1 last := Visits.grows hrest
      obtain ⟨hvisit, hrestClean⟩ := (grows_visitNode around t s node).findings_eq hlast hclean
      have htidy := ih (by rw [List.map_append, hmet]) hlater hrestClean
      obtain ⟨reference, hlayout⟩ := hawaits.unfolds _ List.mem_cons_self
      refine List.forall_mem_cons.2 ⟨?_, fun p hp => htidy p (List.mem_append_left _ hp)⟩
      exact tidy_of_visit hlayout hvisit hmet hkids fun p hp => htidy p (List.mem_append_right _ hp)

/-- Order of a tree in which no node is reached twice, and none was before, under a walk that finds
nothing. The tree has a layout, and its keys in the order of the document are sorted if and only if
the child nodes of every node have theirs one after another; as they have if their limits follow
one another. -/
theorem sorted_iff_of_clean (around : Surroundings) (t : Tree) {root : Object}
    {reference : Option ObjectId} {s : Session} (path : String)
    (honce : Tree.ReachedOnce around.store (root, reference))
    (hfresh : ∀ way place, Tree.placeAt around.store (root, reference) way = some place →
      (Place.identity place, t.title) ∉ s.record.pairs)
    (hclean : (s.walkTree around t root reference path).findings = s.findings) :
    ∃ layout, t.Unfolds around.store (root, reference) layout ∧
      (layout.keys.Pairwise (· ≤ ·) ↔ layout.All Layout.InOrder) ∧
      (layout.All Layout.LimitsInOrder → layout.keys.Pairwise (· ≤ ·)) := by
  obtain ⟨layout, hlayout, hnodup⟩ := (Tree.reachedOnce_iff (t := t)).1 honce
  have hnew : ∀ identity ∈ layout.identities, (identity, t.title) ∉ s.record.pairs := by
    intro identity hidentity
    obtain ⟨way, place, hplace, rfl⟩ := hlayout.mem_identities.1 hidentity
    exact hfresh way place hplace
  have hroot : (Identity.of root reference, t.title) ∉ s.record.pairs :=
    hfresh [] (root, reference) rfl
  rw [Layout.identities_eq, List.nodup_cons] at hnodup
  have hawaits : Awaits t around.store (start s t root reference path).1
      [(⟨root, path, none, true⟩, layout)] := by
    refine ⟨?_, ?_, ?_⟩
    · simpa only [List.mem_singleton, forall_eq] using ⟨reference, hlayout⟩
    · simpa using hnodup.2
    · intro identity hidentity hold
      have hbeneath : identity ∈ layout.beneath := by simpa using hidentity
      rcases Record.mem_pairs_insert.1 hold with hold | hsame
      · refine hnew identity ?_ hold
        rw [Layout.identities_eq]
        exact List.mem_cons_of_mem _ hbeneath
      · obtain rfl : identity = Place.identity (root, reference) := congrArg Prod.fst hsame
        exact hnodup.1 (hlayout.identity ▸ hbeneath)
  have htidy : TreeNode.Tidy ⟨root, path, none, true⟩ layout :=
    tidy_of_visits (visits_walkTree around t hroot path) rfl hawaits hclean _
      (List.mem_singleton_self _)
  exact ⟨layout, hlayout, Layout.sorted_iff htidy.neat,
    Layout.sorted_of_limits htidy.neat (htidy.kids rfl)⟩

end Walk

/-! A name tree of a root and two leaves, in either order. -/
namespace Leaves

def id (n : UInt32) : ObjectId := ⟨n, 0⟩

def leaf (low high : String) : Object :=
  .dictionary [("Limits", .array [.string low, .string high]),
    ("Names", .array [.string low, .reference (id 4), .string high, .reference (id 4)])]

def root (first second : UInt32) : Object :=
  .dictionary [("Kids", .array [.reference (id first), .reference (id second)])]

def store : Store := ⟨none, [],
  [(id 2, leaf "a" "b"), (id 3, leaf "c" "d"), (id 4, .dictionary [])]⟩

def around : Surroundings := .still .empty store

def tree : Tree := ⟨.name, ["Dest"]⟩

def session : Session := .start store (.ofFolder (.of "grammar")) none none

def layout (first second : UInt32) : Layout :=
  tree.layoutTo store 1 (root first second, some (id 1))

theorem unfolds_inOrder : tree.Unfolds store (root 2 3, some (id 1)) (layout 2 3) :=
  .node (.cons (.node .nil) (.cons (.node .nil) .nil))

theorem unfolds_reversed : tree.Unfolds store (root 3 2, some (id 1)) (layout 3 2) :=
  .node (.cons (.node .nil) (.cons (.node .nil) .nil))

end Leaves

/-- In their order the leaves have sorted keys, with limits that follow one another. -/
theorem Walk.sorted_iff_of_clean_leaves :
    (Leaves.session.walkTree Leaves.around Leaves.tree (Leaves.root 2 3) (some (Leaves.id 1))
        "").findings = [] ∧
      ∃ layout, Leaves.tree.Unfolds Leaves.store (Leaves.root 2 3, some (Leaves.id 1)) layout ∧
        layout.keys = [.text "a", .text "b", .text "c", .text "d"] ∧
        (layout.keys.Pairwise (· ≤ ·) ↔ layout.All Layout.InOrder) := by
  have hclean : (Leaves.session.walkTree Leaves.around Leaves.tree (Leaves.root 2 3)
      (some (Leaves.id 1)) "").findings = Leaves.session.findings := by decide +kernel
  have honce : Tree.ReachedOnce Leaves.store (Leaves.root 2 3, some (Leaves.id 1)) :=
    Leaves.unfolds_inOrder.reachedOnce (by decide +kernel)
  obtain ⟨layout, hlayout, hsorted, _⟩ := sorted_iff_of_clean Leaves.around Leaves.tree "" honce
    (fun _ _ _ => List.not_mem_nil) hclean
  refine ⟨hclean, layout, hlayout, ?_, hsorted⟩
  rw [← Leaves.unfolds_inOrder.unique hlayout]
  decide +kernel

/-- The other way round the walk finds nothing either, and the keys are not sorted. -/
theorem Walk.unsorted_of_clean_leaves :
    Tree.ReachedOnce Leaves.store (Leaves.root 3 2, some (Leaves.id 1)) ∧
      (Leaves.session.walkTree Leaves.around Leaves.tree (Leaves.root 3 2) (some (Leaves.id 1))
        "").findings = Leaves.session.findings ∧
      ∃ layout, Leaves.tree.Unfolds Leaves.store (Leaves.root 3 2, some (Leaves.id 1)) layout ∧
        layout.keys = [.text "c", .text "d", .text "a", .text "b"] ∧
        ¬layout.keys.Pairwise (· ≤ ·) := by
  refine ⟨Leaves.unfolds_reversed.reachedOnce (by decide +kernel), by decide +kernel,
    Leaves.layout 3 2, Leaves.unfolds_reversed, by decide +kernel, by decide +kernel⟩

end PdfConform
