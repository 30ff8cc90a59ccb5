import PdfConform.Proofs.Check.TreeNode
import PdfConform.Proofs.Check.TreeVisits

/-! A tree whose walk reports neither a violation of limits nor a malformed node is sound: at
each node it came to, and by the limits also between a node and all below it. -/
namespace PdfConform

namespace Session

variable {around : Surroundings} {t : Tree}

theorem grows_visitNode (around : Surroundings) (t : Tree) (s : Session) (node : TreeNode) :
    Grows s (s.visitNode around t node).1 :=
  (grows_note s _).trans (Walk.grows_trace (visitNode_trace around t s node))

/-- A visit that found no trouble has read a dictionary without trouble. -/
theorem readNode_quiet_of_visitNode {s : Session} {node : TreeNode}
    (hquiet : Quiet s (s.visitNode around t node).1) :
    ∃ d shaped, node.object = .dictionary d ∧ Quiet shaped (shaped.readNode around t node d) := by
  have hvisited : Grows s (s.note (.visited t.title node.path)) := grows_note s _
  unfold visitNode at hquiet
  dsimp only at hquiet
  split at hquiet
  · next d hd =>
    have hto := hvisited.trans (grows_trace (readShape_trace around t _ node d))
    generalize (s.note (.visited t.title node.path)).readShape around t node d = shaped
      at hquiet hto
    have hread := grows_trace (readNode_trace around t shaped node d)
    refine ⟨d, shaped, hd, ?_⟩
    split at hquiet
    · exact hquiet.second hto hread
    · next kids _ =>
      have hmeet := Walk.grows_trace (meetKids_trace around t (nodeLimits around t node d).1
        node.path (shaped.readNode around t node d) kids)
      exact (hquiet.second hto (hread.trans hmeet)).first hread hmeet
  · exact absurd (Grows.refl _) ((hquiet.second hvisited (grows_report _ _)).not_report rfl)

end Session

/-- What is so of one node by itself, given the limits handed down to it. -/
structure TreeNode.Sound (t : Tree) (store : Store) (node : TreeNode) : Prop where
  keys : ∃ keys, t.HasKeys store node.object keys ∧ keys.Pairwise (· ≤ ·)
  limits : node.isRoot = false → ∃ own, t.HasLimits store node.object own ∧
    (∀ keys, t.HasKeys store node.object keys → ∀ key ∈ keys, own.Contains key) ∧
    ∀ bounds, node.bounds = some bounds → own.Within bounds

namespace Walk

open Session

variable {around : Surroundings} {t : Tree} {w : Walk} {last : Session}

theorem Visits.grows {w' : Walk} (h : Visits around t w w') : Grows w.1 w'.1 := by
  induction h with
  | refl => exact .refl _
  | tail _ hvisit ih =>
    cases hvisit with
    | first s node rest => exact ih.trans (grows_visitNode around t s node)

theorem sound_of_visit {s : Session} {node : TreeNode}
    (hquiet : Quiet s (s.visitNode around t node).1) : node.Sound t around.store := by
  obtain ⟨d, shaped, hd, hread⟩ := readNode_quiet_of_visitNode hquiet
  obtain ⟨hnone, keys, hkeys, hsorted, hinside⟩ := readNode_of_quiet hread
  constructor
  · rw [hd]
    exact ⟨keys, hkeys, hsorted⟩
  · intro hroot
    obtain ⟨own, hown, hlimits, hwithin⟩ := hasLimits_of_nodeLimits hroot hnone
    rw [hd]
    refine ⟨own, hlimits, ?_, hwithin⟩
    intro keys' hkeys' key hkey
    rw [hkeys'.unique hkeys] at hkey
    exact hinside own hown key hkey

theorem sound_of_visited (hlast : Visits around t w (last, [])) (hquiet : Quiet w.1 last)
    {node : TreeNode} (h : Visited around t w node) : node.Sound t around.store := by
  obtain ⟨s, rest, hvisits⟩ := h
  have hnext := hvisits.tail (.first s node rest)
  have hto := hvisits.grows
  have hvisit := grows_visitNode around t s node
  have hfrom := (visits_last hlast hnext).grows
  have hvisitQuiet := (hquiet.second hto (hvisit.trans hfrom)).first hvisit hfrom
  exact sound_of_visit hvisitQuiet

theorem Found.parent_visited {parent child : TreeNode} (h : Found around t w parent child) :
    Visited around t w parent := by
  obtain ⟨s, rest, hvisits, _⟩ := h
  exact ⟨s, rest, hvisits⟩

theorem Below.exists_child {node below : TreeNode} (h : Below around t w node below) :
    ∃ child, Found around t w node child := by
  induction h with
  | single hfound => exact ⟨_, hfound⟩
  | tail _ _ ih => exact ih

theorem Below.exists_parent {node below : TreeNode} (h : Below around t w node below) :
    ∃ parent, Found around t w parent below := by
  cases h with
  | single hfound => exact ⟨_, hfound⟩
  | tail _ hfound => exact ⟨_, hfound⟩

/-- A child is no root, and has been handed down the limits of its parent. -/
theorem Found.bounds {parent child : TreeNode} (h : Found around t w parent child) :
    child.isRoot = false ∧
      ∃ d, parent.object = .dictionary d ∧ child.bounds = (nodeLimits around t parent d).1 := by
  obtain ⟨s, rest, _, hchild⟩ := h
  have hknown : (fun _ : Object => True) parent.object := trivial
  obtain ⟨d, hd, hmet⟩ := met_of_mem_visitNode around.store.closed_true.spans hknown hchild
  exact ⟨hmet.notRoot, d, hd, hmet.bounds⟩

theorem within_of_found (hlast : Visits around t w (last, [])) (hquiet : Quiet w.1 last)
    {parent child : TreeNode} (h : Found around t w parent child) (hroot : parent.isRoot = false)
    {outer inner : Limits} (houter : t.HasLimits around.store parent.object outer)
    (hinner : t.HasLimits around.store child.object inner) : inner.Within outer := by
  obtain ⟨hchild, d, hd, hbounds⟩ := h.bounds
  have hsound := sound_of_visited hlast hquiet (h.visited hlast)
  obtain ⟨own, hown, _, hwithin⟩ := hsound.limits hchild
  rw [hd] at houter
  have hlimits : (nodeLimits around t parent d).1 = some outer :=
    nodeLimits_of_hasLimits hroot houter
  rw [hinner.unique hown]
  exact hwithin outer (hbounds.trans hlimits)

/-- Limits go down the tree: what lies within the limits of a node lies within those of every
node above it. -/
theorem within_of_below (hlast : Visits around t w (last, [])) (hquiet : Quiet w.1 last)
    {node below : TreeNode} (h : Below around t w node below) (hroot : node.isRoot = false)
    {outer inner : Limits} (houter : t.HasLimits around.store node.object outer)
    (hinner : t.HasLimits around.store below.object inner) : inner.Within outer := by
  induction h generalizing inner with
  | single hfound => exact within_of_found hlast hquiet hfound hroot houter hinner
  | @tail parent child habove hfound ih =>
    obtain ⟨_, hparent⟩ := Below.exists_parent habove
    have hsound := sound_of_visited hlast hquiet hfound.parent_visited
    have hparent : parent.isRoot = false := hparent.bounds.1
    obtain ⟨middle, hmiddle, _⟩ := hsound.limits hparent
    exact (within_of_found hlast hquiet hfound hparent hmiddle hinner).trans (ih hmiddle)

theorem quiet_of_found {s s' : Session} (hgrows : Grows s s') {found : List Finding}
    (hfound : s'.findings = s.findings ++ found)
    (hclean : ∀ f ∈ found, f.kind ≠ .limitsViolation ∧ f.kind ≠ .malformedContainer) :
    Quiet s s' := by
  refine ⟨hgrows, ?_⟩
  have hnone : found.countP Finding.isTrouble = 0 := by
    rw [List.countP_eq_zero]
    intro f hf
    simp [Finding.isTrouble, hclean f hf]
  rw [troubles, hfound, List.countP_append, hnone]
  rfl

/-- Soundness of a walk from a root that was not recorded, which finds no violation of limits
and no malformed node. Every node visited is a dictionary with sorted keys of the tree's kind;
every one but the root has limits in order that contain its keys; they lie within those of the
parent unless that is the root; and so contain all keys below the node. -/
theorem sound_of_clean (around : Surroundings) (t : Tree) {root : Object}
    {reference : Option ObjectId} {s : Session}
    (hfresh : (Identity.of root reference, t.title) ∉ s.record.pairs) (path : String)
    {found : List Finding}
    (hfound : (s.walkTree around t root reference path).findings = s.findings ++ found)
    (hclean : ∀ f ∈ found, f.kind ≠ .limitsViolation ∧ f.kind ≠ .malformedContainer) :
    let w := start s t root reference path
    (∀ node, Visited around t w node → ∃ d keys, node.object = .dictionary d ∧
      t.HasKeys around.store node.object keys ∧ keys.Pairwise (· ≤ ·)) ∧
    (∀ node, Visited around t w node → node.isRoot = false →
      ∃ own keys, t.HasLimits around.store node.object own ∧
        t.HasKeys around.store node.object keys ∧ ∀ key ∈ keys, own.Contains key) ∧
    (∀ parent child, Found around t w parent child → parent.isRoot = false →
      ∃ outer inner, t.HasLimits around.store parent.object outer ∧
        t.HasLimits around.store child.object inner ∧ inner.Within outer) ∧
    ∀ node below, Below around t w node below → node.isRoot = false →
      ∃ own keys, t.HasLimits around.store node.object own ∧
        t.HasKeys around.store below.object keys ∧ ∀ key ∈ keys, own.Contains key := by
  intro w
  have hlast := visits_walkTree around t hfresh path
  have hquiet : Quiet w.1 (s.walkTree around t root reference path) :=
    quiet_of_found hlast.grows hfound hclean
  have hsound : ∀ node, Visited around t w node → node.Sound t around.store :=
    fun node => sound_of_visited hlast hquiet
  refine ⟨?_, ?_, ?_, ?_⟩
  · intro node hnode
    obtain ⟨keys, hkeys, hsorted⟩ := (hsound node hnode).keys
    obtain ⟨d, hd⟩ : ∃ d, node.object = .dictionary d := by
      generalize node.object = object at hkeys
      cases hkeys <;> exact ⟨_, rfl⟩
    exact ⟨d, keys, hd, hkeys, hsorted⟩
  · intro node hnode hroot
    obtain ⟨keys, hkeys, _⟩ := (hsound node hnode).keys
    obtain ⟨own, hown, hcontains, _⟩ := (hsound node hnode).limits hroot
    exact ⟨own, keys, hown, hkeys, hcontains keys hkeys⟩
  · intro parent child hchild hroot
    obtain ⟨outer, houter, _⟩ := (hsound parent hchild.parent_visited).limits hroot
    obtain ⟨inner, hinner, _⟩ := (hsound child (hchild.visited hlast)).limits hchild.bounds.1
    exact ⟨outer, inner, houter, hinner,
      within_of_found hlast hquiet hchild hroot houter hinner⟩
  · intro node below hbelow hroot
    obtain ⟨child, hchild⟩ := Below.exists_child hbelow
    obtain ⟨parent, hparent⟩ := Below.exists_parent hbelow
    have hbelowSound := hsound below (hparent.visited hlast)
    obtain ⟨own, hown, _⟩ := (hsound node hchild.parent_visited).limits hroot
    obtain ⟨inner, hinner, hcontains, _⟩ := hbelowSound.limits hparent.bounds.1
    obtain ⟨keys, hkeys, _⟩ := hbelowSound.keys
    have hwithin := within_of_below hlast hquiet hbelow hroot hown hinner
    exact ⟨own, keys, hown, hkeys, fun key hkey => hwithin.contains (hcontains keys hkeys key hkey)⟩

end Walk

/-! A name tree of a root, a node and a leaf whose one value leads back to the root. -/
namespace Sprig

def id (n : UInt32) : ObjectId := ⟨n, 0⟩

def root : Object := .dictionary [("Kids", .array [.reference (id 2)])]

def store : Store := ⟨none, [],
  [(id 1, root),
    (id 2, .dictionary [("Kids", .array [.reference (id 3)]),
      ("Limits", .array [.string "a", .string "c"])]),
    (id 3, .dictionary [("Limits", .array [.string "b", .string "b"]),
      ("Names", .array [.string "b", .reference (id 1)])])]⟩

def around : Surroundings := .still .empty store

def tree : Tree := ⟨.name, ["Page"]⟩

def session : Session := .start store (.ofFolder (.of "grammar")) none none

end Sprig

theorem Walk.sound_of_clean_sprig :
    let w := start Sprig.session Sprig.tree Sprig.root (some (Sprig.id 1)) ""
    (Sprig.session.walkTree Sprig.around Sprig.tree Sprig.root (some (Sprig.id 1))
        "").record.pairs =
      [(.indirect (Sprig.id 1), Sprig.tree.title), (.indirect (Sprig.id 2), Sprig.tree.title),
        (.indirect (Sprig.id 3), Sprig.tree.title), (.indirect (Sprig.id 1), "Page")] ∧
    ∀ node below, Below Sprig.around Sprig.tree w node below → node.isRoot = false →
      ∃ own keys, Sprig.tree.HasLimits Sprig.around.store node.object own ∧
        Sprig.tree.HasKeys Sprig.around.store below.object keys ∧
        ∀ key ∈ keys, own.Contains key := by
  intro w
  refine ⟨by decide +kernel, ?_⟩
  have hfresh : (Identity.of Sprig.root (some (Sprig.id 1)), Sprig.tree.title) ∉
      Sprig.session.record.pairs := List.not_mem_nil
  have hfound : (Sprig.session.walkTree Sprig.around Sprig.tree Sprig.root (some (Sprig.id 1))
      "").findings = Sprig.session.findings ++ [] := by decide +kernel
  exact (sound_of_clean Sprig.around Sprig.tree hfresh "" hfound (by simp)).2.2.2

end PdfConform
