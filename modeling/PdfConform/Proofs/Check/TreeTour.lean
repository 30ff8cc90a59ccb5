import PdfConform.Proofs.Check.Echo
import PdfConform.Proofs.Check.Potential
import PdfConform.Proofs.Check.TreeGather
import PdfConform.Proofs.Check.TreeWalk

/-! A walk of a tree loses nothing. It visits each node that is recorded for the first time, and
whatever is wrong with one of them, its child nodes are recorded in the end, and its values with
the links that are chosen for them. -/
namespace PdfConform

/-- Whatever a lead gives to do is recorded, the link being chosen as it is by now. -/
def Lead.Settled (around : Surroundings) (s : Session) : Lead → Prop
  | .follow object reference links => ∀ parent label path link,
      (s.chooseLink around object links parent label path).1 = some link →
        (Identity.of object reference, link) ∈ s.record.pairs
  | .enter object reference t => (Identity.of object reference, t.title) ∈ s.record.pairs

/-- All that a node leads to is recorded: child nodes in the tree, and containers beside a key of
the tree's kind with the link that is chosen for them. To ask for that link again in the end gives
the one that was chosen at the visit. -/
structure TreeNode.Exhausted (around : Surroundings) (t : Tree) (s : Session) (node : TreeNode) :
    Prop where
  kids {d : Dictionary} {items : List Object} : node.object = .dictionary d →
    Tree.value? around.store d "Kids" = some (.array items) →
    ∀ kid ∈ items, ∀ child, around.store.dereference kid = some child →
      (Place.identity child, t.title) ∈ s.record.pairs
  values {d : Dictionary} {items : List Object} : node.object = .dictionary d →
    Tree.value? around.store d t.kind.entriesKey = some (.array items) →
    ∀ entry ∈ Tree.pairs items, ∀ key value object reference path link,
      t.keyOf? around.store entry.1 = some key → entry.2 = some value →
      around.store.present value = some (object, reference) → object.isContainer = true →
      (s.chooseLink around object t.links t.title key.label path).1 = some link →
        (Identity.of object reference, link) ∈ s.record.pairs

namespace Session

variable {around : Surroundings} {t : Tree}

theorem log_asides {s s' : Session} (h : Asides around s s') : s'.log = s.log := by
  induction h with
  | refl => rfl
  | tail _ hstep ih =>
    rw [← ih]
    cases hstep <;> rfl

/-- The names only go into what is reported on the choice. -/
theorem chooseLink_names (s : Session) (object : Object) (links : List String)
    (parent label parent' label' path : String) :
    (s.chooseLink around object links parent label path).1 =
      (s.chooseLink around object links parent' label' path).1 := by
  by_cases hsingle : ∃ only, links = [only]
  · obtain ⟨only, rfl⟩ := hsingle
    rfl
  · have hmany : ∀ only, links ≠ [only] := fun only h => hsingle ⟨only, h⟩
    rw [chooseLink_eq hmany, chooseLink_eq hmany]

theorem visits_enqueue (s : Session) (object : Object) (reference : Option ObjectId)
    (link path : String) : (s.enqueue object reference link path).visits = s.visits := by
  unfold enqueue visits
  dsimp only
  split
  · exact (List.filterMap_append).trans (List.append_nil _)
  · exact (List.filterMap_append).trans (List.append_nil _)

theorem Follows.visits {lead : Lead} {s s' : Session} (h : Follows around lead s s') :
    s'.visits = s.visits := by
  cases h with
  | follow _ object reference links parent label path =>
    have hchoose : (s.chooseLink around object links parent label path).2.visits = s.visits :=
      congrArg (List.filterMap Event.visited?)
        (log_asides (chooseLink_asides s object links parent label path))
    unfold Session.follow
    dsimp only
    split
    · exact (visits_enqueue _ _ _ _ _).trans hchoose
    · exact hchoose

theorem Follows.settled {lead : Lead} {s s' last : Session} (h : Follows around lead s s')
    (hlater : Grows s' last) : lead.Settled around last := by
  cases h with
  | follow _ object reference links parent label path =>
    intro parent' label' path' link hchosen
    rw [chooseLink_names last object links parent' label' parent label] at hchosen
    unfold Session.follow at hlater
    dsimp only at hlater
    split at hlater
    · next first hfirst =>
      -- The candidates stay looked up, so that whoever asks later is given the same link.
      have hqueued := grows_enqueue
        (s.chooseLink around object links parent label path).2 object reference first path
      have hsame := (chooseLink_again (hqueued.trans hlater) path').1
      rw [hchosen, hfirst] at hsame
      obtain rfl := Option.some.inj hsame
      exact hlater.pairs.subset (recorded_of_enqueue _ object reference link path)
    · next hnone =>
      have hsame := (chooseLink_again hlater path').1
      rw [hchosen, hnone] at hsame
      cases hsame

end Session

namespace Walk

open Session

/-- The nodes that are visited on the way from one state of a walk to another, in order. -/
inductive Tour (around : Surroundings) (t : Tree) : Walk → List TreeNode → Walk → Prop
  | done (w : Walk) : Tour around t w [] w
  | visit (s : Session) (node : TreeNode) (rest : List TreeNode) {nodes : List TreeNode}
    {w : Walk} :
    Tour around t ((s.visitNode around t node).1, rest ++ (s.visitNode around t node).2) nodes w →
    Tour around t (s, node :: rest) (node :: nodes) w

variable {around : Surroundings} {t : Tree} {a b w w' : Walk} {nodes : List TreeNode}

theorem Visits.tour (h : Visits around t w w') : ∃ nodes, Tour around t w nodes w' := by
  induction h using Relation.ReflTransGen.head_induction_on with
  | refl => exact ⟨[], .done w'⟩
  | head hvisit _ ih =>
    obtain ⟨nodes, htour⟩ := ih
    cases hvisit with
    | first s node rest => exact ⟨node :: nodes, .visit s node rest htour⟩

theorem Tour.grows (h : Tour around t w nodes w') : Grows w.1 w'.1 := by
  induction h with
  | done w => exact .refl _
  | visit s node rest _ ih => exact (grows_visitNode around t s node).trans ih

theorem Meets.visits {lead : Lead} (h : Meets around lead a b) : b.1.visits = a.1.visits := by
  cases h with
  | follow nodes hfollow => exact hfollow.visits
  | enter s nodes object reference t path limits => rfl

theorem Meets.settled {lead : Lead} (h : Meets around lead a b) {last : Session}
    (hlater : Grows b.1 last) : lead.Settled around last := by
  cases h with
  | follow nodes hfollow => exact hfollow.settled hlater
  | enter s nodes object reference t path limits =>
    exact hlater.pairs.subset (recorded_of_mark s _ _)

section Visit

variable (around : Surroundings) (t : Tree) (s : Session) (node : TreeNode)

theorem visits_visitNode :
    (s.visitNode around t node).1.visits = s.visits ++ [(t.title, node.path)] := by
  have hnoted : (s.note (.visited t.title node.path)).visits =
      s.visits ++ [(t.title, node.path)] := List.filterMap_append
  refine (visitNode_trace around t s node).keep
    (P := fun w => w.1.visits = s.visits ++ [(t.title, node.path)]) ?_ ?_ hnoted
  · rintro _ _ ⟨nodes, hstep⟩ hvisits
    exact (congrArg (List.filterMap Event.visited?) (log_asides hstep.asides)).trans hvisits
  · exact fun lead _ hstep hvisits => hstep.visits.trans hvisits

theorem settled_visitNode : ∀ lead ∈ t.leads around.store node.object, ∀ last,
    Grows (s.visitNode around t node).1 last → lead.Settled around last := by
  refine ((visitNode_trace around t s node).collect (P := fun _ => True)
    (Q := fun lead w => ∀ last, Grows w.1 last → lead.Settled around last) ?_ ?_ trivial).2
  · rintro _ _ ⟨nodes, hstep⟩ _
    refine ⟨trivial, fun lead hlead last hlater => ?_⟩
    exact hlead last ((grows_asides hstep.asides).trans hlater)
  · intro a b lead _ hstep _
    refine ⟨⟨trivial, fun other hother last hlater => ?_⟩, fun last => hstep.settled⟩
    exact hother last ((grows_trace (.ofAct hstep)).trans hlater)

end Visit

/-- The nodes visited and those that still wait are the ones that waited first and then the
places that were recorded on the way, each a child of a node that was visited. -/
theorem Tour.admits (h : Tour around t w nodes w') : ∃ places,
    nodes.map TreeNode.object ++ w'.2.map TreeNode.object =
        w.2.map TreeNode.object ++ places.map Prod.fst ∧
      Session.Admits t places w.1 w'.1 ∧
      ∀ place ∈ places, ∃ node ∈ nodes, place ∈ Tree.childrenOf around.store node.object := by
  induction h with
  | done w => exact ⟨[], (List.append_nil _).symm, .idle rfl, by simp⟩
  | visit s node rest _ ih =>
    obtain ⟨⟨found, hsub, hadmits⟩, _⟩ := admits_visitNode around t s node
    obtain ⟨waiting, hwaiting, hobjects⟩ := hadmits.waiting
    obtain ⟨places, hplaces, hlater, hchild⟩ := ih
    rw [List.nil_append] at hwaiting
    -- What is found waits behind all others, so it is visited in the order it was recorded.
    refine ⟨found ++ places, ?_, hadmits.session.trans hlater, ?_⟩
    · rw [List.map_append, hwaiting, hobjects] at hplaces
      rw [List.map_cons, List.cons_append, hplaces, List.map_cons, List.map_append,
        List.append_assoc, List.cons_append]
    · intro place hplace
      rcases List.mem_append.1 hplace with hplace | hplace
      · exact ⟨node, List.mem_cons_self, hsub.subset hplace⟩
      · obtain ⟨parent, hparent, hplace⟩ := hchild place hplace
        exact ⟨parent, List.mem_cons_of_mem node hparent, hplace⟩

theorem Tour.visits (h : Tour around t w nodes w') :
    w'.1.visits = w.1.visits ++ nodes.map fun node => (t.title, node.path) := by
  induction h with
  | done w => exact (List.append_nil _).symm
  | visit s node rest _ ih =>
    rw [ih, visits_visitNode, List.map_cons, List.append_assoc, List.singleton_append]

theorem Tour.settled (h : Tour around t w nodes w') : ∀ node ∈ nodes,
    ∀ lead ∈ t.leads around.store node.object, lead.Settled around w'.1 := by
  induction h with
  | done w => simp
  | visit s first rest htour ih =>
    intro node hnode lead hlead
    rcases List.mem_cons.1 hnode with rfl | hnode
    · exact settled_visitNode around t s node lead hlead _ htour.grows
    · exact ih node hnode lead hlead

theorem exhausted_of_settled {s : Session} {node : TreeNode}
    (h : ∀ lead ∈ t.leads around.store node.object, lead.Settled around s) :
    node.Exhausted around t s := by
  constructor
  · intro d items hd hkids kid hkid child hchild
    refine h (.enter child.1 child.2 t) ?_
    rw [Tree.leads_eq, List.mem_append]
    refine .inr (List.mem_map_of_mem ?_)
    rw [hd, Tree.childrenOf, hkids]
    exact List.mem_filterMap.2 ⟨kid, hkid, hchild⟩
  · intro d items hd hentries entry hentry key value object reference path link hkey hvalue
      hpresent hcontainer
    refine h (.follow object reference t.links) ?_ t.title key.label path link
    rw [Tree.leads_eq, List.mem_append]
    refine .inl (List.mem_filterMap.2 ⟨value, ?_, ?_⟩)
    · rw [hd, Tree.valuesAt, hentries]
      exact List.mem_filterMap.2 ⟨entry, hentry, by simp [hkey, hvalue]⟩
    · simp [Tree.valueLead?, hpresent, hcontainer]

/-- The walk from a root that was not recorded visits the root and then each node that is recorded
on the way, once, and these are child nodes of such nodes. Of every node visited all that it leads
to is recorded in the end. -/
theorem tour_walkTree (around : Surroundings) (t : Tree) {root : Object}
    {reference : Option ObjectId} {s : Session}
    (hfresh : (Identity.of root reference, t.title) ∉ s.record.pairs) (path : String) :
    let last := s.walkTree around t root reference path
    ∃ nodes found, Tour around t (start s t root reference path) nodes (last, []) ∧
      last.visits = s.visits ++ nodes.map (fun node => (t.title, node.path)) ∧
      nodes.map TreeNode.object = ((root, reference) :: found).map Prod.fst ∧
      Session.Admits t ((root, reference) :: found) s last ∧
      (∀ place ∈ found, ∃ node ∈ nodes, place ∈ Tree.childrenOf around.store node.object) ∧
      ∀ node ∈ nodes, node.Exhausted around t last := by
  intro last
  obtain ⟨nodes, htour⟩ := (visits_walkTree around t hfresh path).tour
  obtain ⟨found, hobjects, hadmits, hchild⟩ := htour.admits
  have hroot : Session.Admits t [(root, reference)] s (start s t root reference path).1 :=
    .mark hfresh
  refine ⟨nodes, found, htour, htour.visits, ?_, hroot.trans hadmits, hchild, ?_⟩
  · rw [List.map_nil, List.append_nil] at hobjects
    exact hobjects
  · exact fun node hnode => exhausted_of_settled (htour.settled node hnode)

end Walk

/-! A name tree in which much is wrong: a node with entries and child nodes, keys that are numbers
or not sorted, child nodes that do not resolve, are met again or lead back, and limits that are
reversed. One of its nodes was recorded by another walk. -/
namespace Thicket

def id (n : UInt32) : ObjectId := ⟨n, 0⟩

def root : Object := .dictionary [
  ("Kids", .array [.reference (id 2), .reference (id 9), .reference (id 2), .reference (id 1),
    .reference (id 3), .reference (id 4)]),
  ("Names", .array [.string "b", .reference (id 5), .integer 3, .reference (id 6), .string "a",
    .reference (id 6), .string "c"])]

def store : Store := ⟨none, [],
  [(id 1, root),
    (id 2, .dictionary [("Kids", .array [.reference (id 1), .reference (id 8)]),
      ("Limits", .array [.string "z", .string "y"])]),
    (id 3, .array []),
    (id 4, .dictionary [("Kids", .array [.reference (id 7)])]),
    (id 5, .dictionary []), (id 6, .dictionary []), (id 7, .dictionary []),
    (id 8, .dictionary [("Names", .array [.string "x", .reference (id 7)])])]⟩

def around : Surroundings := .still .empty store

def tree : Tree := ⟨.name, ["Page"]⟩

def session : Session :=
  ((Session.start store (.ofFolder (.of "grammar")) none none).mark (.indirect (id 4))
    tree.title).2

def walked : Session := session.walkTree around tree root (some (id 1)) ""

end Thicket

theorem Walk.tour_walkTree_thicket :
    Thicket.walked.record.under Thicket.tree.title =
        [.indirect (Thicket.id 4), .indirect (Thicket.id 1), .indirect (Thicket.id 2),
          .indirect (Thicket.id 3), .indirect (Thicket.id 8)] ∧
      Thicket.walked.record.under "Page" =
        [.indirect (Thicket.id 5), .indirect (Thicket.id 6), .indirect (Thicket.id 7)] ∧
      Thicket.walked.findings.length = 8 ∧
      ∃ (nodes : List TreeNode) (found : List Place),
        nodes.map TreeNode.object = Thicket.root :: found.map Prod.fst ∧
        Session.Admits Thicket.tree ((Thicket.root, some (Thicket.id 1)) :: found)
          Thicket.session Thicket.walked ∧
        ∀ node ∈ nodes, node.Exhausted Thicket.around Thicket.tree Thicket.walked := by
  have hfresh : (Identity.of Thicket.root (some (Thicket.id 1)), Thicket.tree.title) ∉
      Thicket.session.record.pairs := by decide +kernel
  obtain ⟨nodes, found, _, _, hnodes, hadmits, _, hall⟩ :=
    tour_walkTree Thicket.around Thicket.tree hfresh ""
  refine ⟨?_, ?_, ?_, nodes, found, hnodes, hadmits, hall⟩ <;> decide +kernel

end PdfConform
