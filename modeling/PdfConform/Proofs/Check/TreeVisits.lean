import Mathlib.Data.Finset.Prod
import PdfConform.Proofs.Check.TreeStep

/-! The visits of a tree walk, one after another. Every node but the first is recorded when it
is found, and there are only so many objects, so a walk comes to its end. -/
namespace PdfConform

namespace Walk

/-- The first of the waiting nodes is visited. -/
inductive Visit (around : Surroundings) (t : Tree) : Walk → Walk → Prop
  | first (s : Session) (node : TreeNode) (rest : List TreeNode) :
    Visit around t (s, node :: rest)
      ((s.visitNode around t node).1, rest ++ (s.visitNode around t node).2)

abbrev Visits (around : Surroundings) (t : Tree) : Walk → Walk → Prop :=
  Relation.ReflTransGen (Visit around t)

/-- A walk with only the root to visit, which has just been recorded. -/
def start (s : Session) (t : Tree) (root : Object) (reference : Option ObjectId)
    (path : String) : Walk :=
  ((s.mark (.of root reference) t.title).2, [⟨root, path, none, true⟩])

def Visited (around : Surroundings) (t : Tree) (w : Walk) (node : TreeNode) : Prop :=
  ∃ s rest, Visits around t w (s, node :: rest)

/-- A child was found, for the first time, when its parent was visited. -/
inductive Found (around : Surroundings) (t : Tree) (w : Walk) (parent child : TreeNode) : Prop
  | visiting (s : Session) (rest : List TreeNode) :
    Visits around t w (s, parent :: rest) → child ∈ (s.visitNode around t parent).2 →
    Found around t w parent child

abbrev Below (around : Surroundings) (t : Tree) (w : Walk) : TreeNode → TreeNode → Prop :=
  Relation.TransGen (Found around t w)

variable {around : Surroundings} {t : Tree} {w : Walk} {last : Session}

theorem visit_rightUnique : Relator.RightUnique (Visit around t) := by
  intro a b c hb hc
  cases hb
  cases hc
  rfl

/-- Whatever state a walk comes to, it goes on from there to its end. -/
theorem visits_last (hlast : Visits around t w (last, [])) {w' : Walk}
    (h : Visits around t w w') : Visits around t w' (last, []) := by
  rcases Relation.ReflTransGen.total_of_right_unique visit_rightUnique h hlast with hon | hback
  · exact hon
  · rcases hback.cases_head with rfl | ⟨next, hnext, _⟩
    · exact .refl
    · cases hnext

/-- A node that waits has its visit before the walk ends. -/
theorem visited_of_waiting (hlast : Visits around t w (last, [])) {node : TreeNode}
    (hnode : node ∈ w.2) : Visited around t w node := by
  induction hlast using Relation.ReflTransGen.head_induction_on with
  | refl => cases hnode
  | head hvisit hrest ih =>
    cases hvisit with
    | first s first rest =>
      rcases List.mem_cons.1 hnode with rfl | hnode
      · exact ⟨s, rest, .refl⟩
      · obtain ⟨s', rest', hlater⟩ := ih (List.mem_append_left _ hnode)
        exact ⟨s', rest', .head (.first s first rest) hlater⟩

theorem Found.visited (hlast : Visits around t w (last, [])) {parent child : TreeNode}
    (h : Found around t w parent child) : Visited around t w child := by
  cases h with
  | visiting s rest hparent hchild =>
    have hnext := hparent.tail (.first s parent rest)
    obtain ⟨s', rest', hlater⟩ := visited_of_waiting (visits_last hlast hnext)
      (List.mem_append_right _ hchild)
    exact ⟨s', rest', hnext.trans hlater⟩

end Walk

/-- Those of the pairs that are not recorded. -/
def Session.unrecorded (s : Session) (pairs : Finset (Identity × String)) :
    Finset (Identity × String) :=
  pairs.filter (· ∉ s.record.pairs)

/-- The pairs under which a walk can record the nodes of a tree. -/
def Tree.nodePairs (t : Tree) (store : Store) (root : Object) : Finset (Identity × String) :=
  (store.identities [root]).toFinset.image fun identity => (identity, t.title)

theorem Tree.card_nodePairs (t : Tree) (store : Store) (root : Object) :
    (t.nodePairs store root).card ≤ store.size + root.size := by
  have himage : (t.nodePairs store root).card ≤ (store.identities [root]).toFinset.card :=
    Finset.card_image_le
  have hlist := List.toFinset_card_le (store.identities [root])
  exact himage.trans (hlist.trans (store.length_identities [root]))

/-- What a walk can still come to at most. -/
def Walk.size (pairs : Finset (Identity × String)) (w : Walk) : Nat :=
  w.2.length + (w.1.unrecorded pairs).card

namespace Session

variable {around : Surroundings} {t : Tree} {pairs : Finset (Identity × String)}

theorem unrecorded_mono (pairs : Finset (Identity × String)) {s s' : Session}
    (h : s.record.pairs <+: s'.record.pairs) :
    (s'.unrecorded pairs).card ≤ (s.unrecorded pairs).card := by
  refine Finset.card_le_card (Finset.monotone_filter_right pairs ?_)
  exact fun pair _ hnew hold => hnew (h.subset hold)

theorem unrecorded_mark {s : Session} {identity : Identity} {link : String}
    (hpair : (identity, link) ∈ pairs) (hfresh : (s.mark identity link).1 = true) :
    ((s.mark identity link).2.unrecorded pairs).card < (s.unrecorded pairs).card := by
  have hnew : (identity, link) ∉ s.record.pairs := Record.fresh_iff.1 hfresh
  have hmarked : (identity, link) ∈ (s.mark identity link).2.record.pairs :=
    Record.mem_pairs_insert.2 (.inr rfl)
  refine Finset.card_lt_card ⟨Finset.monotone_filter_right pairs ?_, ?_⟩
  · exact fun pair _ hnew hold => hnew ((pairs_mark s identity link).subset hold)
  · intro hsubset
    exact (Finset.mem_filter.1 (hsubset (Finset.mem_filter.2 ⟨hpair, hnew⟩))).2 hmarked

/-- Every child node that is to be visited takes a pair that was not recorded. -/
theorem size_meets {root : Object} {lead : Lead}
    (hlead : lead.Sprung around.store (around.store.Nests [root]) (fun _ => True) (t = ·))
    {w w' : Walk} (h : Walk.Meets around lead w w') :
    w'.size (t.nodePairs around.store root) ≤ w.size (t.nodePairs around.store root) := by
  cases h with
  | follow nodes hfollow =>
    exact Nat.add_le_add_left (unrecorded_mono _ hfollow.grows.pairs) _
  | enter s nodes object reference tree path limits =>
    cases hlead with
    | enter htree hvalue hobject =>
      subst htree
      have hpair : (Identity.of object reference, t.title) ∈ t.nodePairs around.store root :=
        Finset.mem_image_of_mem _ (List.mem_toFinset.2 (Store.mem_identities hvalue hobject))
      simp only [Walk.size]
      split
      · next hfresh =>
        have hless := unrecorded_mark hpair hfresh
        simp only [List.length_append, List.length_singleton]
        omega
      · have hmono := unrecorded_mono (t.nodePairs around.store root)
          (pairs_mark s (.of object reference) t.title)
        omega

theorem size_visitNode {root : Object} {node : TreeNode}
    (hnode : around.store.Holds [root] node.object) (s : Session) :
    Walk.size (t.nodePairs around.store root) (s.visitNode around t node) ≤
      (s.unrecorded (t.nodePairs around.store root)).card := by
  have hspans := around.store.spans_holds [root]
  refine (visitNode_trace around t s node).keep
    (P := fun w => w.size (t.nodePairs around.store root) ≤
      (s.unrecorded (t.nodePairs around.store root)).card) ?_ ?_ (Nat.le_of_eq (Nat.zero_add _))
  · rintro _ _ ⟨nodes, hstep⟩ hsize
    exact Nat.le_trans
      (Nat.add_le_add_left (unrecorded_mono _ (grows_asides hstep.asides).pairs) _) hsize
  · intro a b lead hlead hstep hsize
    exact Nat.le_trans (size_meets (Tree.sprung_of_mem_leads hspans trivial rfl hnode hlead) hstep)
      hsize

end Session

namespace Walk

variable {around : Surroundings} {t : Tree}

/-- With enough fuel a walk visits until nothing waits. -/
theorem visits_visitNodes {root : Object} {fuel : Nat} {s : Session} {nodes : List TreeNode}
    (hnodes : ∀ node ∈ nodes, around.store.Holds [root] node.object)
    (hfuel : size (t.nodePairs around.store root) (s, nodes) ≤ fuel) :
    Visits around t (s, nodes) (Session.visitNodes around t fuel s nodes, []) := by
  induction fuel generalizing s nodes with
  | zero =>
    cases nodes with
    | nil => exact .refl
    | cons node rest => simp [size] at hfuel
  | succ fuel ih =>
    cases nodes with
    | nil => exact .refl
    | cons node rest =>
      have hnode : around.store.Holds [root] node.object := hnodes node (by simp)
      have hless := Session.size_visitNode (t := t) hnode s
      refine .head (.first s node rest) (ih ?_ ?_)
      · intro next hnext
        rcases List.mem_append.1 hnext with hnext | hnext
        · exact hnodes next (by simp [hnext])
        · obtain ⟨_, _, hmet⟩ :=
            Session.met_of_mem_visitNode (around.store.spans_holds [root]) hnode hnext
          exact hmet.held
      · simp only [size, List.length_cons, List.length_append] at hfuel hless ⊢
        omega

/-- The walk of a tree whose root was not recorded visits until nothing waits. -/
theorem visits_walkTree (around : Surroundings) (t : Tree) {root : Object}
    {reference : Option ObjectId} {s : Session}
    (hfresh : (Identity.of root reference, t.title) ∉ s.record.pairs) (path : String) :
    Visits around t (start s t root reference path)
      (s.walkTree around t root reference path, []) := by
  have hmark : (s.mark (.of root reference) t.title).1 = true := Record.fresh_iff.2 hfresh
  unfold Session.walkTree
  dsimp only
  rw [if_pos hmark]
  have hroot : ∀ node ∈ [(⟨root, path, none, true⟩ : TreeNode)],
      around.store.Holds [root] node.object := by
    simp only [List.mem_singleton, forall_eq]
    exact ⟨root, List.mem_append_left _ (List.mem_singleton_self root), root.mem_parts_self⟩
  refine visits_visitNodes hroot ?_
  have hcount : ((s.mark (.of root reference) t.title).2.unrecorded
      (t.nodePairs around.store root)).card ≤ around.store.size + root.size :=
    (Finset.card_filter_le _ _).trans (t.card_nodePairs around.store root)
  simp only [size, List.length_singleton]
  omega

end Walk

end PdfConform
