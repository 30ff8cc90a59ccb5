import PdfConform.Proofs.Check.Ledger
import PdfConform.Proofs.Check.Names
import PdfConform.Proofs.Check.TreeVisits

/-! How much a session can still do. Taking an item or visiting a node uses up something that
waits, and what goes on to wait takes a pair that was not recorded before. So what was done,
what waits and what is not recorded never become more together. -/
namespace PdfConform

/-- A node of a tree that a walk came to. -/
def Event.visited? : Event → Option (String × String)
  | .visited tree path => some (tree, path)
  | _ => none

namespace Session

def visits (s : Session) : List (String × String) := s.log.filterMap Event.visited?

/-- What was done and what waits to be done. -/
def work (s : Session) : Nat := s.taken.length + s.visits.length + s.queue.length

def potential (s : Session) (pairs : Finset (Identity × String)) : Nat :=
  s.work + (s.unrecorded pairs).card

end Session

def Walk.potential (w : Walk) (pairs : Finset (Identity × String)) : Nat :=
  w.1.potential pairs + w.2.length

/-- Everything that is recorded for a lead is among the pairs. -/
def Lead.Within (pairs : Finset (Identity × String)) : Lead → Prop
  | .follow object reference links => ∀ link ∈ links, (Identity.of object reference, link) ∈ pairs
  | .enter object reference t => (Identity.of object reference, t.title) ∈ pairs

namespace Session

variable {around : Surroundings} {pairs : Finset (Identity × String)} {lead : Lead}

theorem work_log {s s' : Session} {event : Event} (hlog : s'.log = s.log ++ [event]) :
    s'.work + s.queue.length = s.work + s'.queue.length + (Event.taken? event).toList.length +
      (Event.visited? event).toList.length := by
  simp only [work, taken, visits, hlog, filterMap_snoc, List.length_append]
  omega

theorem unrecorded_of_record {s s' : Session} (h : s'.record = s.record)
    (pairs : Finset (Identity × String)) : s'.unrecorded pairs = s.unrecorded pairs := by
  unfold unrecorded
  rw [h]

theorem potential_asides {s s' : Session} (h : Asides around s s')
    (pairs : Finset (Identity × String)) : s'.potential pairs = s.potential pairs := by
  induction h with
  | refl => rfl
  | tail _ hstep ih =>
    rw [← ih]
    cases hstep <;> rfl

theorem potential_enqueue {object : Object} {reference : Option ObjectId} {link : String}
    (hpair : (Identity.of object reference, link) ∈ pairs) (s : Session) (path : String) :
    (s.enqueue object reference link path).potential pairs ≤ s.potential pairs := by
  obtain ⟨hrecord, ⟨hfresh, hqueue, hlog⟩ | ⟨_, hqueue, hlog⟩⟩ :=
    enqueue_cases s object reference link path
  · have hless := unrecorded_mark hpair (Record.fresh_iff.2 hfresh)
    have hwork := work_log hlog
    simp only [hqueue, List.length_append, List.length_singleton, Event.taken?, Event.visited?,
      Option.toList_none, List.length_nil] at hwork
    rw [← unrecorded_of_record hrecord] at hless
    unfold potential
    omega
  · have hmono := unrecorded_mono pairs (pairs_mark s (.of object reference) link)
    have hwork := work_log hlog
    simp only [hqueue, Event.taken?, Event.visited?, Option.toList_none, List.length_nil] at hwork
    rw [← unrecorded_of_record hrecord] at hmono
    unfold potential
    omega

theorem Follows.potential {s s' : Session} (h : Follows around lead s s')
    (hlead : lead.Within pairs) : s'.potential pairs ≤ s.potential pairs := by
  cases h with
  | follow _ object reference links parent label path =>
    have hasides : Asides around s (s.chooseLink around object links parent label path).2 :=
      chooseLink_asides s object links parent label path
    have hchoose := potential_asides hasides pairs
    unfold Session.follow
    dsimp only
    split
    · next link hlink =>
      rw [← hchoose]
      exact potential_enqueue (hlead link (mem_of_chooseLink hlink)) _ path
    · exact Nat.le_of_eq hchoose

end Session

namespace Walk

variable {around : Surroundings} {pairs : Finset (Identity × String)} {lead : Lead}

theorem potential_meets {w w' : Walk} (h : Meets around lead w w') (hlead : lead.Within pairs) :
    w'.potential pairs ≤ w.potential pairs := by
  cases h with
  | follow nodes hfollow => exact Nat.add_le_add_right (hfollow.potential hlead) _
  | enter s nodes object reference t path limits =>
    have hwork : (s.mark (.of object reference) t.title).2.work = s.work := rfl
    unfold Walk.potential Session.potential
    rw [hwork]
    split
    · next hfresh =>
      have hless := Session.unrecorded_mark hlead hfresh
      simp only [List.length_append, List.length_singleton]
      omega
    · have hmono := Session.unrecorded_mono pairs
        (Session.pairs_mark s (.of object reference) t.title)
      dsimp only
      omega

/-- A visit adds itself to what was done, and nothing else. -/
theorem potential_visitNode {t : Tree} {node : TreeNode}
    (hleads : ∀ lead ∈ t.leads around.store node.object, lead.Within pairs) (s : Session) :
    Walk.potential (s.visitNode around t node) pairs ≤ s.potential pairs + 1 := by
  have hlog : (s.note (.visited t.title node.path)).log = s.log ++ [.visited t.title node.path] :=
    rfl
  have hvisit := Session.work_log hlog
  refine (Session.visitNode_trace around t s node).keep
    (P := fun w => w.potential pairs ≤ s.potential pairs + 1) ?_ ?_ ?_
  · rintro _ _ ⟨nodes, hstep⟩ hpotential
    exact Nat.le_trans
      (Nat.add_le_add_right (Nat.le_of_eq (Session.potential_asides hstep.asides pairs)) _)
      hpotential
  · exact fun lead hlead hstep hpotential =>
      Nat.le_trans (potential_meets hstep (hleads lead hlead)) hpotential
  · have hcard : ((s.note (.visited t.title node.path)).unrecorded pairs).card =
        (s.unrecorded pairs).card := rfl
    simp only [Event.taken?, Event.visited?, Option.toList_none, Option.toList_some,
      List.length_nil, List.length_singleton] at hvisit
    simp only [Walk.potential, Session.potential, hcard, List.length_nil]
    have hqueue : (s.note (.visited t.title node.path)).queue = s.queue := rfl
    rw [hqueue] at hvisit
    omega

end Walk

/-- The pairs of what can be met in these roots or in the store with one of the names. -/
def Store.pairs (store : Store) (roots : List Object) (names : Finset String) :
    Finset (Identity × String) :=
  (store.identities roots).toFinset ×ˢ names

/-- The title of a tree and its links are among the names. -/
structure Tree.Named (names : Finset String) (t : Tree) : Prop where
  title : t.title ∈ names
  links : ∀ link ∈ t.links, link ∈ names

/-- A lead to what is nested in these roots or in the store, under some of the names. -/
abbrev Lead.Confined (store : Store) (roots : List Object) (names : Finset String) (lead : Lead) :
    Prop :=
  lead.Sprung store (store.Nests roots) (fun links => ∀ link ∈ links, link ∈ names)
    (Tree.Named names)

section Confined

variable {store : Store} {roots : List Object} {names : Finset String} {lead : Lead}

theorem Lead.Confined.within (h : lead.Confined store roots names) :
    lead.Within (store.pairs roots names) := by
  have hpair {value object : Object} {reference : Option ObjectId} {name : String}
      (hvalue : store.Nests roots value)
      (hobject : store.dereference value = some (object, reference)) (hname : name ∈ names) :
      (Identity.of object reference, name) ∈ store.pairs roots names :=
    Finset.mem_product.2 ⟨List.mem_toFinset.2 (Store.mem_identities hvalue hobject), hname⟩
  cases h with
  | follow hlinks hvalue hpresent _ =>
    exact fun link hlink => hpair hvalue (Store.dereference_of_present hpresent) (hlinks link hlink)
  | enter htree hvalue hobject => exact hpair hvalue hobject htree.title

theorem Tree.Named.confined {t : Tree} (ht : t.Named names) {object : Object}
    (hobject : store.Holds roots object) (h : lead ∈ t.leads store object) :
    lead.Confined store roots names :=
  t.sprung_of_mem_leads (store.spans_holds roots) ht.links ht hobject h

theorem Table.confined {table : Table} (hnames : ∀ name ∈ table.names, name ∈ names)
    {version : Version} {object : Object} (hobject : store.Holds roots object)
    (h : lead ∈ Session.leadsUnder store version table object) :
    lead.Confined store roots names := by
  refine (Session.sprung_of_mem_leadsUnder (store.spans_holds roots) hobject h).mono id ?_ ?_
  · exact fun hlinks link hlink => hnames link (hlinks.mem_names hlink)
  · exact fun htree => ⟨hnames _ htree.title_mem_names,
      fun link hlink => hnames link (htree.declares.mem_names hlink)⟩

end Confined

namespace Session

variable {around : Surroundings} {roots : List Object} {names : Finset String}

theorem potential_visitNodes {t : Tree} (ht : t.Named names) (fuel : Nat) (s : Session)
    {nodes : List TreeNode} (hnodes : ∀ node ∈ nodes, around.store.Holds roots node.object) :
    (visitNodes around t fuel s nodes).potential (around.store.pairs roots names) ≤
      Walk.potential (s, nodes) (around.store.pairs roots names) := by
  induction fuel generalizing s nodes with
  | zero =>
    cases nodes with
    | nil => exact Nat.le_refl _
    | cons node rest => exact Nat.le_add_right _ _
  | succ fuel ih =>
    cases nodes with
    | nil => exact Nat.le_refl _
    | cons node rest =>
      have hnode : around.store.Holds roots node.object := hnodes node List.mem_cons_self
      have hvisit := Walk.potential_visitNode
        (fun lead hlead => (ht.confined hnode hlead).within) s
      have hwaiting : ∀ next ∈ rest ++ (s.visitNode around t node).2,
          around.store.Holds roots next.object := by
        intro next hnext
        rcases List.mem_append.1 hnext with hnext | hnext
        · exact hnodes next (List.mem_cons_of_mem _ hnext)
        · obtain ⟨_, _, hmet⟩ :=
            met_of_mem_visitNode (around.store.spans_holds roots) hnode hnext
          exact hmet.held
      have hrest := ih (s.visitNode around t node).1 hwaiting
      refine Nat.le_trans hrest ?_
      simp only [Walk.potential, List.length_append, List.length_cons] at hvisit ⊢
      omega

theorem Checks.potential {lead : Lead} {s s' : Session} (h : Checks around lead s s')
    (hlead : lead.Confined around.store roots names) :
    s'.potential (around.store.pairs roots names) ≤
      s.potential (around.store.pairs roots names) := by
  cases h with
  | follow hfollow => exact hfollow.potential hlead.within
  | walk _ object reference t path =>
    have hpair : (Identity.of object reference, t.title) ∈ around.store.pairs roots names :=
      hlead.within
    cases hlead with
    | enter ht hvalue hobject =>
      unfold walkTree
      dsimp only
      split
      · next hfresh =>
        have hroot : ∀ node ∈ [(⟨object, path, none, true⟩ : TreeNode)],
            around.store.Holds roots node.object := by
          simp only [List.mem_singleton, forall_eq]
          exact (around.store.spans_holds roots).dereference hvalue hobject
        have hvisits := potential_visitNodes ht (around.store.size + object.size + 1)
          (s.mark (.of object reference) t.title).2 hroot
        have hless := unrecorded_mark hpair hfresh
        have hwork : (s.mark (.of object reference) t.title).2.work = s.work := rfl
        simp only [Walk.potential, Session.potential, List.length_singleton, hwork] at hvisits ⊢
        omega
      · exact Nat.add_le_add_left
          (unrecorded_mono _ (pairs_mark s (.of object reference) t.title)) _

theorem potential_checkObject {item : WorkItem} (hobject : around.store.Holds roots item.object)
    {table : Table} (hnames : ∀ name ∈ table.names, name ∈ names) (s : Session) :
    (s.checkObject around item table).potential (around.store.pairs roots names) ≤
      s.potential (around.store.pairs roots names) := by
  refine (checkObject_trace around s item table).keep
    (P := fun s' => s'.potential (around.store.pairs roots names) ≤
      s.potential (around.store.pairs roots names)) ?_ ?_ (Nat.le_refl _)
  · intro a b hstep hpotential
    exact Nat.le_trans (Nat.le_of_eq (potential_asides hstep.asides _)) hpotential
  · intro a b lead hlead hstep hpotential
    exact Nat.le_trans (hstep.potential (Table.confined hnames hobject hlead)) hpotential

end Session

end PdfConform
