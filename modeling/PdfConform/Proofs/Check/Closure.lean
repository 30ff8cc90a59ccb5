import PdfConform.Proofs.Check.TreeWalk
import PdfConform.Proofs.Check.Work

/-! What is recorded is being done. Every recorded pair belongs to work that the seeds lead to,
and that waits, is under way, or has been done, with all that it leads to recorded as well. -/
namespace PdfConform

/-- There is a table to check the object against. -/
def Work.Checkable (g : Setting) : Work → Prop
  | .check _ _ link => ∃ table, g.view link = .ok table
  | .visit _ _ _ => False

/-- Work that has been done, with these pairs recorded and those checked. -/
structure Setting.Done (g : Setting) (recorded checked : List (Identity × String)) (w : Work) :
    Prop where
  next : ∀ w' ∈ g.next w, w'.pair ∈ recorded
  checked : w.Checkable g → w.pair ∈ checked

namespace Session

/-- What following a lead gives to do is recorded. -/
def Records (g : Setting) (s : Session) (lead : Lead) : Prop :=
  ∀ w, g.work? lead = some w → w.pair ∈ s.record.pairs

structure Covers (g : Setting) (fs : Files) (seeds : List Work) (underway : Work → Prop)
    (s : Session) : Prop where
  view : s.cache.view fs = g.view
  version : s.version = g.version
  queued : ∀ item ∈ s.queue, g.Reaches seeds item.work
  recorded : ∀ pair ∈ s.record.pairs, ∃ w, g.Reaches seeds w ∧ w.pair = pair ∧
    ((∃ item ∈ s.queue, item.work = w) ∨ underway w ∨ g.Done s.record.pairs s.checked w)
  checked : ∀ pair ∈ s.checked, ∃ w, g.Reaches seeds w ∧ w.Checkable g ∧ w.pair = pair

variable {g : Setting} {fs : Files} {seeds : List Work} {underway underway' : Work → Prop}
  {s s' : Session} {lead : Lead}

theorem Records.mono (hpairs : s.record.pairs <+: s'.record.pairs) (h : s.Records g lead) :
    s'.Records g lead :=
  fun w hw => hpairs.subset (h w hw)

namespace Covers

theorem imp (h : s.Covers g fs seeds underway)
    (himp : ∀ w, underway w → underway' w ∨ g.Done s.record.pairs s.checked w) :
    s.Covers g fs seeds underway' := by
  refine { h with recorded := ?_ }
  intro pair hpair
  obtain ⟨w, hw, hname, hqueue | hunder | hdone⟩ := h.recorded pair hpair
  · exact ⟨w, hw, hname, .inl hqueue⟩
  · exact ⟨w, hw, hname, .inr (himp w hunder)⟩
  · exact ⟨w, hw, hname, .inr (.inr hdone)⟩

/-- What comes to be recorded waits or is under way, and nothing else is lost. -/
theorem extend (h : s.Covers g fs seeds underway) (hview : s'.cache.view fs = s.cache.view fs)
    (hversion : s'.version = s.version) (hchecked : s'.checked = s.checked)
    (hqueue : s.queue ⊆ s'.queue) (hqueued : ∀ item ∈ s'.queue, g.Reaches seeds item.work)
    (hpairs : s.record.pairs ⊆ s'.record.pairs)
    (hnew : ∀ pair ∈ s'.record.pairs, pair ∈ s.record.pairs ∨ ∃ w, g.Reaches seeds w ∧
      w.pair = pair ∧ ((∃ item ∈ s'.queue, item.work = w) ∨ underway w)) :
    s'.Covers g fs seeds underway := by
  refine ⟨hview.trans h.view, hversion.trans h.version, hqueued, ?_, hchecked ▸ h.checked⟩
  intro pair hpair
  rcases hnew pair hpair with hold | ⟨w, hw, hname, hwaits⟩
  · obtain ⟨w, hw, hname, ⟨item, hitem, hwork⟩ | hunder | hdone⟩ := h.recorded pair hold
    · exact ⟨w, hw, hname, .inl ⟨item, hqueue hitem, hwork⟩⟩
    · exact ⟨w, hw, hname, .inr (.inl hunder)⟩
    · exact ⟨w, hw, hname, .inr (.inr
        ⟨fun w' hw' => hpairs (hdone.next w' hw'), fun hw => hchecked ▸ hdone.checked hw⟩)⟩
  · exact ⟨w, hw, hname, hwaits.imp_right .inl⟩

theorem aside (h : s.Covers g fs seeds underway) (hstep : Aside (.still fs g.store) s s') :
    s'.Covers g fs seeds underway := by
  cases hstep with
  | report found => exact ⟨h.view, h.version, h.queued, h.recorded, h.checked⟩
  | lookup link =>
    exact ⟨(view_table fs g.store s link).trans h.view, h.version, h.queued, h.recorded,
      h.checked⟩

theorem asides (h : s.Covers g fs seeds underway) (hsteps : Asides (.still fs g.store) s s') :
    s'.Covers g fs seeds underway := by
  induction hsteps with
  | refl => exact h
  | tail _ hstep ih => exact ih.aside hstep

/-- A pair may be recorded for what is under way, or once more. -/
theorem mark (h : s.Covers g fs seeds underway) {w : Work} {identity : Identity} {link : String}
    (hw : g.Reaches seeds w) (hname : w.pair = (identity, link))
    (hunder : (identity, link) ∉ s.record.pairs → underway w) :
    (s.mark identity link).2.Covers g fs seeds underway := by
  refine h.extend rfl rfl rfl (List.Subset.refl _) h.queued (pairs_mark s identity link).subset ?_
  intro pair hpair
  rcases Record.mem_pairs_insert.1 hpair with hold | rfl
  · exact .inl hold
  · by_cases hold : (identity, link) ∈ s.record.pairs
    · exact .inl hold
    · exact .inr ⟨w, hw, hname, .inr (hunder hold)⟩

theorem enqueue (h : s.Covers g fs seeds underway) {object : Object}
    {reference : Option ObjectId} {link : String}
    (hw : g.Reaches seeds (.check object (.of object reference) link)) (path : String) :
    (s.enqueue object reference link path).Covers g fs seeds underway := by
  have hgrows := grows_enqueue s object reference link path
  have hcache : (s.enqueue object reference link path).cache = s.cache := by rw [enqueue_eq]
  have hchecked : (s.enqueue object reference link path).checked = s.checked := by rw [enqueue_eq]
  obtain ⟨hrecord, hcases⟩ := enqueue_cases s object reference link path
  have hpair {pair : Identity × String}
      (hpair : pair ∈ (s.enqueue object reference link path).record.pairs) :
      pair ∈ s.record.pairs ∨ pair = (Identity.of object reference, link) := by
    rw [hrecord] at hpair
    exact Record.mem_pairs_insert.1 hpair
  rcases hcases with ⟨_, hqueue, _⟩ | ⟨hold, hqueue, _⟩
  · refine h.extend (congrArg (Cache.view · fs) hcache) hgrows.version hchecked ?_ ?_
      hgrows.pairs.subset ?_ <;> rw [hqueue]
    · exact List.subset_append_left _ _
    · simpa only [List.mem_append, List.mem_singleton, or_imp, forall_and, forall_eq] using
        ⟨h.queued, hw⟩
    · intro pair hmem
      refine (hpair hmem).imp_right ?_
      rintro rfl
      exact ⟨_, hw, rfl, .inl ⟨_, List.mem_append_right _ (List.mem_singleton_self _), rfl⟩⟩
  · refine h.extend (congrArg (Cache.view · fs) hcache) hgrows.version hchecked ?_ ?_
      hgrows.pairs.subset ?_
    · exact hqueue ▸ List.Subset.refl _
    · exact hqueue ▸ h.queued
    · exact fun pair hmem => .inl ((hpair hmem).elim id fun hsame => hsame ▸ hold)

end Covers

theorem Follows.covers (h : Follows (.still fs g.store) lead s s')
    (hlead : ∀ w, g.work? lead = some w → g.Reaches seeds w)
    (hs : s.Covers g fs seeds underway) :
    s'.Covers g fs seeds underway ∧ s'.Records g lead := by
  cases h with
  | follow _ object reference links parent label path =>
    have hasides : Asides (.still fs g.store) s
        (s.chooseLink (.still fs g.store) object links parent label path).2 :=
      chooseLink_asides s object links parent label path
    have hchosen := hs.asides hasides
    have hchoice := chooseLink_still fs g.store s object links parent label path
    rw [hs.view, hs.version] at hchoice
    unfold Session.follow Records Setting.work?
    dsimp only
    rw [hchoice]
    simp only [Setting.work?] at hlead
    cases hlink : Resolution.choice g.view g.store g.version object links with
    | none => exact ⟨hchosen, fun w hw => by cases hw⟩
    | some link =>
      rw [hlink] at hlead
      refine ⟨hchosen.enqueue (hlead _ rfl) path, ?_⟩
      rintro w ⟨⟩
      exact recorded_of_enqueue _ object reference link path

end Session

namespace Walk

open Session

/-- Work on one of the nodes, under whatever identity it was recorded. -/
def Waits (t : Tree) (nodes : List TreeNode) (w : Work) : Prop :=
  ∃ node ∈ nodes, ∃ identity, w = .visit node.object identity t

structure Covers (g : Setting) (fs : Files) (seeds : List Work) (underway : Work → Prop)
    (t : Tree) (w : Walk) : Prop where
  session : w.1.Covers g fs seeds fun w' => underway w' ∨ Waits t w.2 w'
  nodes : ∀ node ∈ w.2, ∃ identity, g.Reaches seeds (.visit node.object identity t)

variable {g : Setting} {fs : Files} {seeds : List Work} {underway : Work → Prop} {t : Tree}

/-- Meeting what a node leads to, with the node itself and others still waiting. -/
theorem Meets.covers {node : TreeNode} {rest : List TreeNode} {identity : Identity}
    (hnode : g.Reaches seeds (.visit node.object identity t)) {lead : Lead}
    (hlead : lead ∈ t.leads g.store node.object) {w w' : Walk}
    (h : Meets (.still fs g.store) lead w w')
    (hw : Covers g fs seeds underway t (w.1, node :: (rest ++ w.2))) :
    Covers g fs seeds underway t (w'.1, node :: (rest ++ w'.2)) ∧ w'.1.Records g lead := by
  have hreaches : ∀ w, g.work? lead = some w → g.Reaches seeds w :=
    fun w hwork => .next hnode (List.mem_filterMap.2 ⟨lead, hlead, hwork⟩)
  cases h with
  | follow nodes hfollow =>
    obtain ⟨hsession, hrecords⟩ := hfollow.covers hreaches hw.session
    exact ⟨⟨hsession, hw.nodes⟩, hrecords⟩
  | enter s nodes object reference t' path limits =>
    have hsprung : Lead.Sprung g.store (fun _ => True) (fun _ => True) (t = ·)
        (.enter object reference t') :=
      t.sprung_of_mem_leads g.store.closed_true.spans trivial rfl trivial hlead
    obtain rfl : t = t' := by cases hsprung with | enter htree => exact htree
    have hchild : g.Reaches seeds (.visit object (.of object reference) t) := hreaches _ rfl
    refine ⟨?_, ?_⟩
    · split
      · next hfresh =>
        refine ⟨?_, ?_⟩
        · refine (hw.session.imp ?_).mark hchild rfl ?_
          · rintro w' (hunder | ⟨waiting, hwaiting, hwork⟩)
            · exact .inl (.inl hunder)
            · refine .inl (.inr ⟨waiting, ?_, hwork⟩)
              rw [← List.append_assoc, ← List.cons_append]
              exact List.mem_append_left _ hwaiting
          · exact fun _ => .inr ⟨⟨object, path, limits, false⟩, by simp, _, rfl⟩
        · intro next hnext
          rw [← List.append_assoc, ← List.cons_append, List.mem_append,
            List.mem_singleton] at hnext
          rcases hnext with hnext | rfl
          · exact hw.nodes next hnext
          · exact ⟨_, hchild⟩
      · next hstale =>
        refine ⟨hw.session.mark hchild rfl fun hnew => ?_, hw.nodes⟩
        exact absurd (Record.fresh_iff.2 hnew) hstale
    · rintro w ⟨⟩
      exact Record.mem_pairs_insert.2 (.inr rfl)

theorem Visit.covers {w w' : Walk} (h : Visit (.still fs g.store) t w w')
    (hw : Covers g fs seeds underway t w) : Covers g fs seeds underway t w' := by
  cases h with
  | first s node rest =>
    obtain ⟨identity, hnode⟩ := hw.nodes node List.mem_cons_self
    have hnoted : Covers g fs seeds underway t
        (s.note (.visited t.title node.path), node :: (rest ++ [])) := by
      rw [List.append_nil]
      obtain ⟨⟨hview, hversion, hqueued, hrecorded, hchecked⟩, hnodes⟩ := hw
      exact ⟨⟨hview, hversion, hqueued, hrecorded, hchecked⟩, hnodes⟩
    obtain ⟨⟨hvisited, _⟩, hleads⟩ := (visitNode_trace (.still fs g.store) t s node).collect
      (P := fun w => Covers g fs seeds underway t (w.1, node :: (rest ++ w.2)))
      (Q := fun lead w => w.1.Records g lead)
      (by
        rintro _ _ ⟨nodes, hstep⟩ hcovers
        exact ⟨⟨hcovers.session.aside hstep, hcovers.nodes⟩,
          fun lead hrecords => hrecords.mono (grows_asides hstep.asides).pairs⟩)
      (by
        intro a b lead hlead hstep hcovers
        obtain ⟨hb, hrecords⟩ := hstep.covers hnode hlead hcovers
        refine ⟨⟨hb, fun other hother => hother.mono ?_⟩, hrecords⟩
        exact (grows_trace (.ofAct hstep)).pairs)
      hnoted
    refine ⟨hvisited.session.imp ?_, fun next hnext => hvisited.nodes next
      (List.mem_cons_of_mem _ hnext)⟩
    rintro w' (hunder | ⟨waiting, hwaiting, identity', rfl⟩)
    · exact .inl (.inl hunder)
    · rcases List.mem_cons.1 hwaiting with rfl | hwaiting
      · refine .inr ⟨?_, fun hcheck => hcheck.elim⟩
        intro w' hw'
        obtain ⟨lead, hlead, hwork⟩ := List.mem_filterMap.1 hw'
        exact hleads lead hlead w' hwork
      · exact .inl (.inr ⟨waiting, hwaiting, identity', rfl⟩)

theorem Visits.covers {w w' : Walk} (h : Visits (.still fs g.store) t w w')
    (hw : Covers g fs seeds underway t w) : Covers g fs seeds underway t w' := by
  induction h with
  | refl => exact hw
  | tail _ hvisit ih => exact hvisit.covers ih

end Walk

namespace Session

variable {g : Setting} {fs : Files} {seeds : List Work} {underway : Work → Prop} {s s' : Session}

/-- A tree is walked until none of its nodes waits. -/
theorem Covers.walkTree (h : s.Covers g fs seeds underway) {t : Tree} {root : Object}
    {reference : Option ObjectId} (hroot : g.Reaches seeds (.visit root (.of root reference) t))
    (path : String) :
    (s.walkTree (.still fs g.store) t root reference path).Covers g fs seeds underway ∧
      (Identity.of root reference, t.title) ∈
        (s.walkTree (.still fs g.store) t root reference path).record.pairs := by
  have hmarked : (Identity.of root reference, t.title) ∈
      (s.mark (.of root reference) t.title).2.record.pairs := Record.mem_pairs_insert.2 (.inr rfl)
  by_cases hold : (Identity.of root reference, t.title) ∈ s.record.pairs
  · have hstale : (s.mark (.of root reference) t.title).1 = false := by
      rw [Bool.eq_false_iff]
      exact fun hfresh => Record.fresh_iff.1 hfresh hold
    unfold Session.walkTree
    dsimp only
    rw [hstale]
    exact ⟨h.mark hroot rfl fun hnew => absurd hold hnew, hmarked⟩
  · have hvisits := Walk.visits_walkTree (.still fs g.store) t hold path
    have hstart : Walk.Covers g fs seeds underway t (Walk.start s t root reference path) := by
      refine ⟨?_, ?_⟩
      · refine (h.imp fun w hunder => .inl (.inl hunder)).mark hroot rfl fun _ => ?_
        exact .inr ⟨⟨root, path, none, true⟩, List.mem_singleton_self _, _, rfl⟩
      · intro node hnode
        obtain rfl := List.mem_singleton.1 hnode
        exact ⟨_, hroot⟩
    refine ⟨(hvisits.covers hstart).session.imp ?_, hvisits.grows.pairs.subset hmarked⟩
    rintro w (hunder | ⟨node, hnode, _⟩)
    · exact .inl hunder
    · cases hnode

theorem Checks.covers {lead : Lead} (h : Checks (.still fs g.store) lead s s')
    (hlead : ∀ w, g.work? lead = some w → g.Reaches seeds w)
    (hs : s.Covers g fs seeds underway) :
    s'.Covers g fs seeds underway ∧ s'.Records g lead := by
  cases h with
  | follow hfollow => exact hfollow.covers hlead hs
  | walk _ object reference t path =>
    obtain ⟨hwalked, hrecorded⟩ := hs.walkTree (hlead _ rfl) path
    refine ⟨hwalked, ?_⟩
    rintro w ⟨⟩
    exact hrecorded

end Session

end PdfConform
