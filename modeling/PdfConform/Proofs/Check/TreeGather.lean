import Mathlib.Data.List.Perm.Basic
import PdfConform.Proofs.Check.Layout
import PdfConform.Proofs.Check.TreeVisits

/-! What a visit adds to a walk. It admits those child nodes of its node that were not recorded
before; where no node is reached twice these are all of them, and so a walk comes to every node of
the layout. -/
namespace PdfConform

theorem length_le_intercalate (separator : String) {link : String} {links : List String}
    (h : link ∈ links) : link.length ≤ (String.intercalate separator links).length := by
  induction links with
  | nil => cases h
  | cons first rest ih =>
    cases rest with
    | nil =>
      rw [List.mem_singleton.1 h, String.intercalate_singleton]
    | cons second rest =>
      rw [String.intercalate_cons_cons, String.length_append, String.length_append]
      rcases List.mem_cons.1 h with rfl | h
      · omega
      · have hrest := ih h
        omega

theorem Tree.ne_title {t : Tree} {link : String} (h : link ∈ t.links) : link ≠ t.title := by
  have hlength := length_le_intercalate "," h
  intro heq
  have htitle := congrArg String.length heq
  simp only [Tree.title, String.length_append] at htitle
  have hopen : "<".length = 1 := rfl
  omega

theorem Layout.perm_beneath (layout : Layout) :
    (layout.kids.map identity ++ layout.kids.flatMap beneath).Perm layout.beneath := by
  have hperm := List.map_append_flatMap_perm layout.kids identity beneath
  simp only [← identities_eq] at hperm
  rw [beneath, identitiesOf_eq]
  exact hperm

theorem Tree.unfolds_of_objects {t : Tree} {store : Store} {places : List Place}
    {kids : List Layout} (hkids : List.Forall₂ (t.Unfolds store) places kids)
    {nodes : List TreeNode} (h : nodes.map TreeNode.object = places.map Prod.fst) :
    List.Forall₂ (fun node kid => ∃ reference, t.Unfolds store (node.object, reference) kid)
      nodes kids := by
  have hobjects : List.Forall₂
      (fun object kid => ∃ reference, t.Unfolds store (object, reference) kid)
      (places.map Prod.fst) kids :=
    List.forall₂_map_left_iff.2 (hkids.imp fun place kid hkid => ⟨place.2, hkid⟩)
  rw [← h] at hobjects
  exact List.forall₂_map_left_iff.1 hobjects

/-- The node that a lead enters. -/
def Lead.place? : Lead → Option Place
  | .enter object reference _ => some (object, reference)
  | .follow _ _ _ => none

theorem Tree.places_of_leads (t : Tree) (store : Store) (object : Object) :
    (t.leads store object).filterMap Lead.place? = childrenOf store object := by
  have hvalues : ((t.valuesAt store object).filterMap (t.valueLead? store)).filterMap
      Lead.place? = [] := by
    rw [List.filterMap_eq_nil_iff]
    intro lead hlead
    obtain ⟨value, _, hlead⟩ := List.mem_filterMap.1 hlead
    unfold valueLead? at hlead
    split at hlead
    · cases hlead
    · split at hlead
      · cases hlead; rfl
      · cases hlead
  rw [leads_eq, List.filterMap_append, hvalues, List.nil_append, List.filterMap_map]
  exact List.filterMap_some

namespace Record

/-- What is recorded under a link, in order. -/
def under (r : Record) (link : String) : List Identity :=
  (r.pairs.filter (·.2 = link)).map Prod.fst

@[simp] theorem mem_under {r : Record} {identity : Identity} {link : String} :
    identity ∈ r.under link ↔ (identity, link) ∈ r.pairs := by
  simp [under]

theorem under_insert_of_ne (r : Record) (identity : Identity) {link other : String}
    (h : link ≠ other) : (r.insert identity link).2.under other = r.under other := by
  unfold under
  rw [pairs_insert]
  split
  · rfl
  · simp [List.filter_append, h]

theorem under_insert_self (r : Record) (identity : Identity) (link : String) :
    (r.insert identity link).2.under link =
      if (identity, link) ∈ r.pairs then r.under link else r.under link ++ [identity] := by
  unfold under
  rw [pairs_insert]
  split
  · rfl
  · simp [List.filter_append]

end Record

namespace Session

variable {around : Surroundings} {t : Tree}

theorem record_asides {s s' : Session} (h : Asides around s s') : s'.record = s.record := by
  induction h with
  | refl => rfl
  | tail _ hstep ih =>
    rw [← ih]
    cases hstep <;> rfl

/-- Nothing is recorded under a name that is none of the links. -/
theorem Follows.under {object : Object} {reference : Option ObjectId} {links : List String}
    {name : String} (hname : name ∉ links) {s s' : Session}
    (h : Follows around (.follow object reference links) s s') :
    s'.record.under name = s.record.under name := by
  cases h with
  | follow _ _ _ _ parent label path =>
    have hasides : (s.chooseLink around object links parent label path).2.record = s.record :=
      record_asides (chooseLink_asides s object links parent label path)
    unfold Session.follow
    dsimp only
    split
    · next link hlink =>
      rw [(enqueue_cases _ object reference link path).1, ← hasides]
      refine Record.under_insert_of_ne _ _ ?_
      rintro rfl
      exact hname (mem_of_chooseLink hlink)
    · rw [hasides]

/-- From one session to another these places were recorded as nodes of the tree, in order, each
for the first time. -/
structure Admits (t : Tree) (places : List Place) (s s' : Session) : Prop where
  recorded : s'.record.under t.title = s.record.under t.title ++ places.map Place.identity
  once : (places.map Place.identity).Nodup
  fresh : ∀ place ∈ places, (place.identity, t.title) ∉ s.record.pairs

namespace Admits

variable {places others : List Place} {a b c : Session}

theorem idle (h : b.record.under t.title = a.record.under t.title) : Admits t [] a b :=
  ⟨by rw [h, List.map_nil, List.append_nil], List.nodup_nil, by simp⟩

theorem mem_pairs (h : Admits t places a b) {identity : Identity} :
    (identity, t.title) ∈ b.record.pairs ↔
      (identity, t.title) ∈ a.record.pairs ∨ identity ∈ places.map Place.identity := by
  rw [← Record.mem_under, h.recorded, List.mem_append, Record.mem_under]

theorem trans (h : Admits t places a b) (k : Admits t others b c) :
    Admits t (places ++ others) a c := by
  have hnew : ∀ place ∈ others, (place.identity, t.title) ∉ a.record.pairs ∧
      place.identity ∉ places.map Place.identity := by
    intro place hplace
    have hfresh := k.fresh place hplace
    rwa [h.mem_pairs, not_or] at hfresh
  refine ⟨?_, ?_, ?_⟩
  · rw [k.recorded, h.recorded, List.map_append, List.append_assoc]
  · rw [List.map_append, List.nodup_append]
    refine ⟨h.once, k.once, ?_⟩
    rintro identity hidentity other hother rfl
    obtain ⟨place, hplace, rfl⟩ := List.mem_map.1 hother
    exact (hnew place hplace).2 hidentity
  · intro place hplace
    rcases List.mem_append.1 hplace with hplace | hplace
    · exact h.fresh place hplace
    · exact (hnew place hplace).1

theorem mark {place : Place} (hfresh : (place.identity, t.title) ∉ a.record.pairs) :
    Admits t [place] a (a.mark place.identity t.title).2 := by
  refine ⟨?_, List.nodup_singleton _, ?_⟩
  · exact (Record.under_insert_self a.record place.identity t.title).trans (if_neg hfresh)
  · simpa using hfresh

end Admits

end Session

namespace Walk

variable {around : Surroundings} {t : Tree} {a b : Walk}

/-- Between two states of a walk these places were recorded, and all of them wait. -/
structure Admits (t : Tree) (places : List Place) (w w' : Walk) : Prop where
  session : Session.Admits t places w.1 w'.1
  waiting : ∃ nodes, w'.2 = w.2 ++ nodes ∧ nodes.map TreeNode.object = places.map Prod.fst

namespace Admits

theorem idle {nodes : List TreeNode} {s s' : Session}
    (h : s'.record.under t.title = s.record.under t.title) :
    Admits t [] (s, nodes) (s', nodes) :=
  ⟨.idle h, [], (List.append_nil nodes).symm, rfl⟩

theorem trans {places others : List Place} {c : Walk} (h : Admits t places a b)
    (k : Admits t others b c) : Admits t (places ++ others) a c := by
  obtain ⟨nodes, hnodes, hobjects⟩ := h.waiting
  obtain ⟨nodes', hnodes', hobjects'⟩ := k.waiting
  refine ⟨h.session.trans k.session, nodes ++ nodes', ?_, ?_⟩
  · rw [hnodes', hnodes, List.append_assoc]
  · rw [List.map_append, List.map_append, hobjects, hobjects']

/-- A lead into the tree admits its node unless that was recorded before. It is recorded then. -/
theorem meets {lead : Lead}
    (hof : lead.Sprung around.store (fun _ => True) (t.links = ·) (t = ·))
    (h : Meets around lead a b) :
    (∃ places, places.Sublist lead.place?.toList ∧ Admits t places a b) ∧
      ∀ place ∈ lead.place?, (Place.identity place, t.title) ∈ b.1.record.pairs := by
  cases h with
  | @follow nodes _ s s' hfollow =>
    cases hof with
    | enter => cases hfollow
    | @follow _ object reference names hlinks =>
      subst hlinks
      have hidle : Admits t [] (s, nodes) (s', nodes) :=
        idle (hfollow.under fun hlink => Tree.ne_title hlink rfl)
      exact ⟨⟨[], List.nil_sublist _, hidle⟩, fun place hplace => by cases hplace⟩
  | enter s nodes object reference tree path limits =>
    obtain rfl : t = tree := by
      cases hof
      assumption
    refine ⟨?_, ?_⟩
    · by_cases hold : (Identity.of object reference, t.title) ∈ s.record.pairs
      · have hstale : (s.mark (.of object reference) t.title).1 ≠ true :=
          fun hfresh => Record.fresh_iff.1 hfresh hold
        rw [if_neg hstale]
        refine ⟨[], List.nil_sublist _, idle ?_⟩
        exact (Record.under_insert_self s.record _ _).trans (if_pos hold)
      · have hfresh : (s.mark (.of object reference) t.title).1 = true := Record.fresh_iff.2 hold
        rw [if_pos hfresh]
        exact ⟨[(object, reference)], List.Sublist.refl _, .mark hold, _, rfl, rfl⟩
    · rintro place ⟨⟩
      exact Record.mem_pairs_insert.2 (.inr rfl)

/-- Leads into the tree admit some of their nodes, and all of these are recorded in the end. -/
theorem of_trace {leads : List Lead} (h : Trace (Aside around) (Meets around) leads a b)
    (hof : ∀ lead ∈ leads, lead.Sprung around.store (fun _ => True) (t.links = ·) (t = ·)) :
    (∃ places, places.Sublist (leads.filterMap Lead.place?) ∧ Admits t places a b) ∧
      ∀ place ∈ leads.filterMap Lead.place?,
        (Place.identity place, t.title) ∈ b.1.record.pairs := by
  induction h with
  | done w => exact ⟨⟨[], List.Sublist.refl _, idle rfl⟩, by simp⟩
  | aside hstep _ ih =>
    obtain ⟨⟨places, hsub, hrest⟩, hrecorded⟩ := ih hof
    obtain ⟨nodes, hstep⟩ := hstep
    have hrecord := congrArg (Record.under · t.title) (Session.record_asides hstep.asides)
    exact ⟨⟨places, hsub, (idle hrecord).trans hrest⟩, hrecorded⟩
  | @act lead leads a b c hstep htrace ih =>
    obtain ⟨⟨first, hfirst, hmeets⟩, hnow⟩ := meets (hof lead List.mem_cons_self) hstep
    obtain ⟨⟨places, hsub, hrest⟩, hlater⟩ :=
      ih fun other hother => hof other (List.mem_cons_of_mem lead hother)
    have hsplit : (lead :: leads).filterMap Lead.place? =
        lead.place?.toList ++ leads.filterMap Lead.place? := by
      cases lead <;> rfl
    refine ⟨⟨first ++ places, hsplit ▸ hfirst.append hsub, hmeets.trans hrest⟩, ?_⟩
    intro place hplace
    rw [hsplit, List.mem_append, Option.mem_toList] at hplace
    rcases hplace with hplace | hplace
    · exact (grows_trace htrace).pairs.subset (hnow place hplace)
    · exact hlater place hplace

end Admits

/-- A visit admits those child nodes that were not recorded, so that all are in the end. -/
theorem admits_visitNode (around : Surroundings) (t : Tree) (s : Session) (node : TreeNode) :
    (∃ places, places.Sublist (Tree.childrenOf around.store node.object) ∧
      Admits t places (s, []) (s.visitNode around t node)) ∧
    ∀ child ∈ Tree.childrenOf around.store node.object,
      (child.identity, t.title) ∈ (s.visitNode around t node).1.record.pairs := by
  rw [← t.places_of_leads]
  have hof : ∀ lead ∈ t.leads around.store node.object,
      lead.Sprung around.store (fun _ => True) (t.links = ·) (t = ·) :=
    fun lead hlead =>
      Tree.sprung_of_mem_leads around.store.closed_true.spans rfl rfl trivial hlead
  obtain ⟨⟨places, hsub, hadmits⟩, hrecorded⟩ :=
    Admits.of_trace (Session.visitNode_trace around t s node) hof
  obtain ⟨⟨hunder, honce, hfresh⟩, hwaiting⟩ := hadmits
  exact ⟨⟨places, hsub, ⟨hunder, honce, hfresh⟩, hwaiting⟩, hrecorded⟩

/-- The visit of a node admits all its child nodes if these are different and none was recorded. -/
theorem admits_children {s : Session} {node : TreeNode}
    (honce : ((Tree.childrenOf around.store node.object).map Place.identity).Nodup)
    (hfresh : ∀ identity ∈ (Tree.childrenOf around.store node.object).map Place.identity,
      (identity, t.title) ∉ s.record.pairs) :
    Admits t (Tree.childrenOf around.store node.object) (s, []) (s.visitNode around t node) := by
  obtain ⟨⟨places, hsub, hadmits⟩, hrecorded⟩ := admits_visitNode around t s node
  have hall : (Tree.childrenOf around.store node.object).map Place.identity ⊆
      places.map Place.identity := by
    intro identity hidentity
    obtain ⟨child, hchild, rfl⟩ := List.mem_map.1 hidentity
    exact (hadmits.session.mem_pairs.1 (hrecorded child hchild)).resolve_left (hfresh _ hidentity)
  -- All children are recorded in the end and none was before, so none is left out.
  have hlength := (honce.subperm hall).length_le
  rw [List.length_map, List.length_map] at hlength
  obtain rfl := hsub.eq_of_length_le hlength
  exact hadmits

/-- Nodes wait with what the document has below them, none of it met before or twice. -/
structure Awaits (t : Tree) (store : Store) (s : Session) (pending : List (TreeNode × Layout)) :
    Prop where
  unfolds : ∀ p ∈ pending, ∃ reference, t.Unfolds store (p.1.object, reference) p.2
  once : (pending.flatMap fun p => p.2.beneath).Nodup
  fresh : ∀ identity ∈ pending.flatMap fun p => p.2.beneath,
    (identity, t.title) ∉ s.record.pairs

/-- After the visit of the first of them its child nodes wait too, in order. -/
theorem Awaits.visit {s : Session} {node : TreeNode} {layout : Layout}
    {pending : List (TreeNode × Layout)}
    (h : Awaits t around.store s ((node, layout) :: pending)) :
    ∃ met : List (TreeNode × Layout), (s.visitNode around t node).2 = met.map Prod.fst ∧
      met.map Prod.snd = layout.kids ∧
      Awaits t around.store (s.visitNode around t node).1 (pending ++ met) := by
  obtain ⟨reference, hlayout⟩ := h.unfolds (node, layout) List.mem_cons_self
  have hkids := hlayout.kids
  have hidentities := Tree.identity_of_unfolds hkids
  have hperm := (layout.perm_beneath.append_right (pending.flatMap fun p => p.2.beneath))
  have honce := h.once
  have hfresh := h.fresh
  rw [List.flatMap_cons] at honce hfresh
  rw [List.append_assoc] at hperm
  rw [← hperm.nodup_iff, List.nodup_append] at honce
  obtain ⟨hown, hother, hdiffer⟩ := honce
  rw [hidentities] at hown
  have hadmits : Admits t (Tree.childrenOf around.store node.object) (s, [])
      (s.visitNode around t node) := by
    refine admits_children hown fun identity hidentity => ?_
    rw [← hidentities] at hidentity
    exact hfresh identity (hperm.subset (List.mem_append_left _ hidentity))
  obtain ⟨nodes, hnodes, hobjects⟩ := hadmits.waiting
  have hwait := Tree.unfolds_of_objects hkids hobjects
  refine ⟨nodes.zip layout.kids, ?_, ?_, ?_⟩
  · rw [hnodes, List.nil_append, List.map_fst_zip hwait.length_eq.le]
  · exact List.map_snd_zip hwait.length_eq.ge
  · have hlater : (pending ++ nodes.zip layout.kids).flatMap (fun p => p.2.beneath) =
        pending.flatMap (fun p => p.2.beneath) ++ layout.kids.flatMap Layout.beneath := by
      have hmet : (nodes.zip layout.kids).flatMap (fun p => p.2.beneath) =
          ((nodes.zip layout.kids).map Prod.snd).flatMap Layout.beneath :=
        (List.flatMap_map Prod.snd Layout.beneath _).symm
      rw [List.flatMap_append, hmet, List.map_snd_zip hwait.length_eq.ge]
    refine ⟨?_, ?_, ?_⟩
    · intro p hp
      rcases List.mem_append.1 hp with hp | hp
      · exact h.unfolds p (List.mem_cons_of_mem _ hp)
      · exact List.forall₂_zip hwait hp
    · rw [hlater]
      exact List.perm_append_comm.nodup_iff.1 hother
    · intro identity hidentity hold
      rw [hlater] at hidentity
      have hmem := List.perm_append_comm.mem_iff.1 hidentity
      rcases hadmits.session.mem_pairs.1 hold with hold | hnow
      · exact hfresh identity (hperm.subset (List.mem_append_right _ hmem)) hold
      · rw [← hidentities] at hnow
        exact hdiffer identity hnow identity hmem rfl

end Walk

end PdfConform
