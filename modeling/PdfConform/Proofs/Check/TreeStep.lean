import PdfConform.Proofs.Check.LeadTrace

/-! A tree walk does nothing but the elementary steps, and only with objects that can be
reached from its nodes. -/
namespace PdfConform

/-- Where a lead comes from: a value that is nested somewhere, under declared links or as a
node of a declared tree. -/
inductive Lead.Sprung (store : Store) (nested : Object → Prop) (links : List String → Prop)
    (trees : Tree → Prop) : Lead → Prop
  | follow {value object : Object} {reference : Option ObjectId} {names : List String} :
    links names → nested value → store.present value = some (object, reference) →
    object.isContainer = true → Sprung store nested links trees (.follow object reference names)
  | enter {value object : Object} {reference : Option ObjectId} {t : Tree} :
    trees t → nested value → store.dereference value = some (object, reference) →
    Sprung store nested links trees (.enter object reference t)

theorem Lead.Sprung.mono {store : Store} {nested nested' : Object → Prop}
    {links links' : List String → Prop} {trees trees' : Tree → Prop} {lead : Lead}
    (hnested : ∀ {object}, nested object → nested' object)
    (hlinks : ∀ {names}, links names → links' names) (htrees : ∀ {t}, trees t → trees' t)
    (h : lead.Sprung store nested links trees) :
    lead.Sprung store nested' links' trees' := by
  cases h with
  | follow hnames hvalue hpresent hcontainer =>
    exact .follow (hlinks hnames) (hnested hvalue) hpresent hcontainer
  | enter htree hvalue hobject => exact .enter (htrees htree) (hnested hvalue) hobject

namespace Tree

variable {store : Store} {held nested : Object → Prop}

theorem held_of_value? (hspans : store.Spans held nested) {d : Dictionary} {key : String}
    {object : Object} (hnode : held (.dictionary d)) (h : value? store d key = some object) :
    held object := by
  obtain ⟨⟨found, reference⟩, hfound, rfl⟩ := Option.map_eq_some_iff.1 h
  obtain ⟨value, hvalue, hpresent⟩ := Option.bind_eq_some_iff.1 hfound
  have hnested : nested value := hspans.entry hnode rfl (Ordered.mem_of_get? hvalue)
  exact hspans.dereference hnested (Store.dereference_of_present hpresent)

theorem mem_of_mem_pairs {items : List Object} {pair : Object × Option Object}
    (h : pair ∈ pairs items) : pair.1 ∈ items ∧ ∀ value, pair.2 = some value → value ∈ items := by
  fun_induction pairs items with
  | case1 key value rest ih =>
    rcases List.mem_cons.1 h with rfl | h
    · simp
    · obtain ⟨hkey, hvalue⟩ := ih h
      exact ⟨by simp [hkey], fun value h => by simp [hvalue value h]⟩
  | case2 key => simp_all
  | case3 => simp at h

theorem nested_of_mem_itemsOf? (hspans : store.Spans held nested) {d : Dictionary} {key : String}
    (hnode : held (.dictionary d)) {item : Object} (h : item ∈ itemsOf? (value? store d key)) :
    nested item := by
  cases hvalue : value? store d key with
  | none => simp [itemsOf?, hvalue] at h
  | some object =>
    have hobject := held_of_value? hspans hnode hvalue
    cases object with
    | array items =>
      rw [hvalue] at h
      exact hspans.item hobject h
    | _ => simp [itemsOf?, hvalue, Object.asArray?] at h

variable {links : List String → Prop} {trees : Tree → Prop} {t : Tree}

theorem nested_of_mem_valuesAt (hspans : store.Spans held nested) {object value : Object}
    (hobject : held object) (h : value ∈ t.valuesAt store object) : nested value := by
  cases object with
  | dictionary d =>
    obtain ⟨pair, hpair, hvalue⟩ := List.mem_filterMap.1 h
    obtain ⟨_, _, hvalue⟩ := Option.bind_eq_some_iff.1 hvalue
    exact nested_of_mem_itemsOf? hspans hobject ((mem_of_mem_pairs hpair).2 value hvalue)
  | _ => cases h

/-- A child node is what something nested in its parent refers to. -/
theorem nested_of_mem_childrenOf (hspans : store.Spans held nested) {object : Object}
    {child : Place} (hobject : held object) (h : child ∈ childrenOf store object) :
    ∃ value, nested value ∧ store.dereference value = some child := by
  cases object with
  | dictionary d =>
    obtain ⟨value, hvalue, hchild⟩ := List.mem_filterMap.1 h
    exact ⟨value, nested_of_mem_itemsOf? hspans hobject hvalue, hchild⟩
  | _ => cases h

theorem sprung_of_mem_leads (hspans : store.Spans held nested) (hlinks : links t.links)
    (htree : trees t) {object : Object} (hobject : held object) {lead : Lead}
    (h : lead ∈ t.leads store object) : lead.Sprung store nested links trees := by
  rcases lead_cases h with
    ⟨value, hvalue, found, reference, hpresent, hcontainer, rfl⟩ | ⟨child, hchild, rfl⟩
  · exact .follow hlinks (nested_of_mem_valuesAt hspans hobject hvalue) hpresent hcontainer
  · obtain ⟨kid, hkid, hfound⟩ := nested_of_mem_childrenOf hspans hobject hchild
    exact .enter htree hkid hfound

end Tree

namespace Session

variable {around : Surroundings} {known : Object → Prop} {declared : List String → Prop}

theorem Follows.steps {lead : Lead}
    (hlead : lead.Sprung around.store known declared fun t => declared t.links) {s s' : Session}
    (h : Follows around lead s s') : Steps around known declared s s' := by
  cases h with
  | follow _ object reference links parent label path =>
    have hchoose : Steps around known declared s
        (s.chooseLink around object links parent label path).2 :=
      chooseLink_steps s object links parent label path
    cases hlead with
    | follow hlinks hvalue hpresent hcontainer =>
      unfold Session.follow
      dsimp only
      split
      · next link hlink =>
        exact hchoose.tail
          (.enqueue _ path hlinks (mem_of_chooseLink hlink) hvalue hpresent hcontainer)
      · exact hchoose

theorem steps_meets {lead : Lead}
    (hlead : lead.Sprung around.store known declared fun t => declared t.links) {w w' : Walk}
    (h : Walk.Meets around lead w w') : Steps around known declared w.1 w'.1 := by
  cases h with
  | follow nodes hfollow => exact hfollow.steps hlead
  | enter s nodes object reference t path limits =>
    cases hlead with
    | enter htree hvalue hobject => exact (Step.node s t htree hvalue hobject).steps

theorem visitNode_steps (hclosed : around.store.Closed known) {t : Tree}
    (hlinks : declared t.links) {node : TreeNode} (hnode : known node.object) (s : Session) :
    Steps around known declared s (s.visitNode around t node).1 := by
  have hvisit : Steps around known declared s (s.note (.visited t.title node.path)) :=
    (Step.visit s _ _).steps
  refine (visitNode_trace around t s node).keep
    (P := fun w => Steps around known declared s w.1) ?_ ?_ hvisit
  · rintro _ _ ⟨nodes, hstep⟩ hsteps
    exact hsteps.tail hstep.step
  · intro a b lead hlead hstep hsteps
    exact hsteps.trans
      (steps_meets (Tree.sprung_of_mem_leads hclosed.spans hlinks hlinks hnode hlead) hstep)

/-- A node that waits because it was met among the child nodes of one with these limits. -/
structure Met (held : Object → Prop) (limits : Option Limits) (child : TreeNode) : Prop where
  held : held child.object
  bounds : child.bounds = limits
  notRoot : child.isRoot = false

variable {held nested : Object → Prop}

theorem met_of_mem_meetKid (hspans : around.store.Spans held nested) {t : Tree} {kid : Object × Nat}
    (hkid : nested kid.1) {limits : Option Limits} {path : String}
    {found : Session × List TreeNode} {child : TreeNode}
    (h : child ∈ (meetKid around t limits path found kid).2) :
    child ∈ found.2 ∨ Met held limits child := by
  unfold meetKid at h
  dsimp only at h
  split at h
  · exact .inl h
  · next object reference hobject =>
    split at h
    · rcases List.mem_append.1 h with h | h
      · exact .inl h
      · rw [List.mem_singleton.1 h]
        exact .inr ⟨hspans.dereference hkid hobject, rfl, rfl⟩
    · exact .inl h

theorem met_of_mem_meetKids (hspans : around.store.Spans held nested) {t : Tree} {kids : Object}
    (hkids : held kids) {limits : Option Limits} {path : String} {s : Session}
    {child : TreeNode} (h : child ∈ (s.meetKids around t limits path kids).2) :
    Met held limits child := by
  unfold meetKids at h
  split at h
  · refine List.foldlRecOn
      (motive := fun found : Session × List TreeNode => ∀ child ∈ found.2, Met held limits child)
      _ _ (by simp) ?_ child h
    intro found hfound kid hkid child hchild
    have hitem := hspans.item hkids (List.fst_mem_of_mem_zipIdx hkid)
    exact (met_of_mem_meetKid hspans hitem hchild).elim (hfound child) id
  · simp at h

theorem met_of_mem_visitNode (hspans : around.store.Spans held nested) {t : Tree}
    {parent child : TreeNode} (hparent : held parent.object) {s : Session}
    (h : child ∈ (s.visitNode around t parent).2) :
    ∃ d, parent.object = .dictionary d ∧ Met held (nodeLimits around t parent d).1 child := by
  unfold visitNode at h
  dsimp only at h
  split at h
  · next d hd =>
    rw [hd] at hparent
    split at h
    · simp at h
    · next kids hkids =>
      have hkids := Tree.held_of_value? hspans hparent hkids
      exact ⟨d, hd, met_of_mem_meetKids hspans hkids h⟩
  · simp at h

theorem visitNodes_steps (hclosed : around.store.Closed known) {t : Tree}
    (hlinks : declared t.links) (fuel : Nat) (s : Session) {nodes : List TreeNode}
    (hnodes : ∀ node ∈ nodes, known node.object) :
    Steps around known declared s (visitNodes around t fuel s nodes) := by
  induction fuel generalizing s nodes with
  | zero =>
    cases nodes with
    | nil => exact .refl
    | cons node rest => exact .refl
  | succ fuel ih =>
    cases nodes with
    | nil => exact .refl
    | cons node rest =>
      have hnode : known node.object := hnodes node (by simp)
      have hvisit := visitNode_steps hclosed hlinks hnode s
      refine hvisit.trans (ih _ ?_)
      intro next hnext
      rcases List.mem_append.1 hnext with hnext | hnext
      · exact hnodes next (by simp [hnext])
      · obtain ⟨_, _, hmet⟩ := met_of_mem_visitNode hclosed.spans hnode hnext
        exact hmet.held

theorem walkTree_steps (hclosed : around.store.Closed known) {t : Tree} (hlinks : declared t.links)
    {value root : Object} {reference : Option ObjectId} (hvalue : known value)
    (hroot : around.store.dereference value = some (root, reference)) (s : Session)
    (path : String) :
    Steps around known declared s (s.walkTree around t root reference path) := by
  have hmark : Steps around known declared s (s.mark (.of root reference) t.title).2 :=
    (Step.node s t hlinks hvalue hroot).steps
  unfold walkTree
  dsimp only
  split
  · refine hmark.trans (visitNodes_steps hclosed hlinks _ _ ?_)
    simpa using hclosed.spans.dereference hvalue hroot
  · exact hmark

end Session

end PdfConform
