import PdfConform.Proofs.Check.TreeVisits

/-! Stores that agree. What becomes of an object depends on a store only through the references that
can be followed from it, so a store may gain an object that nothing refers to. -/
namespace PdfConform

/-- The first store gives these objects no way out of them, and under their references the second
holds the same. -/
structure Store.Agrees (store store' : Store) (known : Object → Prop) : Prop where
  closed : store.Closed known
  resolve {id : ObjectId} : known (.reference id) → store'.resolve id = store.resolve id

def Object.Mentions (id : ObjectId) (object : Object) : Prop := .reference id ∈ object.parts

def Store.Mentions (id : ObjectId) (store : Store) : Prop :=
  ∃ entry ∈ store.objects, entry.2.Mentions id

/-- A store may gain an object, or one may change, where nothing refers to it. -/
theorem Store.agrees_insert {store : Store} {id : ObjectId} (h : ¬store.Mentions id)
    (value : Object) : store.Agrees (store.insert id value) (¬·.Mentions id) where
  closed := {
    resolved := fun hobject hmentions => h ⟨_, Ordered.mem_of_get? hobject, hmentions⟩
    item := fun harray hitem hmentions => harray
      (Object.parts_trans hmentions (Object.inner_subset_parts _ (Object.inner_item hitem)))
    entry := fun hobject hentries hvalue hmentions => hobject
      (Object.parts_trans hmentions
        (Object.inner_subset_parts _ (Object.inner_entry hentries hvalue))) }
  resolve := by
    intro other hother
    refine store.resolve_insert_of_ne ?_ value
    rintro rfl
    exact hother (Object.mem_parts_self _)

/-- The objects in a container. -/
def Container.Within (known : Object → Prop) : Container → Prop
  | .dictionary entries => ∀ entry ∈ entries, known entry.2
  | .array items => ∀ item ∈ items, known item

theorem Container.Within.lookup? {known : Object → Prop} {container : Container} {label : String}
    {value : Object} (h : container.Within known) (hvalue : container.lookup? label = some value) :
    known value := by
  cases container with
  | dictionary entries => exact h _ (Ordered.mem_of_get? hvalue)
  | array items =>
    obtain ⟨n, _, hitem⟩ := Option.bind_eq_some_iff.1 hvalue
    exact h _ (List.mem_of_getElem? hitem)

namespace Store

namespace Agrees

variable {store store' : Store} {known : Object → Prop} (h : store.Agrees store' known)
include h

theorem follow (fuel : Nat) {object : Object} (last : Option ObjectId) (hobject : known object) :
    store'.follow fuel object last = store.follow fuel object last := by
  induction fuel generalizing object last with
  | zero => rfl
  | succ fuel ih =>
    cases object with
    | reference id =>
      simp only [Store.follow, h.resolve hobject]
      cases hnext : store.resolve id with
      | none => rfl
      | some next => exact ih (some id) (h.closed.resolved hnext)
    | _ => rfl

theorem dereference {object : Object} (hobject : known object) :
    store'.dereference object = store.dereference object :=
  h.follow chainLimit none hobject

theorem present {object : Object} (hobject : known object) :
    store'.present object = store.present object := by
  rw [Store.present, Store.present, h.dereference hobject]

theorem known_of_present {value object : Object} {reference : Option ObjectId}
    (hvalue : known value) (hpresent : store.present value = some (object, reference)) :
    known object :=
  h.closed.spans.dereference hvalue (dereference_of_present hpresent)

theorem isSide {object : Object} (hobject : known object) :
    ValueType.isSide store' object = ValueType.isSide store object := by
  cases object with
  | reference id => simp only [ValueType.isSide, h.resolve hobject]
  | _ => rfl

theorem admits {object : Object} (hobject : known object) (type : ValueType) :
    type.admits store' object = type.admits store object := by
  cases object with
  | array items =>
    have hsides : items.all (ValueType.isSide store') = items.all (ValueType.isSide store) := by
      rw [Bool.eq_iff_iff, List.all_eq_true, List.all_eq_true]
      refine forall₂_congr fun item hitem => ?_
      rw [h.isSide (h.closed.item hobject hitem)]
    cases type <;> simp only [ValueType.admits, hsides]
  | _ => cases type <;> rfl

theorem select? {object : Object} (hobject : known object) (types : List TypeToken) :
    TypeToken.select? store' object types = TypeToken.select? store object types := by
  have htoken : TypeToken.admits store' object = TypeToken.admits store object := by
    funext token
    unfold TypeToken.admits
    congr 1
    exact funext (h.admits hobject)
  rw [TypeToken.select?, TypeToken.select?, htoken]

theorem within {object : Object} {container : Container} (hobject : known object)
    (hcontainer : Container.of? object = some container) : container.Within known := by
  cases object <;> cases hcontainer
  case array items => exact fun item hitem => h.closed.item hobject hitem
  case dictionary entries => exact fun entry hentry => h.closed.entry hobject rfl hentry
  case stream entries data => exact fun entry hentry => h.closed.entry hobject rfl hentry

end Agrees

end Store

/-! Choosing among links -/

namespace Scope

/-- The same check with another store. -/
def within (s : Scope) (store : Store) : Scope := { s with store }

variable {s : Scope} {store' : Store} {known : Object → Prop} (h : s.store.Agrees store' known)
  (hcontainer : s.container.Within known)
include h hcontainer

theorem present?_within : (s.within store').present? = s.present? := by
  funext label
  simp only [present?, within]
  cases hvalue : s.container.lookup? label with
  | none => rfl
  | some value =>
    simp only [Option.bind_some]
    rw [h.present (hcontainer.lookup? hvalue)]

theorem known_of_present? {label : String} {object : Object}
    (hobject : s.present? label = some object) : known object := by
  obtain ⟨⟨found, reference⟩, hfound, rfl⟩ := Option.map_eq_some_iff.1 hobject
  obtain ⟨value, hvalue, hpresent⟩ := Option.bind_eq_some_iff.1 hfound
  exact h.known_of_present (hcontainer.lookup? hvalue) hpresent

theorem context_within : (s.within store').context = s.context :=
  context_of_present? rfl rfl (present?_within h hcontainer)

theorem rowFit_within : (s.within store').rowFit = s.rowFit := by
  funext row
  unfold rowFit
  rw [present?_within h hcontainer, context_within h hcontainer]
  cases hobject : s.present? row.key.text with
  | none => rfl
  | some object =>
    dsimp only
    rw [within, h.select? (known_of_present? h hcontainer hobject)]

theorem fit_within : (s.within store').fit = s.fit := by
  unfold fit
  rw [rowFit_within h hcontainer]
  rfl

end Scope

/-- The same surroundings with another store. -/
def Surroundings.within (around : Surroundings) (store : Store) : Surroundings :=
  { around with store }

namespace Resolution

variable {around : Surroundings} {store' : Store} {known : Object → Prop}
  (h : around.store.Agrees store' known) {object : Object} (hobject : known object)
include h hobject

theorem fitOf_within (version : Version) (table : Table) :
    fitOf store' version object table = fitOf around.store version object table := by
  unfold fitOf
  cases hcontainer : Container.of? object with
  | none => rfl
  | some container =>
    exact Scope.fit_within (s := ⟨around.store, version, table, container, ""⟩) h
      (h.within hobject hcontainer)

theorem fits_within (version : Version) (path : String) (before : List Finding) (cache : Cache)
    (links : List String) :
    fits (around.within store') version object path before cache links =
      fits around version object path before cache links := by
  induction links generalizing before cache with
  | nil => rfl
  | cons link links ih =>
    have hfit : fitOf (around.within store').store version object =
        fitOf around.store version object := funext (fitOf_within h hobject version)
    simp only [fits, ih, hfit]
    rfl

end Resolution

namespace Session

variable {around : Surroundings} {store' : Store} {known : Object → Prop}
  (h : around.store.Agrees store' known)
include h

theorem chooseLink_within (s : Session) {object : Object} (hobject : known object)
    (links : List String) (parent label path : String) :
    s.chooseLink (around.within store') object links parent label path =
      s.chooseLink around object links parent label path := by
  unfold chooseLink Resolution.resolve
  simp only [Resolution.fits_within h hobject]

theorem follow_within (s : Session) {object : Object} (hobject : known object)
    (reference : Option ObjectId) (links : List String) (parent label path : String) :
    s.follow (around.within store') object reference links parent label path =
      s.follow around object reference links parent label path := by
  unfold follow
  rw [chooseLink_within h s hobject]

end Session

/-! Walking trees -/

namespace Tree

variable {store store' : Store} {known : Object → Prop} (h : store.Agrees store' known)
include h

theorem value?_within {d : Dictionary} (hnode : known (.dictionary d)) (key : String) :
    value? store' d key = value? store d key := by
  unfold value?
  cases hvalue : d.get? key with
  | none => rfl
  | some value =>
    rw [Option.bind_some, Option.bind_some,
      h.present (h.closed.entry hnode rfl (Ordered.mem_of_get? hvalue))]

theorem keyOf?_within (t : Tree) {object : Object} (hobject : known object) :
    t.keyOf? store' object = t.keyOf? store object := by
  rw [keyOf?, keyOf?, h.dereference hobject]

theorem limits_within (t : Tree) {d : Dictionary} (hnode : known (.dictionary d)) :
    t.limits store' d = t.limits store d := by
  unfold limits
  rw [value?_within h hnode]
  cases hvalue : value? store d "Limits" with
  | none => rfl
  | some bounds =>
    have hbounds := held_of_value? h.closed.spans hnode hvalue
    match bounds with
    | .array [low, high] =>
      have hlow := keyOf?_within h t (h.closed.item hbounds (List.mem_cons_self))
      have hhigh := keyOf?_within h t (h.closed.item hbounds (by simp : high ∈ [low, high]))
      simp only [hlow, hhigh]
    | .array [] | .array [_] | .array (_ :: _ :: _ :: _) => rfl
    | .null | .boolean _ | .integer _ | .real _ | .string _ | .name _ | .dictionary _
    | .stream _ _ | .reference _ => rfl

end Tree

namespace Session

variable {around : Surroundings} {store' : Store} {known : Object → Prop}
  (h : around.store.Agrees store' known) (t : Tree)
include h

theorem nodeLimits_within (node : TreeNode) {d : Dictionary} (hnode : known (.dictionary d)) :
    nodeLimits (around.within store') t node d = nodeLimits around t node d := by
  unfold nodeLimits
  rw [Surroundings.within, Tree.limits_within h t hnode]

theorem scheduleValue_within (s : Session) (key : TreeKey) {value : Object} (hvalue : known value)
    (path : String) :
    s.scheduleValue (around.within store') t key value path =
      s.scheduleValue around t key value path := by
  have hpresent : (around.within store').store.present value = around.store.present value :=
    h.present hvalue
  unfold scheduleValue
  rw [hpresent]
  cases hfound : around.store.present value with
  | none => rfl
  | some found =>
    dsimp only
    rw [chooseLink_within h s (h.known_of_present hvalue hfound)]

theorem readPair_within (limits : Option Limits) (path : String) (k : Keys)
    {pair : (Object × Option Object) × Nat} (hkey : known pair.1.1)
    (hvalue : ∀ value, pair.1.2 = some value → known value) :
    readPair (around.within store') t limits path k pair =
      readPair around t limits path k pair := by
  have hread : t.keyOf? (around.within store').store pair.1.1 =
      t.keyOf? around.store pair.1.1 := Tree.keyOf?_within h t hkey
  unfold readPair
  rw [hread]
  cases t.keyOf? around.store pair.1.1 with
  | none => rfl
  | some key =>
    dsimp only
    cases hbeside : pair.1.2 with
    | none => rfl
    | some value =>
      dsimp only
      rw [scheduleValue_within h t _ key (hvalue value hbeside)]

theorem readEntries_within (s : Session) (limits : Option Limits) (path : String)
    {entries : Object} (hentries : known entries) :
    s.readEntries (around.within store') t limits path entries =
      s.readEntries around t limits path entries := by
  cases entries with
  | array items =>
    have hpair (k : Keys) : ∀ pair ∈ (Tree.pairs items).zipIdx,
        readPair (around.within store') t limits path k pair =
          readPair around t limits path k pair := by
      intro pair hpair
      obtain ⟨hkey, hvalue⟩ := Tree.mem_of_mem_pairs (List.fst_mem_of_mem_zipIdx hpair)
      exact readPair_within h t limits path k (h.closed.item hentries hkey)
        fun value hbeside => h.closed.item hentries (hvalue value hbeside)
    simp only [readEntries, List.foldl_ext _ _ _ fun k pair => hpair k pair]
  | _ => rfl

theorem readNode_within (s : Session) (node : TreeNode) {d : Dictionary}
    (hnode : known (.dictionary d)) :
    s.readNode (around.within store') t node d = s.readNode around t node d := by
  have hvalue : Tree.value? (around.within store').store d t.kind.entriesKey =
      Tree.value? around.store d t.kind.entriesKey := Tree.value?_within h hnode _
  unfold readNode
  rw [nodeLimits_within h t node hnode, hvalue]
  cases hentries : Tree.value? around.store d t.kind.entriesKey with
  | none => rfl
  | some entries =>
    dsimp only
    rw [readEntries_within h t _ _ _ (Tree.held_of_value? h.closed.spans hnode hentries)]

theorem readShape_within (s : Session) (node : TreeNode) {d : Dictionary}
    (hnode : known (.dictionary d)) :
    s.readShape (around.within store') t node d = s.readShape around t node d := by
  unfold readShape
  rw [Surroundings.within, Tree.value?_within h hnode, Tree.value?_within h hnode]

theorem meetKid_within (limits : Option Limits) (path : String) (found : Session × List TreeNode)
    {kid : Object × Nat} (hkid : known kid.1) :
    meetKid (around.within store') t limits path found kid =
      meetKid around t limits path found kid := by
  unfold meetKid
  rw [Surroundings.within, h.dereference hkid]

theorem meetKids_within (s : Session) (limits : Option Limits) (path : String) {kids : Object}
    (hkids : known kids) :
    s.meetKids (around.within store') t limits path kids =
      s.meetKids around t limits path kids := by
  cases kids with
  | array items =>
    exact List.foldl_ext _ _ _ fun found kid hkid =>
      meetKid_within h t limits path found
        (h.closed.item hkids (List.fst_mem_of_mem_zipIdx hkid))
  | _ => rfl

theorem visitNode_within (s : Session) {node : TreeNode} (hnode : known node.object) :
    s.visitNode (around.within store') t node = s.visitNode around t node := by
  unfold visitNode
  dsimp only
  cases hobject : node.object with
  | dictionary d =>
    rw [hobject] at hnode
    have hvalue : Tree.value? (around.within store').store d "Kids" =
        Tree.value? around.store d "Kids" := Tree.value?_within h hnode _
    dsimp only
    rw [readShape_within h t _ node hnode, readNode_within h t _ node hnode, hvalue,
      nodeLimits_within h t node hnode]
    cases hkids : Tree.value? around.store d "Kids" with
    | none => rfl
    | some kids =>
      exact meetKids_within h t _ _ _ (Tree.held_of_value? h.closed.spans hnode hkids)
  | _ => rfl

end Session

namespace Walk

variable {around : Surroundings} {store' : Store} {known : Object → Prop}
  (h : around.store.Agrees store' known) {t : Tree}
include h

theorem visits_within {w w' : Walk} (hnodes : ∀ node ∈ w.2, known node.object)
    (hvisits : Visits around t w w') : Visits (around.within store') t w w' := by
  induction hvisits using Relation.ReflTransGen.head_induction_on with
  | refl => exact .refl
  | head hvisit _ ih =>
    cases hvisit with
    | first s node rest =>
      have hnode : known node.object := hnodes node List.mem_cons_self
      have hfirst : Visit (around.within store') t (s, node :: rest)
          ((s.visitNode around t node).1, rest ++ (s.visitNode around t node).2) := by
        rw [← Session.visitNode_within h t s hnode]
        exact .first s node rest
      refine .head hfirst (ih fun next hnext => ?_)
      rcases List.mem_append.1 hnext with hnext | hnext
      · exact hnodes next (List.mem_cons_of_mem _ hnext)
      · obtain ⟨_, _, hmet⟩ := Session.met_of_mem_visitNode h.closed.spans hnode hnext
        exact hmet.held

end Walk

namespace Session

variable {around : Surroundings} {store' : Store} {known : Object → Prop}
  (h : around.store.Agrees store' known)
include h

/-- A walk ends where it does with the other store, although that may hold more objects. -/
theorem walkTree_within (s : Session) (t : Tree) {root : Object} (hroot : known root)
    (reference : Option ObjectId) (path : String) :
    s.walkTree (around.within store') t root reference path =
      s.walkTree around t root reference path := by
  by_cases hfresh : (Identity.of root reference, t.title) ∈ s.record.pairs
  · have hmark : ¬(s.mark (.of root reference) t.title).1 = true :=
      fun hmark => Record.fresh_iff.1 hmark hfresh
    unfold walkTree
    dsimp only
    rw [if_neg hmark, if_neg hmark]
  · have hown := Walk.visits_walkTree (around.within store') t hfresh path
    have hother := Walk.visits_within h (by simpa [Walk.start] using hroot)
      (Walk.visits_walkTree around t hfresh path)
    rcases (Walk.visits_last hown hother).cases_head with hsame | ⟨next, hnext, _⟩
    · exact (Prod.mk.inj hsame).1.symm
    · cases hnext

theorem descend_within (s : Session) (scope : Scope) (label : String) {child : Child}
    (hchild : known child.object) :
    s.descend (around.within store') scope label child = s.descend around scope label child := by
  unfold descend
  cases TreeKind.ofType? child.type with
  | some kind => exact walkTree_within h s _ hchild child.reference child.path
  | none => exact follow_within h s hchild child.reference _ _ _ child.path

end Session

end PdfConform
