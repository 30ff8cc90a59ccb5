import PdfConform.Proofs.Check.Lead

/-! Visits and checks follow the leads of their object, in order. -/
namespace PdfConform

namespace Session

/-- Choose one of the links for a container and queue it. -/
def follow (s : Session) (around : Surroundings) (object : Object) (reference : Option ObjectId)
    (links : List String) (parent label path : String) : Session :=
  let (chosen, s) := s.chooseLink around object links parent label path
  match chosen with
  | some link => s.enqueue object reference link path
  | none => s

inductive Follows (around : Surroundings) : Lead → Session → Session → Prop
  | follow (s : Session) (object : Object) (reference : Option ObjectId) (links : List String)
    (parent label path : String) :
    Follows around (.follow object reference links) s
      (s.follow around object reference links parent label path)

variable {around : Surroundings}

theorem grows_asides {s s' : Session} (h : Asides around s s') : Grows s s' := by
  have hsteps : Steps around (fun _ => True) (fun _ => True) s s' := h.steps
  exact hsteps.grows

theorem grows_follow (s : Session) (object : Object)
    (reference : Option ObjectId) (links : List String) (parent label path : String) :
    Grows s (s.follow around object reference links parent label path) := by
  have hchoose : Grows s (s.chooseLink around object links parent label path).2 :=
    grows_asides (chooseLink_asides s object links parent label path)
  unfold follow
  dsimp only
  split
  · next link _ => exact hchoose.trans (grows_enqueue _ object reference link path)
  · exact hchoose

theorem Follows.grows {lead : Lead} {s s' : Session} (h : Follows around lead s s') :
    Grows s s' := by
  cases h with
  | follow _ object reference links parent label path =>
    exact grows_follow s object reference links parent label path

theorem grows_trace {leads : List Lead} {s s' : Session}
    (h : Trace (Aside around) (Follows around) leads s s') : Grows s s' :=
  h.keep (P := Grows s) (fun hstep hgrows => hgrows.trans (grows_asides hstep.asides))
    (fun _ _ hstep hgrows => hgrows.trans hstep.grows) (.refl s)

end Session

theorem flatMap_zipIdx {α β : Type} (f : α → Option β) (items : List α) :
    items.zipIdx.flatMap (fun item => (f item.1).toList) = items.filterMap f := by
  have hfst : items.zipIdx.flatMap (fun item => (f item.1).toList) =
      (items.zipIdx.map Prod.fst).flatMap fun item => (f item).toList := by
    rw [List.flatMap_map]
  rw [hfst, List.zipIdx_map_fst, List.filterMap_eq_flatMap_toList]

namespace Session

variable (around : Surroundings) (t : Tree)

theorem scheduleValue_trace (s : Session) (key : TreeKey) (value : Object) (path : String) :
    Trace (Aside around) (Follows around) (t.valueLead? around.store value).toList s
      (s.scheduleValue around t key value path) := by
  unfold scheduleValue Tree.valueLead?
  cases around.store.present value with
  | none => exact .done s
  | some found =>
    obtain ⟨object, reference⟩ := found
    dsimp only
    split
    · exact .ofAct (Follows.follow s object reference t.links t.title key.label path)
    · exact .ofAside (Aside.report s _)

theorem readPair_trace (limits : Option Limits) (path : String) (k : Keys)
    (pair : (Object × Option Object) × Nat) :
    Trace (Aside around) (Follows around) (t.pairLead? around.store pair.1).toList k.session
      (readPair around t limits path k pair).session := by
  unfold readPair Tree.pairLead?
  cases hkey : t.keyOf? around.store pair.1.1 with
  | none => exact .ofAside (Aside.report k.session _)
  | some key =>
    have hdrops : Trace (Aside around) (Follows around) [] k.session
        (if !k.unsorted && k.previous.any key.lt then
          k.session.report [t.finding .malformedContainer path
            (t.kind.entriesKey ++ " keys are not sorted at " ++ key.label)] else k.session) := by
      split
      · exact .ofAside (Aside.report k.session _)
      · exact .done _
    dsimp only
    cases pair.1.2 with
    | none => exact hdrops
    | some value => exact hdrops.asideFirst (scheduleValue_trace around t _ key value _)

theorem readEntries_trace (limits : Option Limits) (path : String) (s : Session)
    (entries : Object) :
    Trace (Aside around) (Follows around)
      ((Tree.pairs (Tree.itemsOf? (some entries))).filterMap (t.pairLead? around.store)) s
      (s.readEntries around t limits path entries).2 := by
  cases entries with
  | array items =>
    have hodd : Trace (Aside around) (Follows around) [] s
        (if items.length % 2 = 0 then s else s.report [t.finding .malformedContainer path
          (t.kind.entriesKey ++ " has an odd number of elements (" ++
            Number.showNat items.length ++ ")")]) := by
      split
      · exact .done s
      · exact .ofAside (Aside.report s _)
    have hpairs (k : Keys) : Trace (Aside around) (Follows around)
        ((Tree.pairs items).zipIdx.flatMap fun pair => (t.pairLead? around.store pair.1).toList)
        k.session ((Tree.pairs items).zipIdx.foldl (readPair around t limits path) k).session :=
      Trace.foldl Keys.session (fun k pair _ => readPair_trace around t limits path k pair) k
    rw [flatMap_zipIdx] at hpairs
    exact hodd.asideFirst (hpairs ⟨_, none, false, false⟩)
  | _ => exact .ofAside (Aside.report s _)

theorem violateByKeys_trace (s : Session) (node : TreeNode) (limits : Option Limits)
    (violation : Option String) (outside : Bool) :
    Trace (Aside around) (Follows around) [] s
      (s.violateByKeys t node limits violation outside) := by
  unfold violateByKeys
  split
  · split
    · exact .ofAside (Aside.report s _)
    · exact .done s
  · exact .done s

theorem readNode_trace (s : Session) (node : TreeNode) (d : Dictionary) :
    Trace (Aside around) (Follows around) (t.entryLeads around.store d) s
      (s.readNode around t node d) := by
  have hviolation : Trace (Aside around) (Follows around) [] s
      ((nodeLimits around t node d).2.elim s (s.violate t node)) := by
    cases (nodeLimits around t node d).2 with
    | none => exact .done s
    | some message => exact .ofAside (Aside.report s _)
  unfold readNode Tree.entryLeads
  dsimp only
  cases Tree.value? around.store d t.kind.entriesKey with
  | none => exact hviolation
  | some entries =>
    have hread := hviolation.asideFirst
      (readEntries_trace around t (nodeLimits around t node d).1 node.path _ entries)
    exact hread.asideLast (violateByKeys_trace around t _ node _ _ _)

theorem readShape_trace (s : Session) (node : TreeNode) (d : Dictionary) :
    Trace (Aside around) (Follows around) [] s (s.readShape around t node d) := by
  unfold readShape
  split
  · exact .ofAside (Aside.report s _)
  · exact .done s

end Session

/-- A walk under way: the session and the nodes that wait to be visited. -/
abbrev Walk := Session × List TreeNode

namespace Walk

inductive Aside (around : Surroundings) : Walk → Walk → Prop
  | session (nodes : List TreeNode) {s s' : Session} :
    Session.Aside around s s' → Aside around (s, nodes) (s', nodes)

/-- A node that is recorded for the first time waits to be visited. -/
inductive Meets (around : Surroundings) : Lead → Walk → Walk → Prop
  | follow (nodes : List TreeNode) {lead : Lead} {s s' : Session} :
    Session.Follows around lead s s' → Meets around lead (s, nodes) (s', nodes)
  | enter (s : Session) (nodes : List TreeNode) (object : Object) (reference : Option ObjectId)
    (t : Tree) (path : String) (limits : Option Limits) :
    Meets around (.enter object reference t) (s, nodes)
      ((s.mark (.of object reference) t.title).2,
        if (s.mark (.of object reference) t.title).1 then nodes ++ [⟨object, path, limits, false⟩]
        else nodes)

theorem grows_trace {around : Surroundings} {leads : List Lead} {w w' : Walk}
    (h : Trace (Aside around) (Meets around) leads w w') : Session.Grows w.1 w'.1 := by
  refine h.keep (P := fun w' => Session.Grows w.1 w'.1) ?_ ?_ (.refl w.1)
  · rintro _ _ ⟨nodes, hstep⟩ hgrows
    exact hgrows.trans (Session.grows_asides hstep.asides)
  · intro a b lead _ hstep hgrows
    cases hstep with
    | follow nodes hfollow => exact hgrows.trans hfollow.grows
    | enter s nodes object reference t => exact hgrows.trans (Session.grows_mark s _ _)

end Walk

namespace Session

variable (around : Surroundings) (t : Tree)

theorem meetKid_trace (limits : Option Limits) (path : String) (found : Walk) (kid : Object × Nat) :
    Trace (Walk.Aside around) (Walk.Meets around) (t.kidLead? around.store kid.1).toList found
      (meetKid around t limits path found kid) := by
  obtain ⟨s, nodes⟩ := found
  unfold meetKid Tree.kidLead?
  cases around.store.dereference kid.1 with
  | none => exact .ofAside (.session nodes (.report s _))
  | some target =>
    obtain ⟨child, reference⟩ := target
    exact .ofAct (.enter s nodes child reference t _ limits)

theorem meetKids_trace (limits : Option Limits) (path : String) (s : Session) (kids : Object) :
    Trace (Walk.Aside around) (Walk.Meets around)
      ((Tree.itemsOf? (some kids)).filterMap (t.kidLead? around.store)) (s, [])
      (s.meetKids around t limits path kids) := by
  cases kids with
  | array items =>
    have hkids (found : Walk) : Trace (Walk.Aside around) (Walk.Meets around)
        (items.zipIdx.flatMap fun kid => (t.kidLead? around.store kid.1).toList) found
        (items.zipIdx.foldl (meetKid around t limits path) found) :=
      Trace.foldl id (fun found kid _ => meetKid_trace around t limits path found kid) found
    rw [flatMap_zipIdx] at hkids
    exact hkids (s, [])
  | _ => exact .ofAside (.session [] (.report s _))

/-- A visit follows the leads of its node. -/
theorem visitNode_trace (s : Session) (node : TreeNode) :
    Trace (Walk.Aside around) (Walk.Meets around) (t.leads around.store node.object)
      (s.note (.visited t.title node.path), []) (s.visitNode around t node) := by
  unfold visitNode
  generalize s.note (.visited t.title node.path) = s
  dsimp only
  cases node.object with
  | dictionary d =>
    have hread := (readShape_trace around t s node d).asideFirst (readNode_trace around t _ node d)
    have hwalk : Trace (Walk.Aside around) (Walk.Meets around) (t.entryLeads around.store d)
        (s, []) ((s.readShape around t node d).readNode around t node d, []) :=
      hread.map (f := fun s => (s, [])) (fun hstep => .session [] hstep)
        (fun hstep => .follow [] hstep)
    simp only [Tree.leads, Tree.kidLeads]
    cases Tree.value? around.store d "Kids" with
    | none => exact hwalk.append (.done _)
    | some kids => exact hwalk.append (meetKids_trace around t _ _ _ kids)
  | _ => exact .ofAside (.session [] (.report s _))

end Session

namespace Session

/-- A lead of a checked object is followed, or walked from when it is the root of a tree. -/
inductive Checks (around : Surroundings) : Lead → Session → Session → Prop
  | follow {lead : Lead} {s s' : Session} : Follows around lead s s' → Checks around lead s s'
  | walk (s : Session) (object : Object) (reference : Option ObjectId) (t : Tree)
    (path : String) :
    Checks around (.enter object reference t) s (s.walkTree around t object reference path)

variable (around : Surroundings) (scope : Scope)

theorem descend_trace (s : Session) (label : String) (child : Child) :
    Trace (Aside around) (Checks around) [Scope.childLead child] s
      (s.descend around scope label child) := by
  unfold descend Scope.childLead
  cases TreeKind.ofType? child.type with
  | some kind => exact .ofAct (.walk s child.object child.reference ⟨kind, child.links⟩ child.path)
  | none =>
    exact .ofAct (.follow (.follow s child.object child.reference child.links scope.table.link
      label child.path))

/-- What is found on an entry is reported before what it leads to is followed. -/
theorem checkEntry_trace (s : Session) (row : Row) (entry : String × Option Object) :
    Trace (Aside around) (Checks around) (scope.entryLead? row entry).toList
      (s.report (scope.entryFindings row entry.1 entry.2))
      (checkEntry around scope row s entry) := by
  unfold checkEntry Scope.entryLead?
  cases scope.child? row entry.1 entry.2 with
  | none => exact .done _
  | some child => exact descend_trace around scope _ entry.1 child

theorem checkRow_trace (s : Session) (row : Row) :
    Trace (Aside around) (Checks around) ((scope.entries row).filterMap (scope.entryLead? row)) s
      (checkRow around scope s row) := by
  rw [List.filterMap_eq_flatMap_toList]
  refine Trace.foldl id ?_ s
  intro s entry _
  exact (Trace.ofAside (.report s _)).asideFirst (checkEntry_trace around scope s row entry)

/-- What an item is checked in: nothing of it depends on what was checked before. -/
def scopeOf (around : Surroundings) (version : Version) (item : WorkItem) (table : Table)
    (container : Container) : Scope :=
  ⟨around.store, version, table, container, item.path⟩

/-- The leads of an object under a table, none for what is no container. -/
def leadsUnder (store : Store) (version : Version) (table : Table) (object : Object) : List Lead :=
  match Container.of? object with
  | some container => Scope.leads ⟨store, version, table, container, ""⟩
  | none => []

/-- A check follows the leads of its object. -/
theorem checkObject_trace (s : Session) (item : WorkItem) (table : Table) :
    Trace (Aside around) (Checks around) (leadsUnder around.store s.version table item.object) s
      (s.checkObject around item table) := by
  unfold checkObject leadsUnder
  cases Container.of? item.object with
  | none => exact .ofAside (.report s _)
  | some container =>
    dsimp only
    rw [← Scope.leads_path _ item.path]
    exact Trace.foldl id
      (fun state row _ =>
        checkRow_trace around (scopeOf around s.version item table container) state row) s

end Session

end PdfConform
