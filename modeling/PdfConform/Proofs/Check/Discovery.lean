import PdfConform.Proofs.Check.Depth
import PdfConform.Proofs.Check.Reports

/-! What is discovered. A check queues containers only, each because a row of its table leads to
it, under the identity that it was reached by and one of the links of the row. So whatever is found
to be no container was added from outside. -/
namespace PdfConform

/-- What a value stands for: for itself, known by its content, or for what its references lead to,
known by the last of them. -/
inductive Store.Reveals (store : Store) : Object → Object → Identity → Prop
  | direct {object : Object} : object.asReference? = none →
    Reveals store object object (.direct object.fingerprint)
  | referred {first last : ObjectId} {object : Object} :
    store.dereference (.reference first) = some (object, some last) →
    store.resolve last = some object → Reveals store (.reference first) object (.indirect last)

theorem Store.reveals_of_present {store : Store} {value object : Object}
    {reference : Option ObjectId} (h : store.present value = some (object, reference)) :
    store.Reveals value object (.of object reference) := by
  have hfound := dereference_of_present h
  cases value with
  | reference first =>
    rcases reference_of_dereference hfound with ⟨rfl, _⟩ | ⟨last, rfl, hresolve⟩
    · cases asReference?_of_dereference hfound
    · exact .referred hfound hresolve
  | _ => cases hfound; exact .direct rfl

/-- A value stands beside a key in a node at the root of a tree or below it. -/
inductive Tree.Holds (t : Tree) (store : Store) : Object → Object → Prop
  | here {node value : Object} : value ∈ t.valuesAt store node → Holds t store node value
  | under {node value : Object} {child : Place} : child ∈ childrenOf store node →
    Holds t store child.1 value → Holds t store node value

/-- A row offers a value under the links that it has for the type of the value, or for that of the
tree that holds it. -/
inductive Scope.Offers (s : Scope) (row : Row) : Object → List String → Prop
  | entry {label : String} {value : Object} {child : Child} : (label, some value) ∈ s.entries row →
    s.LeadsTo row (some value) child → TreeKind.ofType? child.type = none →
    Offers s row value child.links
  | tree {label : String} {root value : Object} {child : Child} {kind : TreeKind} :
    (label, some root) ∈ s.entries row → s.LeadsTo row (some root) child →
    TreeKind.ofType? child.type = some kind →
    Tree.Holds ⟨kind, child.links⟩ s.store child.object value → Offers s row value child.links

/-- An item is a container that some offered value stands for, under one of its links. -/
structure WorkItem.ComesOf (item : WorkItem) (store : Store)
    (offered : Object → List String → Prop) : Prop where
  met : item.seeded = false
  isContainer : item.object.isContainer = true
  revealed : ∃ value links, offered value links ∧
    store.Reveals value item.object item.identity ∧ item.link ∈ links

theorem WorkItem.ComesOf.mono {item : WorkItem} {store : Store}
    {offered offered' : Object → List String → Prop} (h : item.ComesOf store offered)
    (hoffered : ∀ {value links}, offered value links → offered' value links) :
    item.ComesOf store offered' := by
  obtain ⟨hmet, hcontainer, value, links, hvalue, hreveals, hlink⟩ := h
  exact ⟨hmet, hcontainer, value, links, hoffered hvalue, hreveals, hlink⟩

theorem WorkItem.comesOf_of_present {store : Store} {offered : Object → List String → Prop}
    {value object : Object} {reference : Option ObjectId} {links : List String}
    (hoffered : offered value links) (hpresent : store.present value = some (object, reference))
    (hcontainer : object.isContainer = true) {link : String} (hlink : link ∈ links)
    (path : String) :
    (⟨object, .of object reference, link, path, false⟩ : WorkItem).ComesOf store offered :=
  ⟨rfl, hcontainer, value, links, hoffered, Store.reveals_of_present hpresent, hlink⟩

namespace Session

/-- In the course of a check nothing leaves the queue, and of this sort is what comes to it. -/
def Queues (P : WorkItem → Prop) (s s' : Session) : Prop :=
  ∃ events, s'.log = s.log ++ events ∧
    s'.queue = s.queue ++ events.filterMap Event.discovered? ∧
    (∀ event ∈ events, event.seed? = none ∧ event.taken? = none) ∧
    ∀ item, .queued item ∈ events → P item

namespace Queues

variable {P Q : WorkItem → Prop} {a b c : Session}

theorem ofEq (hlog : b.log = a.log) (hqueue : b.queue = a.queue) : Queues P a b :=
  ⟨[], by simp [hlog], by simp [hqueue], by simp, by simp⟩

theorem refl (s : Session) : Queues P s s := .ofEq rfl rfl

theorem trans (h : Queues P a b) (k : Queues P b c) : Queues P a c := by
  obtain ⟨first, hlog, hqueue, hquiet, hP⟩ := h
  obtain ⟨second, hlog', hqueue', hquiet', hP'⟩ := k
  refine ⟨first ++ second, by rw [hlog', hlog, List.append_assoc],
    by rw [hqueue', hqueue, List.filterMap_append, List.append_assoc], ?_, ?_⟩
  · exact fun event hevent => (List.mem_append.1 hevent).elim (hquiet event) (hquiet' event)
  · exact fun item hitem => (List.mem_append.1 hitem).elim (hP item) (hP' item)

/-- First come, first served: what was queued has been taken or waits. -/
theorem order (h : Queues P a b) (horder : a.put = a.taken ++ a.queue) :
    b.put = b.taken ++ b.queue := by
  obtain ⟨events, hlog, hqueue, hquiet, _⟩ := h
  have hput : events.filterMap Event.put? = events.filterMap Event.discovered? := by
    apply List.filterMap_congr
    intro event hevent
    have hseed := (hquiet event hevent).1
    cases event <;> simp_all [Event.put?, Event.discovered?, Event.seed?]
  have htaken : events.filterMap Event.taken? = [] :=
    List.filterMap_eq_nil_iff.2 fun event hevent => (hquiet event hevent).2
  unfold put taken at horder ⊢
  rw [hlog, hqueue, List.filterMap_append, List.filterMap_append, hput, htaken, horder]
  simp

theorem foldl {α σ : Type} {items : List α} {f : σ → α → σ} (view : σ → Session)
    (h : ∀ state, ∀ item ∈ items, Queues P (view state) (view (f state item))) (state : σ) :
    Queues P (view state) (view (items.foldl f state)) :=
  foldl_rel view .refl .trans h state

theorem mono (hPQ : ∀ item, P item → Q item) (h : Queues P a b) : Queues Q a b := by
  obtain ⟨events, hlog, hqueue, hquiet, hP⟩ := h
  exact ⟨events, hlog, hqueue, hquiet, fun item hitem => hPQ item (hP item hitem)⟩

end Queues

variable {around : Surroundings} {P : WorkItem → Prop} {s s' : Session}

theorem Aside.queues (h : Aside around s s') : Queues P s s' := by
  cases h with
  | report => exact .ofEq rfl rfl
  | lookup => exact .ofEq rfl rfl

theorem Asides.queues (h : Asides around s s') : Queues P s s' := by
  induction h with
  | refl => exact .refl s
  | tail _ hlast ih => exact ih.trans hlast.queues

theorem queues_enqueue (s : Session) {object : Object} {reference : Option ObjectId}
    {link path : String} (h : P ⟨object, .of object reference, link, path, false⟩) :
    Queues P s (s.enqueue object reference link path) := by
  obtain ⟨_, ⟨_, hqueue, hlog⟩ | ⟨_, hqueue, hlog⟩⟩ := enqueue_cases s object reference link path
  · refine ⟨_, hlog, hqueue, by simp [Event.seed?, Event.taken?], ?_⟩
    intro item hitem
    rw [Event.queued.inj (List.mem_singleton.1 hitem)]
    exact h
  · exact ⟨_, hlog, by rw [hqueue]; exact (List.append_nil _).symm,
      by simp [Event.seed?, Event.taken?], by simp⟩

theorem queues_follow (around : Surroundings) (s : Session) {object : Object}
    {reference : Option ObjectId} {links : List String} (parent label path : String)
    (h : ∀ link ∈ links, P ⟨object, .of object reference, link, path, false⟩) :
    Queues P s (s.follow around object reference links parent label path) := by
  have hchoose : Queues P s (s.chooseLink around object links parent label path).2 :=
    (chooseLink_asides s object links parent label path).queues
  unfold follow
  dsimp only
  split
  · next link hlink => exact hchoose.trans (queues_enqueue _ (h link (mem_of_chooseLink hlink)))
  · exact hchoose

section Tree

variable {t : Tree}

/-- What a visit queues stands beside a key of its node, and what it leaves to be visited are the
child nodes. -/
theorem queues_visitNode (around : Surroundings) (t : Tree) (s : Session) (node : TreeNode)
    (hvalues : ∀ item : WorkItem, (item.ComesOf around.store fun value links =>
      links = t.links ∧ value ∈ t.valuesAt around.store node.object) → P item) :
    Queues P s (s.visitNode around t node).1 ∧ ∀ kid ∈ (s.visitNode around t node).2,
      ∃ child ∈ Tree.childrenOf around.store node.object, kid.object = child.1 := by
  refine (visitNode_trace around t s node).keep
    (P := fun w => Queues P s w.1 ∧ ∀ kid ∈ w.2,
      ∃ child ∈ Tree.childrenOf around.store node.object, kid.object = child.1) ?_ ?_
    ⟨⟨_, rfl, (List.append_nil _).symm, by simp [Event.seed?, Event.taken?], by simp⟩, by simp⟩
  · rintro _ _ ⟨nodes, hstep⟩ ⟨hqueues, hkids⟩
    exact ⟨hqueues.trans hstep.queues, hkids⟩
  · rintro a b lead hlead hstep ⟨hqueues, hkids⟩
    rcases Tree.lead_cases hlead with
      ⟨value, hvalue, object, reference, hpresent, hcontainer, rfl⟩ | ⟨child, hchild, rfl⟩
    · obtain ⟨nodes, ⟨_, _, _, _, parent, label, path⟩⟩ := hstep
      refine ⟨hqueues.trans (queues_follow around _ parent label path ?_), hkids⟩
      intro link hlink
      exact hvalues _ (WorkItem.comesOf_of_present ⟨rfl, hvalue⟩ hpresent hcontainer hlink path)
    · cases hstep with
      | follow nodes hfollow => cases hfollow
      | enter s nodes object reference t path limits =>
        refine ⟨hqueues.trans (.ofEq rfl rfl), ?_⟩
        intro kid hkid
        dsimp only at hkid
        split at hkid
        · rcases List.mem_append.1 hkid with hold | hnew
          · exact hkids kid hold
          · exact ⟨child, hchild, by rw [List.mem_singleton.1 hnew]⟩
        · exact hkids kid hkid

theorem queues_visitNodes (fuel : Nat) (s : Session) (nodes : List TreeNode)
    (hvalues : ∀ node ∈ nodes, ∀ item : WorkItem, (item.ComesOf around.store fun value links =>
      links = t.links ∧ t.Holds around.store node.object value) → P item) :
    Queues P s (visitNodes around t fuel s nodes) := by
  induction fuel generalizing s nodes with
  | zero => cases nodes <;> exact .refl s
  | succ fuel ih =>
    cases nodes with
    | nil => exact .refl s
    | cons node rest =>
      obtain ⟨hnode, hkids⟩ := queues_visitNode around t s node
        fun item hitem => hvalues node List.mem_cons_self item
          (hitem.mono fun hvalue => ⟨hvalue.1, .here hvalue.2⟩)
      refine hnode.trans (ih _ _ ?_)
      intro next hnext item hitem
      rcases List.mem_append.1 hnext with hrest | hkid
      · exact hvalues next (List.mem_cons_of_mem node hrest) item hitem
      · obtain ⟨child, hchild, hobject⟩ := hkids next hkid
        refine hvalues node List.mem_cons_self item (hitem.mono fun hvalue => ⟨hvalue.1, ?_⟩)
        exact .under hchild (hobject ▸ hvalue.2)

theorem queues_walkTree (s : Session) (root : Object) (reference : Option ObjectId) (path : String)
    (hvalues : ∀ item : WorkItem, (item.ComesOf around.store fun value links =>
      links = t.links ∧ t.Holds around.store root value) → P item) :
    Queues P s (s.walkTree around t root reference path) := by
  have hmark : Queues P s (s.mark (.of root reference) t.title).2 := .ofEq rfl rfl
  unfold walkTree
  dsimp only
  split
  · refine hmark.trans (queues_visitNodes _ _ _ ?_)
    intro node hnode
    rw [List.mem_singleton.1 hnode]
    exact hvalues
  · exact hmark

end Tree

section Scope

theorem queues_checkEntry (scope : Scope) (hstore : scope.store = around.store) {row : Row}
    (s : Session)
    {entry : String × Option Object} (hentry : entry ∈ scope.entries row) :
    Queues (fun item => item.ComesOf around.store (scope.Offers row)) s
      (checkEntry around scope row s entry) := by
  have hreport : Queues (fun item => item.ComesOf around.store (scope.Offers row)) s
      (s.report (scope.entryFindings row entry.1 entry.2)) := .ofEq rfl rfl
  unfold checkEntry
  dsimp only
  split
  · next child hchild =>
    refine hreport.trans ?_
    have hleads := Scope.leadsTo_of_child? hchild
    obtain ⟨value, hvalue, hpresent⟩ := Option.bind_eq_some_iff.1 hleads.present
    rw [hvalue] at hleads
    have hmem : (entry.1, some value) ∈ scope.entries row := hvalue ▸ hentry
    unfold descend
    split
    · next kind hkind =>
      refine queues_walkTree _ _ _ _ fun item hitem => hitem.mono ?_
      rintro held links ⟨rfl, hholds⟩
      exact .tree hmem hleads hkind (hstore ▸ hholds)
    · next hkind =>
      refine queues_follow around _ _ _ _ fun link hlink => ?_
      exact WorkItem.comesOf_of_present (.entry hmem hleads hkind) (hstore ▸ hpresent)
        hleads.isContainer hlink _
  · exact hreport

/-- What is queued in a check is offered by a row of the table. -/
theorem queues_checkObject (s : Session) (item : WorkItem) (table : Table) :
    Queues (fun found => ∃ container, Container.of? item.object = some container ∧
        found.ComesOf around.store fun value links => ∃ row ∈ table.rows,
          (scopeOf around s.version item table container).Offers row value links)
      s (s.checkObject around item table) := by
  unfold checkObject
  cases hcontainer : Container.of? item.object with
  | none => exact .ofEq rfl rfl
  | some container =>
    refine Queues.foldl id (fun s' row hrow => ?_) s
    refine Queues.foldl id (fun s' entry hentry => ?_) s'
    have hturn := queues_checkEntry (scopeOf around s.version item table container) rfl s' hentry
    exact hturn.mono fun found hfound =>
      ⟨container, rfl, hfound.mono fun hoffered => ⟨row, hrow, hoffered⟩⟩

end Scope

end Session

/-- Nothing that is found in the check of a container reads like that. -/
theorem Finding.OfScope.ne_noContainer {s : Scope} {f : Finding} (h : f.OfScope s)
    (link path kind : String) : f ≠ .noContainer link path kind := by
  rintro rfl
  have hchoice {link' : String} (h : (noContainer link path kind).OfChoice link') : False := by
    cases h
  cases h with
  | @entry _ label _ _ _ hentry =>
    obtain ⟨kind, message, hf, _⟩ := s.exists_of_mem_entryFindings hentry
    cases hf
  | choice h => exact hchoice h
  | tree _ htree =>
    generalize hf : noContainer link path kind = f at htree
    cases htree with
    | choice h => exact hchoice (hf ▸ h)
    | shape path message hkind =>
      obtain rfl : Kind.typeMismatch = _ := congrArg Finding.kind hf
      simp at hkind
    | value path message =>
      have hmessage := congrArg (fun f : Finding => f.message.toList.head?) hf
      simp [noContainer, Tree.finding] at hmessage

theorem Container.of?_eq_none_iff (object : Object) :
    Container.of? object = none ↔ object.isContainer = false := by
  cases object <;> simp [of?, Object.entries?, Object.isContainer]

namespace Session

variable {around : Surroundings} {s s' : Session}

/-- The first item was being checked, and a row of its table offered the second. -/
def Discovers (around : Surroundings) (s : Session) (parent item : WorkItem) : Prop :=
  ∃ table container, s.cache.find? parent.link = some (.ok table) ∧
    Container.of? parent.object = some container ∧
    item.ComesOf around.store fun value links => ∃ row ∈ table.rows,
      (scopeOf around s.version parent table container).Offers row value links

theorem Discovers.grow {parent item : WorkItem} (h : s.Discovers around parent item)
    (hgrows : Grows s s') : s'.Discovers around parent item := by
  obtain ⟨table, container, hfind, hcontainer, hitem⟩ := h
  exact ⟨table, container, hgrows.tables _ _ hfind, hcontainer, hgrows.version ▸ hitem⟩

/-- A seed of this kind was checked that is no container. -/
def Faults (s : Session) (path kind : String) : Prop :=
  ∃ item ∈ s.seeds, item ∈ s.checkedItems ∧ Container.of? item.object = none ∧
    item.path = path ∧ item.object.kind = kind

theorem Faults.grow {path kind : String} (h : s.Faults path kind) (hgrows : Grows s s') :
    s'.Faults path kind := by
  obtain ⟨item, hseed, hchecked, hitem⟩ := h
  exact ⟨item, (hgrows.log.filterMap _).subset hseed, (hgrows.log.filterMap _).subset hchecked,
    hitem⟩

/-- That something is no container is found in the check of that. -/
theorem noContainer_of_checkObject {item : WorkItem} {table : Table} {link path kind : String}
    (h : Finding.noContainer link path kind ∈ (s.checkObject around item table).findings) :
    Finding.noContainer link path kind ∈ s.findings ∨
      Container.of? item.object = none ∧ item.path = path ∧ item.object.kind = kind := by
  have hown (f : Finding) (hf : f.OfItem around s.version item)
      (heq : f = .noContainer link path kind) :
      Container.of? item.object = none ∧ item.path = path ∧ item.object.kind = kind := by
    cases hf with
    | scope _ hscope => exact absurd heq (hscope.ne_noContainer link path kind)
    | noContainer _ hnone =>
      have hkind := congrArg Finding.message heq
      rw [Finding.noContainer, Finding.noContainer, String.append_right_inj] at hkind
      exact ⟨hnone, congrArg Finding.context heq, hkind⟩
  obtain ⟨found, hfindings, hfound⟩ := (tells_checkObject around s item table).reports
    (fun f hlooked heq => by cases heq ▸ hlooked.not_rejects) hown
  rw [hfindings] at h
  exact (List.mem_append.1 h).imp_right fun hnew => hfound _ hnew rfl

/-- The first item has left the queue, and its table was looked up. -/
structure Popped (s : Session) (item : WorkItem) (looked : Session) : Prop where
  grows : Grows s looked
  log : looked.log = s.log
  queue : s.queue = item :: looked.queue
  faults (link path kind : String) : Finding.noContainer link path kind ∈ looked.findings →
    Finding.noContainer link path kind ∈ s.findings

theorem popped_of_queue {item : WorkItem} {rest : List WorkItem} (hqueue : s.queue = item :: rest) :
    s.Popped item (Session.table { s with queue := rest } around item.link).2 := by
  refine ⟨(grows_pop s rest).trans (grows_table _ item.link), rfl, hqueue, ?_⟩
  intro link path kind hfound
  refine (List.mem_append.1 hfound).resolve_right fun hfound => ?_
  cases Cache.isGrammarDefect_of_mem_get hfound

/-- Where the items of a session come from, and the findings on what is no container. -/
structure Traced (around : Surroundings) (s : Session) : Prop where
  order : s.put = s.taken ++ s.queue
  discovered (moment : List Event) (item : WorkItem) : moment ++ [.queued item] <+: s.log →
    ∃ parent, UnderCheck parent moment ∧ s.Discovers around parent item
  faults (link path kind : String) : Finding.noContainer link path kind ∈ s.findings →
    s.Faults path kind

namespace Traced

theorem start (store : Store) (cache : Cache) (version : Option Version) (budget : Option Nat) :
    (Session.start store cache version budget).Traced around :=
  ⟨rfl, fun moment item h => by simp [Session.start] at h, nofun⟩

/-- What was queued is discovered or was a seed. -/
theorem seed_or_discovered (h : s.Traced around) {item : WorkItem}
    (hitem : item ∈ s.taken ++ s.queue) : item ∈ s.seeds ∨ item ∈ s.discovered := by
  rw [← h.order, s.perm_put.mem_iff] at hitem
  exact List.mem_append.1 hitem

/-- What was told stays so when a session grows, and what is new has to be told. -/
theorem grow (h : s.Traced around) (hgrows : Grows s s') (horder : s'.put = s'.taken ++ s'.queue)
    (events : List Event) (hlog : s'.log = s.log ++ events)
    (hdiscovered : ∀ before item, before ++ [.queued item] <+: events →
      ∃ parent, UnderCheck parent (s.log ++ before) ∧ s'.Discovers around parent item)
    (hfaults : ∀ link path kind, Finding.noContainer link path kind ∈ s'.findings →
      Finding.noContainer link path kind ∈ s.findings ∨ s'.Faults path kind) :
    s'.Traced around := by
  refine ⟨horder, ?_, ?_⟩
  · intro moment item hmoment
    have hold (hold : moment ++ [.queued item] <+: s.log) :
        ∃ parent, UnderCheck parent moment ∧ s'.Discovers around parent item := by
      obtain ⟨parent, hparent, hitem⟩ := h.discovered moment item hold
      exact ⟨parent, hparent, hitem.grow hgrows⟩
    rcases List.prefix_or_prefix_of_prefix hmoment hgrows.log with hprefix | hprefix
    · exact hold hprefix
    · rcases List.prefix_concat_iff.1 hprefix with heq | ⟨before, rfl⟩
      · exact hold (heq ▸ List.prefix_refl _)
      · rw [hlog, List.append_assoc, List.prefix_append_right_inj] at hmoment
        exact hdiscovered before item hmoment
  · intro link path kind hfound
    rcases hfaults link path kind hfound with hold | hnew
    · exact (h.faults link path kind hold).grow hgrows
    · exact hnew

theorem seed (h : s.Traced around) (object : Object) (link path : String) :
    (s.seed around.store object link path).Traced around := by
  refine h.grow (grows_call around s (.seed object link path)) ?_ _ rfl ?_ fun _ _ _ => .inl
  · have horder := h.order
    unfold put taken at horder ⊢
    simp only [Session.seed, filterMap_snoc, mark] at horder ⊢
    rw [horder]
    simp [Event.put?, Event.taken?]
  · intro before item hbefore
    cases before <;> simp [List.prefix_cons_iff] at hbefore

theorem isContainer_of_discovered (h : s.Traced around) {item : WorkItem}
    (hitem : item ∈ s.discovered) : item.object.isContainer = true := by
  obtain ⟨event, hevent, hqueued⟩ := List.mem_filterMap.1 hitem
  obtain rfl : event = .queued item := by cases event <;> simp_all [Event.discovered?]
  obtain ⟨before, after, hlog⟩ := List.append_of_mem hevent
  obtain ⟨_, _, _, _, _, _, hcomes⟩ := h.discovered before item ⟨after, by simp [hlog]⟩
  exact hcomes.isContainer

/-- What waits and is no container was a seed. -/
theorem seed_of_queue (h : s.Traced around) {item : WorkItem} (hitem : item ∈ s.queue)
    (hnone : Container.of? item.object = none) : item ∈ s.seeds := by
  refine (h.seed_or_discovered (List.mem_append_right s.taken hitem)).resolve_right fun hmet => ?_
  have hcontainer := h.isContainer_of_discovered hmet
  rw [(Container.of?_eq_none_iff item.object).1 hnone] at hcontainer
  cases hcontainer

variable {item : WorkItem} {looked : Session}

/-- The item is checked, and what the rows of its table offer is queued. -/
theorem check (h : s.Traced around) (hpopped : s.Popped item looked) {table : Table}
    (hfind : looked.cache.find? item.link = some (.ok table)) :
    ((looked.enter item).checkObject around item table).Traced around := by
  have horder := h.order
  have hentered : (looked.enter item).put =
      (looked.enter item).taken ++ (looked.enter item).queue := by
    unfold put taken at horder ⊢
    simp only [enter, hpopped.log, filterMap_snoc, horder, hpopped.queue]
    simp [Event.put?, Event.taken?]
  have hgrows := (hpopped.grows.trans (grows_enter looked item)).trans
    (grows_checkObject around (looked.enter item) item table)
  have hcheck := grows_checkObject around (looked.enter item) item table
  have hqueues : Queues _ _ ((looked.enter item).checkObject around item table) :=
    queues_checkObject _ item table
  have horder' := hqueues.order hentered
  obtain ⟨events, hevents, _, hquiet, hqueued⟩ := hqueues
  refine h.grow hgrows horder' (.checked item :: events) ?_ ?_ ?_
  · rw [hevents]
    simp [enter, hpopped.log]
  · intro before found hbefore
    obtain _ | ⟨event, before⟩ := before
    · simp [List.prefix_cons_iff] at hbefore
    · rw [List.cons_append, List.cons_prefix_cons] at hbefore
      obtain ⟨rfl, hbefore⟩ := hbefore
      have hnone : before.filterMap Event.taken? = [] :=
        List.filterMap_eq_nil_iff.2 fun event hevent =>
          (hquiet event (hbefore.subset (List.mem_append_left _ hevent))).2
      obtain ⟨container, hcontainer, hcomes⟩ := hqueued found (hbefore.subset (by simp))
      exact ⟨item, .since s.log hnone, table, container, hcheck.tables _ _ hfind, hcontainer,
        hcheck.version ▸ hcomes⟩
  · intro link path kind hfound
    rcases noContainer_of_checkObject hfound with hold | ⟨hnone, hitem⟩
    · exact .inl (hpopped.faults link path kind hold)
    · have hseed : item ∈ s.seeds :=
        h.seed_of_queue (hpopped.queue ▸ List.mem_cons_self) hnone
      have hchecked : item ∈ (looked.enter item).checkedItems := by
        simp [checkedItems, enter, Event.checked?]
      exact .inr ⟨item, (hgrows.log.filterMap _).subset hseed,
        (hcheck.log.filterMap _).subset hchecked, hnone, hitem⟩

/-- Without a table nothing is queued. -/
theorem drop (h : s.Traced around) (hpopped : s.Popped item looked) {found : List Finding}
    (hfound : ∀ f ∈ found, f.kind ≠ .typeMismatch) :
    ((looked.note (.dropped item)).report found).Traced around := by
  have horder := h.order
  have hgrows := (hpopped.grows.trans (grows_note looked (.dropped item))).trans
    (grows_report _ found)
  refine h.grow hgrows ?_ [.dropped item] (by simp [note, report, hpopped.log]) ?_ ?_
  · unfold put taken at horder ⊢
    simp only [note, report, hpopped.log, filterMap_snoc, horder, hpopped.queue]
    simp [Event.put?, Event.taken?]
  · intro before item hbefore
    cases before <;> simp [List.prefix_cons_iff] at hbefore
  · intro link path kind hreported
    rcases List.mem_append.1 hreported with hold | hnew
    · exact .inl (hpopped.faults link path kind hold)
    · exact absurd rfl (hfound _ hnew)

theorem take (h : s.Traced around) {rest : List WorkItem} (hqueue : s.queue = item :: rest)
    {result : Except Unavailable Bool}
    (htake : Session.take { s with queue := rest } around item = (result, s')) :
    s'.Traced around := by
  obtain rfl : _ = s' := congrArg Prod.snd htake
  have hpopped : s.Popped item (Session.table { s with queue := rest } around item.link).2 :=
    popped_of_queue hqueue
  cases hresult : (Session.table { s with queue := rest } around item.link).1 with
  | ok table =>
    rw [take_of_table_ok hresult]
    exact h.check hpopped (find?_of_table hresult)
  | error unavailable =>
    rw [take_of_table_error hresult]
    dsimp only
    split
    · have hdropped : (Session.report _ []).Traced around := h.drop hpopped (by simp)
      simpa only [report, List.append_nil] using hdropped
    · exact h.drop hpopped (by simp)

theorem after (h : s.Traced around) (calls : List Call) : (s.after around calls).Traced around :=
  after_keep (fun _ object link path _ hs => hs.seed object link path)
    (fun s raised hs => hs.grow (grows_call around s (.flag raised)) hs.order [] (by simp)
      (by simp) fun _ _ _ => .inl)
    (fun _ _ _ _ _ hqueue htake hs => hs.take hqueue htake) h

end Traced

/-- Whatever is asked of a session, what it takes or has in its queue was a seed or is discovered.
When an item was queued another was being checked, and a row of its table offered the item. That
something is no container is found of seeds only. -/
theorem discovered_by_rows (around : Surroundings) (cache : Cache) (version : Option Version)
    (budget : Option Nat) (calls : List Call) :
    let s := (start around.store cache version budget).after around calls
    (∀ item ∈ s.taken ++ s.queue, item ∈ s.seeds ∨ item ∈ s.discovered) ∧
      (∀ moment item, moment ++ [.queued item] <+: s.log →
        ∃ parent, UnderCheck parent moment ∧ s.Discovers around parent item) ∧
      ∀ link path kind, Finding.noContainer link path kind ∈ s.findings →
        s.Faults path kind := by
  intro s
  have htraced : s.Traced around :=
    (Traced.start around.store cache version budget).after calls
  exact ⟨fun item hitem => htraced.seed_or_discovered hitem, htraced.discovered, htraced.faults⟩

end Session

end PdfConform
