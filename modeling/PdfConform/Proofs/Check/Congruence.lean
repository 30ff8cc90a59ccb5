import Mathlib.Data.List.Forall2
import PdfConform.Proofs.Check.Runs

/-! Sessions that go on alike under paths that are. When the elementary steps find the same in two
sessions that are related, and keep them so, every walk and check does. Paths are handed down from a
container to what it holds, and enter into nothing else. -/
namespace PdfConform

section Like

variable (P : String → String → Prop)

/-- The same finding but for its path. -/
structure Finding.Like (f f' : Finding) : Prop where
  path : P f.context f'.context
  same : f' = { f with context := f'.context }

structure WorkItem.Like (item item' : WorkItem) : Prop where
  path : P item.path item'.path
  same : item' = { item with path := item'.path }

structure TreeNode.Like (node node' : TreeNode) : Prop where
  path : P node.path node'.path
  same : node' = { node with path := node'.path }

end Like

theorem Scope.likes_entryFindings {P : String → String → Prop} {path' : String} (s : Scope)
    (hpath : P s.path path') (row : Row) (label : String) (value : Option Object) :
    List.Forall₂ (Finding.Like P) (s.entryFindings row label value)
      (entryFindings { s with path := path' } row label value) := by
  have hown := s.entryFindings_path s.path row label value
  change s.entryFindings row label value = _ at hown
  rw [s.entryFindings_path path', List.forall₂_map_right_iff]
  refine List.forall₂_same.2 fun f hf => ⟨?_, rfl⟩
  rw [hown] at hf
  obtain ⟨_, _, rfl⟩ := List.mem_map.1 hf
  exact hpath

/-- The names under which a walk of the tree records objects. -/
def Tree.RecordsUnder (t : Tree) (name : String) : Prop := name = t.title ∨ name ∈ t.links

namespace Session

/-- Results that are the same, with sessions that are alike. -/
def Matches {α : Type} (R : Session → Session → Prop) (a b : α × Session) : Prop :=
  a.1 = b.1 ∧ R a.2 b.2

/-- The elementary steps of a walk under related paths, where it records under these names only,
find the same in related sessions, and leave them related. -/
structure CongruentUnder (around : Surroundings) (names : String → Prop)
    (P : String → String → Prop) (R : Session → Session → Prop) : Prop where
  extend {path path' : String} (rest : String) : P path path' → P (path ++ rest) (path' ++ rest)
  version {s s' : Session} : R s s' → s.version = s'.version
  report {s s' : Session} {found found' : List Finding} :
    List.Forall₂ (Finding.Like P) found found' → R s s' → R (s.report found) (s'.report found')
  visit {s s' : Session} {path path' : String} (tree : String) : P path path' → R s s' →
    R (s.note (.visited tree path)) (s'.note (.visited tree path'))
  table {s s' : Session} (link : String) :
    R s s' → Matches R (s.table around link) (s'.table around link)
  mark {s s' : Session} (identity : Identity) (link : String) : names link →
    R s s' → Matches R (s.mark identity link) (s'.mark identity link)
  enqueue {s s' : Session} {path path' : String} (object : Object)
    (reference : Option ObjectId) (link : String) : names link → P path path' → R s s' →
    R (s.enqueue object reference link path) (s'.enqueue object reference link path')

/-- All elementary steps, under whatever name they record, find the same in related sessions, and
leave them related. -/
structure Congruent (around : Surroundings) (P : String → String → Prop)
    (R : Session → Session → Prop) : Prop extends CongruentUnder around (fun _ => True) P R where
  queue {s s' : Session} : R s s' → List.Forall₂ (WorkItem.Like P) s.queue s'.queue
  drop {s s' : Session} {item item' : WorkItem} : item.Like P item' → R s s' →
    R (s.note (.dropped item)) (s'.note (.dropped item'))
  enter {s s' : Session} {item item' : WorkItem} :
    item.Like P item' → R s s' → R (s.enter item) (s'.enter item')
  pop {s s' : Session} {rest rest' : List WorkItem} : List.Forall₂ (WorkItem.Like P) rest rest' →
    R s s' → R { s with queue := rest } { s' with queue := rest' }

namespace CongruentUnder

variable {around : Surroundings} {names : String → Prop} {P : String → String → Prop}
  {R : Session → Session → Prop} {s s' : Session} {path path' : String}

theorem mono {names' : String → Prop} (cong : CongruentUnder around names P R)
    (hnames : ∀ name, names' name → names name) : CongruentUnder around names' P R :=
  { cong with
    mark := fun identity link hlink h => cong.mark identity link (hnames link hlink) h
    enqueue := fun object reference link hlink hpath h =>
      cong.enqueue object reference link (hnames link hlink) hpath h }

theorem reportOne (cong : CongruentUnder around names P R) (kind : Finding.Kind) (link : String)
    (key : Option String) (message : String) (hpath : P path path') (h : R s s') :
    R (s.report [⟨kind, link, key, path, message⟩])
      (s'.report [⟨kind, link, key, path', message⟩]) :=
  cong.report (.cons ⟨hpath, rfl⟩ .nil) h

/-- A session after a lookup that changed the cache and found something. -/
def absorb (s : Session) {α : Type} (looked : α × Cache × List Finding) : α × Session :=
  (looked.1, { s with cache := looked.2.1, findings := s.findings ++ looked.2.2 })

theorem candidate (cong : CongruentUnder around names P R) (link : String) (hpath : P path path')
    (h : R s s') :
    Matches R (absorb s (Resolution.candidate around path s.findings s.cache link))
      (absorb s' (Resolution.candidate around path' s'.findings s'.cache link)) := by
  have htable := cong.table link h
  unfold Session.table at htable
  unfold Resolution.candidate
  generalize s.cache.get (around.filesAfter s.findings) link = looked at htable ⊢
  generalize s'.cache.get (around.filesAfter s'.findings) link = looked' at htable ⊢
  obtain ⟨result, cache, found⟩ := looked
  obtain ⟨result', cache', found'⟩ := looked'
  obtain ⟨rfl, hlooked⟩ := htable
  cases result with
  | ok table => exact ⟨rfl, hlooked⟩
  | error unavailable =>
    have hreport := cong.reportOne .schemaMissing link none
      ("cannot load candidate grammar: " ++ unavailable.message) hpath hlooked
    simpa only [Matches, absorb, Session.report, List.append_assoc, true_and] using hreport

theorem fits (cong : CongruentUnder around names P R) (object : Object) (links : List String)
    (hpath : P path path') (h : R s s') :
    Matches R (absorb s (Resolution.fits around s.version object path s.findings s.cache links))
      (absorb s' (Resolution.fits around s'.version object path' s'.findings s'.cache links)) := by
  induction links generalizing s s' with
  | nil => simpa only [Matches, absorb, Resolution.fits, List.append_nil, true_and] using h
  | cons link links ih =>
    obtain ⟨htable, hlooked⟩ := cong.candidate link hpath h
    obtain ⟨hfitting, hrest⟩ := ih hlooked
    simp only [absorb] at htable hfitting hrest
    refine ⟨?_, ?_⟩
    · simp only [absorb, Resolution.fits]
      rw [htable, hfitting, cong.version h]
    · simpa only [absorb, Resolution.fits, List.append_assoc] using hrest

theorem chooseLink (cong : CongruentUnder around names P R) (object : Object) (links : List String)
    (parent label : String) (hpath : P path path') (h : R s s') :
    Matches R (s.chooseLink around object links parent label path)
      (s'.chooseLink around object links parent label path') := by
  unfold Session.chooseLink
  split
  · exact ⟨rfl, h⟩
  · obtain ⟨hfitting, hlooked⟩ := cong.fits object links hpath h
    simp only [absorb] at hfitting hlooked
    simp only [Resolution.resolve]
    rw [hfitting]
    cases Resolution.ofFits
        (Resolution.fits around s'.version object path' s'.findings s'.cache links).1 with
    | resolved link => exact ⟨rfl, hlooked⟩
    | ambiguous chosen matching => exact ⟨rfl, cong.reportOne _ _ _ _ hpath hlooked⟩
    | unresolved => exact ⟨rfl, cong.reportOne _ _ _ _ hpath hlooked⟩

theorem follow (cong : CongruentUnder around names P R) (object : Object)
    (reference : Option ObjectId) {links : List String} (hlinks : ∀ link ∈ links, names link)
    (parent label : String) (hpath : P path path') (h : R s s') :
    R (s.follow around object reference links parent label path)
      (s'.follow around object reference links parent label path') := by
  obtain ⟨hchosen, hlooked⟩ := cong.chooseLink object links parent label hpath h
  unfold Session.follow
  dsimp only
  rw [hchosen]
  cases hlink : (s'.chooseLink around object links parent label path').1 with
  | none => exact hlooked
  | some link =>
    exact cong.enqueue object reference link (hlinks link (mem_of_chooseLink hlink)) hpath hlooked

section Tree

variable {t : Tree}

theorem scheduleValue (cong : CongruentUnder around t.RecordsUnder P R) (key : TreeKey)
    (value : Object) (hpath : P path path') (h : R s s') :
    R (s.scheduleValue around t key value path) (s'.scheduleValue around t key value path') := by
  unfold Session.scheduleValue
  cases around.store.present value with
  | none => exact h
  | some found =>
    dsimp only
    split
    · exact cong.follow found.1 found.2 (fun _ => .inr) t.title key.label hpath h
    · exact cong.reportOne _ _ _ _ hpath h

/-- Readings of pairs that differ in nothing but the sessions. -/
def Reads (R : Session → Session → Prop) (k k' : Keys) : Prop :=
  R k.session k'.session ∧ k' = { k with session := k'.session }

theorem readPair (cong : CongruentUnder around t.RecordsUnder P R) (limits : Option Limits)
    (hpath : P path path') (pair : (Object × Option Object) × Nat) {k k' : Keys}
    (h : Reads R k k') :
    Reads R (Session.readPair around t limits path k pair)
      (Session.readPair around t limits path' k' pair) := by
  obtain ⟨s, previous, unsorted, outside⟩ := k
  obtain ⟨s', _, _, _⟩ := k'
  obtain ⟨hs, hsame⟩ := h
  cases hsame
  unfold Session.readPair
  cases t.keyOf? around.store pair.1.1 with
  | none => exact ⟨cong.reportOne _ _ _ _ hpath hs, rfl⟩
  | some key =>
    have hdrops : ∀ (drops : Bool) (kind : Finding.Kind) (message : String),
        R (if drops then s.report [t.finding kind path message] else s)
          (if drops then s'.report [t.finding kind path' message] else s') := by
      intro drops kind message
      cases drops with
      | true => exact cong.reportOne _ _ _ _ hpath hs
      | false => exact hs
    refine ⟨?_, rfl⟩
    dsimp only
    cases pair.1.2 with
    | none => exact hdrops _ _ _
    | some value =>
      have hvalue : P (path ++ "[" ++ key.label ++ "]") (path' ++ "[" ++ key.label ++ "]") :=
        cong.extend "]" (cong.extend key.label (cong.extend "[" hpath))
      exact cong.scheduleValue key value hvalue (hdrops _ _ _)

theorem readEntries (cong : CongruentUnder around t.RecordsUnder P R) (limits : Option Limits)
    (hpath : P path path') (entries : Object) (h : R s s') :
    Matches R (s.readEntries around t limits path entries)
      (s'.readEntries around t limits path' entries) := by
  cases entries with
  | array items =>
    have hcounted : ∀ message : String,
        R (if items.length % 2 = 0 then s
            else s.report [t.finding .malformedContainer path message])
          (if items.length % 2 = 0 then s'
            else s'.report [t.finding .malformedContainer path' message]) := by
      intro message
      split
      · exact h
      · exact cong.reportOne _ _ _ _ hpath h
    have hread (a b : Session) (hab : R a b) :
        Reads R
          ((Tree.pairs items).zipIdx.foldl (Session.readPair around t limits path)
            ⟨a, none, false, false⟩)
          ((Tree.pairs items).zipIdx.foldl (Session.readPair around t limits path')
            ⟨b, none, false, false⟩) :=
      List.foldl_rel ⟨hab, rfl⟩ fun pair _ _ _ hreads => cong.readPair limits hpath pair hreads
    obtain ⟨hsession, hsame⟩ := hread _ _ (hcounted
      (t.kind.entriesKey ++ " has an odd number of elements (" ++
        Number.showNat items.length ++ ")"))
    exact ⟨(congrArg Keys.outside hsame).symm, hsession⟩
  | _ => exact ⟨rfl, cong.reportOne _ _ _ _ hpath h⟩

theorem nodeLimits_of_like {node node' : TreeNode} (hnode : node.Like P node') (d : Dictionary) :
    nodeLimits around t node' d = nodeLimits around t node d := by
  rw [hnode.same]
  rfl

variable {node node' : TreeNode}

theorem violateByKeys (cong : CongruentUnder around t.RecordsUnder P R) (hnode : node.Like P node')
    (limits : Option Limits) (violation : Option String) (outside : Bool) (h : R s s') :
    R (s.violateByKeys t node limits violation outside)
      (s'.violateByKeys t node' limits violation outside) := by
  unfold Session.violateByKeys
  split
  · split
    · exact cong.reportOne _ _ _ _ hnode.path h
    · exact h
  · exact h

theorem readNode (cong : CongruentUnder around t.RecordsUnder P R) (hnode : node.Like P node')
    (d : Dictionary) (h : R s s') :
    R (s.readNode around t node d) (s'.readNode around t node' d) := by
  have hviolation : R ((nodeLimits around t node d).2.elim s (s.violate t node))
      ((nodeLimits around t node d).2.elim s' (s'.violate t node')) := by
    cases (nodeLimits around t node d).2 with
    | none => exact h
    | some message => exact cong.reportOne _ _ _ _ hnode.path h
  unfold Session.readNode
  rw [nodeLimits_of_like hnode]
  dsimp only
  cases Tree.value? around.store d t.kind.entriesKey with
  | none => exact hviolation
  | some entries =>
    obtain ⟨houtside, hread⟩ :=
      cong.readEntries (t := t) (nodeLimits around t node d).1 hnode.path entries hviolation
    dsimp only
    rw [houtside]
    exact cong.violateByKeys hnode _ _ _ hread

theorem readShape (cong : CongruentUnder around t.RecordsUnder P R) (hnode : node.Like P node')
    (d : Dictionary) (h : R s s') :
    R (s.readShape around t node d) (s'.readShape around t node' d) := by
  unfold Session.readShape
  split
  · exact cong.reportOne _ _ _ _ hnode.path h
  · exact h

/-- Walks that have the same nodes to visit. -/
def Walks (P : String → String → Prop) (R : Session → Session → Prop) (w w' : Walk) : Prop :=
  R w.1 w'.1 ∧ List.Forall₂ (TreeNode.Like P) w.2 w'.2

theorem meetKid (cong : CongruentUnder around t.RecordsUnder P R) (limits : Option Limits)
    (hpath : P path path') (kid : Object × Nat) {w w' : Walk} (h : Walks P R w w') :
    Walks P R (Session.meetKid around t limits path w kid)
      (Session.meetKid around t limits path' w' kid) := by
  obtain ⟨s, nodes⟩ := w
  obtain ⟨s', nodes'⟩ := w'
  obtain ⟨hs, hnodes⟩ := h
  have hkid : P (path ++ "/Kids[" ++ Number.showNat kid.2 ++ "]")
      (path' ++ "/Kids[" ++ Number.showNat kid.2 ++ "]") :=
    cong.extend "]" (cong.extend _ (cong.extend "/Kids[" hpath))
  unfold Session.meetKid
  cases around.store.dereference kid.1 with
  | none => exact ⟨cong.reportOne _ _ _ _ hkid hs, hnodes⟩
  | some found =>
    obtain ⟨hfresh, hmarked⟩ := cong.mark (.of found.1 found.2) t.title (.inl rfl) hs
    dsimp only
    rw [hfresh]
    refine ⟨hmarked, ?_⟩
    split
    · exact List.rel_append hnodes (.cons ⟨hkid, rfl⟩ .nil)
    · exact hnodes

theorem meetKids (cong : CongruentUnder around t.RecordsUnder P R) (limits : Option Limits)
    (hpath : P path path') (kids : Object) (h : R s s') :
    Walks P R (s.meetKids around t limits path kids) (s'.meetKids around t limits path' kids) := by
  cases kids with
  | array items =>
    exact List.foldl_rel ⟨h, .nil⟩ fun kid _ _ _ hwalks => cong.meetKid limits hpath kid hwalks
  | _ => exact ⟨cong.reportOne _ _ _ _ hpath h, .nil⟩

theorem visitNode (cong : CongruentUnder around t.RecordsUnder P R) (hnode : node.Like P node')
    (h : R s s') :
    Walks P R (s.visitNode around t node) (s'.visitNode around t node') := by
  have hvisit := cong.visit t.title hnode.path h
  have hobject : node'.object = node.object := by rw [hnode.same]
  unfold Session.visitNode
  dsimp only
  rw [hobject]
  cases node.object with
  | dictionary d =>
    have hread := cong.readNode (t := t) hnode d (cong.readShape (t := t) hnode d hvisit)
    dsimp only
    rw [nodeLimits_of_like hnode]
    cases Tree.value? around.store d "Kids" with
    | none => exact ⟨hread, .nil⟩
    | some kids => exact cong.meetKids _ hnode.path kids hread
  | _ => exact ⟨cong.reportOne _ _ _ _ hnode.path hvisit, .nil⟩

theorem visitNodes (cong : CongruentUnder around t.RecordsUnder P R) (fuel : Nat)
    {nodes nodes' : List TreeNode} (hnodes : List.Forall₂ (TreeNode.Like P) nodes nodes')
    (h : R s s') :
    R (Session.visitNodes around t fuel s nodes)
      (Session.visitNodes around t fuel s' nodes') := by
  induction fuel generalizing s s' nodes nodes' with
  | zero => cases hnodes <;> exact h
  | succ fuel ih =>
    cases hnodes with
    | nil => exact h
    | cons hnode hrest =>
      obtain ⟨hvisited, hfound⟩ := cong.visitNode (t := t) hnode h
      exact ih (List.rel_append hrest hfound) hvisited

theorem walkTree (cong : CongruentUnder around t.RecordsUnder P R) (root : Object)
    (reference : Option ObjectId) (hpath : P path path') (h : R s s') :
    R (s.walkTree around t root reference path) (s'.walkTree around t root reference path') := by
  obtain ⟨hfresh, hmarked⟩ := cong.mark (.of root reference) t.title (.inl rfl) h
  unfold Session.walkTree
  dsimp only
  rw [hfresh]
  split
  · exact cong.visitNodes _ (.cons ⟨hpath, rfl⟩ .nil) hmarked
  · exact hmarked

end Tree

end CongruentUnder

namespace Congruent

variable {around : Surroundings} {P : String → String → Prop} {R : Session → Session → Prop}
  {s s' : Session} {path path' : String}

theorem descend (cong : Congruent around P R) (scope : Scope) (label : String) (child : Child)
    (hpath : P child.path path') (h : R s s') (scopePath : String) :
    R (s.descend around scope label child)
      (s'.descend around { scope with path := scopePath } label { child with path := path' }) := by
  unfold Session.descend
  dsimp only
  cases TreeKind.ofType? child.type with
  | some kind =>
    exact (cong.mono fun _ _ => trivial).walkTree child.object child.reference hpath h
  | none =>
    exact cong.follow child.object child.reference (fun _ _ => trivial) _ label hpath h

theorem checkEntry (cong : Congruent around P R) {scope : Scope} (hpath : P scope.path path')
    (row : Row) (entry : String × Option Object) (h : R s s') :
    R (Session.checkEntry around scope row s entry)
      (Session.checkEntry around { scope with path := path' } row s' entry) := by
  have hreport := cong.report (scope.likes_entryFindings hpath row entry.1 entry.2) h
  unfold Session.checkEntry
  rw [scope.child?_path path' row entry.1 entry.2]
  cases hchild : scope.child? row entry.1 entry.2 with
  | none => exact hreport
  | some child =>
    have hown : child.path = scope.container.childPath scope.path entry.1 := by
      have hsame := scope.child?_path scope.path row entry.1 entry.2
      rw [show { scope with path := scope.path } = scope from rfl, hchild] at hsame
      exact congrArg Child.path (Option.some.inj hsame)
    refine cong.descend scope entry.1 child ?_ hreport path'
    rw [hown]
    cases scope.container with
    | dictionary _ => exact cong.extend entry.1 (cong.extend "/" hpath)
    | array _ => exact cong.extend "]" (cong.extend entry.1 (cong.extend "[" hpath))

theorem checkObject (cong : Congruent around P R) {item item' : WorkItem}
    (hitem : item.Like P item') (table : Table) (h : R s s') :
    R (s.checkObject around item table) (s'.checkObject around item' table) := by
  have hobject : item'.object = item.object := by rw [hitem.same]
  unfold Session.checkObject
  rw [hobject]
  cases Container.of? item.object with
  | none => exact cong.reportOne _ _ _ _ hitem.path h
  | some container =>
    let scope : Scope := ⟨around.store, s'.version, table, container, item.path⟩
    have hpath : P scope.path item'.path := hitem.path
    dsimp only
    rw [cong.version h]
    refine List.foldl_rel h fun row _ a b hrow => ?_
    exact List.foldl_rel hrow fun entry _ c d hentry => cong.checkEntry hpath row entry hentry

/-- Items that are the same but for their paths are taken alike. -/
theorem take (cong : Congruent around P R) {item item' : WorkItem} (hitem : item.Like P item')
    (h : R s s') : Matches R (s.take around item) (s'.take around item') := by
  have hlink : item'.link = item.link := by rw [hitem.same]
  have hseeded : item'.seeded = item.seeded := by rw [hitem.same]
  have htable := cong.table item.link h
  unfold Session.take
  rw [hlink, hseeded]
  generalize s.table around item.link = looked at htable ⊢
  generalize s'.table around item.link = looked' at htable ⊢
  obtain ⟨result, s⟩ := looked
  obtain ⟨result', s'⟩ := looked'
  obtain ⟨rfl, hlooked⟩ := htable
  cases result with
  | ok table => exact ⟨rfl, cong.checkObject hitem table (cong.enter hitem hlooked)⟩
  | error unavailable =>
    have hdropped := cong.drop hitem hlooked
    dsimp only
    split
    · exact ⟨rfl, hdropped⟩
    · exact ⟨rfl, cong.reportOne _ _ _ _ hitem.path hdropped⟩

theorem drain (cong : Congruent around P R)
    (hstop : ∀ {a b : Session} (count : Nat), R a b → a.shouldStop count = b.shouldStop count)
    (fuel count : Nat) (h : R s s') :
    Matches R (Session.drain around fuel count s) (Session.drain around fuel count s') := by
  induction fuel generalizing count s s' with
  | zero =>
    have hqueue := cong.queue h
    unfold Session.drain
    rw [hstop count h]
    cases hs : s.queue <;> cases hs' : s'.queue <;> rw [hs, hs'] at hqueue
    · exact ⟨rfl, h⟩
    · cases hqueue
    · cases hqueue
    · dsimp only
      split <;> exact ⟨rfl, h⟩
  | succ fuel ih =>
    have hqueue := cong.queue h
    unfold Session.drain
    dsimp only
    rw [hstop count h]
    generalize hs : s.queue = queue at hqueue ⊢
    generalize hs' : s'.queue = queue' at hqueue ⊢
    cases hqueue with
    | nil => exact ⟨rfl, h⟩
    | @cons item item' rest rest' hitem hrest =>
      dsimp only
      split
      · exact ⟨rfl, h⟩
      · have htake := cong.take hitem (cong.pop hrest h)
        generalize Session.take { s with queue := rest } around item = taken at htake ⊢
        generalize Session.take { s' with queue := rest' } around item' = taken' at htake ⊢
        obtain ⟨result, a⟩ := taken
        obtain ⟨result', b⟩ := taken'
        obtain ⟨rfl, hnext⟩ := htake
        cases result with
        | ok checked => exact ih _ hnext
        | error unavailable => exact ⟨rfl, hnext⟩

theorem runs (cong : Congruent around P R)
    (hstop : ∀ {a b : Session} (count : Nat), R a b → a.shouldStop count = b.shouldStop count)
    {count : Nat} {ended : End × Session} (hruns : Runs around count s ended) (h : R s s') :
    ∃ ended', Runs around count s' ended' ∧ Matches R ended ended' := by
  induction hruns generalizing s' with
  | drained hqueue =>
    have hqueues := cong.queue h
    rw [hqueue, List.forall₂_nil_left_iff] at hqueues
    exact ⟨_, .drained hqueues, rfl, h⟩
  | stopped hne hgo =>
    have hne' : s'.queue ≠ [] := by
      intro hqueue
      have hqueues := cong.queue h
      rw [hqueue, List.forall₂_nil_right_iff] at hqueues
      exact hne hqueues
    exact ⟨_, .stopped hne' (hstop _ h ▸ hgo), rfl, h⟩
  | failed hqueue hgo htake =>
    obtain ⟨item', rest', hitem, hrest, hqueue'⟩ :=
      List.forall₂_cons_left_iff.1 (hqueue ▸ cong.queue h)
    have hnext := cong.take hitem (cong.pop hrest h)
    rw [htake] at hnext
    rcases htake' : Session.take { s' with queue := rest' } around item' with ⟨result', b⟩
    rw [htake'] at hnext
    obtain ⟨rfl, hsessions⟩ := hnext
    exact ⟨_, .failed hqueue' (hstop _ h ▸ hgo) htake', rfl, hsessions⟩
  | turn hqueue hgo htake _ ih =>
    obtain ⟨item', rest', hitem, hrest, hqueue'⟩ :=
      List.forall₂_cons_left_iff.1 (hqueue ▸ cong.queue h)
    have hnext := cong.take hitem (cong.pop hrest h)
    rw [htake] at hnext
    rcases htake' : Session.take { s' with queue := rest' } around item' with ⟨result', b⟩
    rw [htake'] at hnext
    obtain ⟨rfl, hsessions⟩ := hnext
    obtain ⟨ended', hruns, hmatches⟩ := ih hsessions
    exact ⟨ended', .turn hqueue' (hstop _ h ▸ hgo) htake' hruns, hmatches⟩

end Congruent

end Session

end PdfConform
