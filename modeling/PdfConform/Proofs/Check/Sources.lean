import PdfConform.Proofs.Check.RunStep
import PdfConform.Proofs.Schema.View

/-! Where the findings of a check come from. A lookup finds what is wrong with a grammar, a table
that is missing is reported, and what a check finds itself is of a few sorts. -/
namespace PdfConform

/-- Choices are reported against the link and a label of the parent. -/
inductive Finding.OfChoice (link : String) : Finding → Prop
  | ambiguous (label path message : String) :
    OfChoice link ⟨.ambiguousLink, link, some label, path, message⟩
  | unresolved (label path message : String) :
    OfChoice link ⟨.unresolvedLink, link, some label, path, message⟩

/-- What is reported on the nodes and values of a tree. -/
inductive Finding.OfTree (t : Tree) : Finding → Prop
  | choice {f : Finding} : f.OfChoice t.title → OfTree t f
  | shape {kind : Kind} (path message : String) :
    kind ∈ [.mixedContainerNode, .limitsViolation, .malformedContainer] →
    OfTree t (t.finding kind path message)
  | value (path message : String) :
    OfTree t (t.finding .typeMismatch path ("tree value " ++ message))

/-- What is reported on a container, its entries and the trees in it. -/
inductive Finding.OfScope (s : Scope) : Finding → Prop
  | entry {row : Row} {label : String} {value : Option Object} {f : Finding} :
    row ∈ s.table.rows → f ∈ s.entryFindings row label value → OfScope s f
  | choice {f : Finding} : f.OfChoice s.table.link → OfScope s f
  | tree {t : Tree} {f : Finding} : s.table.Plants t → f.OfTree t → OfScope s f

/-- The finding on what is no container. -/
def Finding.noContainer (link path kind : String) : Finding :=
  ⟨.typeMismatch, link, none, path, "expected a dictionary, array or stream, found " ++ kind⟩

/-- What is reported on an item. -/
inductive Finding.OfItem (around : Surroundings) (version : Version) (item : WorkItem) :
    Finding → Prop
  | scope {table : Table} {container : Container} {f : Finding} :
    Container.of? item.object = some container →
    f.OfScope (Session.scopeOf around version item table container) → OfItem around version item f
  | noContainer (link : String) : Container.of? item.object = none →
    OfItem around version item (.noContainer link item.path item.object.kind)

/-- What a row finds on an entry goes by the entry's label and is about the document. -/
theorem Scope.exists_of_mem_entryFindings {s : Scope} {row : Row} {label : String}
    {value : Option Object} {f : Finding} (h : f ∈ s.entryFindings row label value) :
    ∃ kind message, f = s.finding label kind message ∧
      kind ∈ [Finding.Kind.missingRequiredKey, .typeMismatch, .indirectionViolation,
        .possibleValueViolation, .versionMismatch] := by
  unfold entryFindings at h
  split at h
  · split at h
    · exact ⟨_, _, List.mem_singleton.1 h, by simp⟩
    · cases h
  · rcases List.mem_append.1 h with hversion | h
    · split at hversion
      · cases hversion
      · exact ⟨_, _, List.mem_singleton.1 hversion, by simp⟩
    · split at h
      · exact ⟨_, _, List.mem_singleton.1 h, by simp⟩
      · rcases List.mem_append.1 h with hindirect | hvalue
        · split at hindirect
          · exact ⟨_, _, List.mem_singleton.1 hindirect, by simp⟩
          · cases hindirect
        · split at hvalue
          · exact ⟨_, _, List.mem_singleton.1 hvalue, by simp⟩
          · cases hvalue

/-- The links that a table may lead to. -/
def Table.Links (t : Table) (link : String) : Prop := ∃ links, t.Declares links ∧ link ∈ links

namespace Session

/-- One thing by which a check may find something, the links that it may look up being known,
and so what else it may report. -/
inductive Telling (around : Surroundings) (asked : String → Prop) (own : Finding → Prop) :
    Session → Session → Prop
  | silent {s s' : Session} : s'.findings = s.findings → s'.cache = s.cache →
    Telling around asked own s s'
  | asking {s s' : Session} : Asking around asked s s' → Telling around asked own s s'
  | own (s : Session) {found : List Finding} : (∀ f ∈ found, own f) →
    Telling around asked own s (s.report found)

abbrev Tells (around : Surroundings) (asked : String → Prop) (own : Finding → Prop) :
    Session → Session → Prop :=
  Relation.ReflTransGen (Telling around asked own)

namespace Tells

variable {around : Surroundings} {asked asked' : String → Prop} {own own' : Finding → Prop}
  {s s' : Session}

theorem silent (hfindings : s'.findings = s.findings) (hcache : s'.cache = s.cache) :
    Tells around asked own s s' :=
  .single (.silent hfindings hcache)

theorem one {f : Finding} (h : own f) (s : Session) : Tells around asked own s (s.report [f]) :=
  .single (.own s (by simpa using h))

theorem ofAsks (h : Asks around asked s s') : Tells around asked own s s' :=
  Relation.ReflTransGen.mono (fun _ _ => .asking) s s' h

theorem mono (hasked : ∀ link, asked link → asked' link) (hown : ∀ f, own f → own' f)
    (h : Tells around asked own s s') : Tells around asked' own' s s' := by
  induction h with
  | refl => exact .refl
  | tail _ hlast ih =>
    refine ih.tail ?_
    cases hlast with
    | silent hfindings hcache => exact .silent hfindings hcache
    | asking hask =>
      cases hask with
      | lookup hlink => exact .asking (.lookup _ (hasked _ hlink))
      | missing path message hlink htable =>
        exact .asking (.missing _ path message (hasked _ hlink) htable)
    | own hfound => exact .own _ fun f hf => hown f (hfound f hf)

theorem keep {P : Session → Prop}
    (hstep : ∀ {a b : Session}, Telling around asked own a b → P a → P b)
    (h : Tells around asked own s s') (hs : P s) : P s' := by
  induction h with
  | refl => exact hs
  | tail _ hlast ih => exact hstep hlast ih

theorem foldl {α σ : Type} {items : List α} {f : σ → α → σ} (view : σ → Session)
    (h : ∀ state, ∀ item ∈ items, Tells around asked own (view state) (view (f state item)))
    (state : σ) : Tells around asked own (view state) (view (items.foldl f state)) :=
  foldl_rel view (fun _ => .refl) .trans h state

end Tells

variable (around : Surroundings)

theorem findings_enqueue (s : Session) (object : Object) (reference : Option ObjectId)
    (link path : String) : (s.enqueue object reference link path).findings = s.findings := by
  rw [enqueue_eq]

theorem cache_enqueue (s : Session) (object : Object) (reference : Option ObjectId)
    (link path : String) : (s.enqueue object reference link path).cache = s.cache := by
  rw [enqueue_eq]

theorem tells_chooseLink (s : Session) (object : Object) (links : List String)
    (parent label path : String) :
    Tells around (· ∈ links) (Finding.OfChoice parent) s
      (s.chooseLink around object links parent label path).2 := by
  have hasks : Asks around (· ∈ links) s _ :=
    fits_asks s.version object path links (fun _ hlink => hlink) s
  have hfits : Tells around (· ∈ links) (Finding.OfChoice parent) s _ := .ofAsks hasks
  unfold chooseLink
  split
  · exact .refl
  · simp only [Resolution.resolve]
    split
    · exact hfits
    · exact hfits.trans (Tells.one (.ambiguous label path _) _)
    · exact hfits.trans (Tells.one (.unresolved label path _) _)

theorem tells_follow (s : Session) (object : Object) (reference : Option ObjectId)
    (links : List String) (parent label path : String) :
    Tells around (· ∈ links) (Finding.OfChoice parent) s
      (s.follow around object reference links parent label path) := by
  have hchoose := tells_chooseLink around s object links parent label path
  unfold follow
  dsimp only
  split
  · exact hchoose.trans (Tells.silent (findings_enqueue _ object reference _ path)
      (cache_enqueue _ object reference _ path))
  · exact hchoose

section Tree

variable (t : Tree)

theorem tells_shape (s : Session) {kind : Finding.Kind} (path message : String)
    (hkind : kind ∈ [Finding.Kind.mixedContainerNode, .limitsViolation, .malformedContainer]) :
    Tells around (· ∈ t.links) (Finding.OfTree t) s (s.report [t.finding kind path message]) :=
  .one (.shape path message hkind) s

theorem tells_malformed (s : Session) (path message : String) :
    Tells around (· ∈ t.links) (Finding.OfTree t) s
      (s.report [t.finding .malformedContainer path message]) :=
  tells_shape around t s path message (by simp)

theorem tells_scheduleValue (s : Session) (key : TreeKey) (value : Object) (path : String) :
    Tells around (· ∈ t.links) (Finding.OfTree t) s
      (s.scheduleValue around t key value path) := by
  unfold scheduleValue
  split
  · exact .refl
  · next object reference _ =>
    split
    · have hfollow := tells_follow around s object reference t.links t.title key.label path
      exact hfollow.mono (fun _ hlink => hlink) fun _ hchoice => .choice hchoice
    · rw [String.append_assoc, String.append_assoc, String.append_assoc]
      exact .one (.value path _) s

theorem tells_readPair (limits : Option Limits) (path : String) (k : Keys)
    (pair : (Object × Option Object) × Nat) :
    Tells around (· ∈ t.links) (Finding.OfTree t) k.session
      (readPair around t limits path k pair).session := by
  unfold readPair
  split
  · exact tells_malformed around t k.session _ _
  · next key _ =>
    dsimp only
    have hdrops : Tells around (· ∈ t.links) (Finding.OfTree t) k.session
        (if !k.unsorted && k.previous.any key.lt then
          k.session.report [t.finding .malformedContainer path
            (t.kind.entriesKey ++ " keys are not sorted at " ++ key.label)] else k.session) := by
      split
      · exact tells_malformed around t k.session _ _
      · exact .refl
    split
    · exact hdrops.trans (tells_scheduleValue around t _ key _ _)
    · exact hdrops

theorem tells_readEntries (s : Session) (limits : Option Limits) (path : String)
    (entries : Object) :
    Tells around (· ∈ t.links) (Finding.OfTree t) s
      (s.readEntries around t limits path entries).2 := by
  unfold readEntries
  split
  · next items =>
    have hodd : Tells around (· ∈ t.links) (Finding.OfTree t) s
        (if items.length % 2 = 0 then s else s.report [t.finding .malformedContainer path
          (t.kind.entriesKey ++ " has an odd number of elements (" ++
            Number.showNat items.length ++ ")")]) := by
      split
      · exact .refl
      · exact tells_malformed around t s _ _
    have hpairs (k : Keys) : Tells around (· ∈ t.links) (Finding.OfTree t) k.session
        ((Tree.pairs items).zipIdx.foldl (readPair around t limits path) k).session :=
      .foldl Keys.session (fun k pair _ => tells_readPair around t limits path k pair) k
    exact hodd.trans (hpairs ⟨_, none, false, false⟩)
  · exact tells_malformed around t s _ _

theorem tells_readNode (s : Session) (node : TreeNode) (d : Dictionary) :
    Tells around (· ∈ t.links) (Finding.OfTree t) s (s.readNode around t node d) := by
  have hviolate (s : Session) (message : String) :
      Tells around (· ∈ t.links) (Finding.OfTree t) s (s.violate t node message) :=
    tells_shape around t s node.path message (by simp)
  have hviolation : Tells around (· ∈ t.links) (Finding.OfTree t) s
      ((nodeLimits around t node d).2.elim s (s.violate t node)) := by
    cases (nodeLimits around t node d).2 with
    | none => exact .refl
    | some message => exact hviolate s message
  have hkeys (s : Session) (limits : Option Limits) (violation : Option String) (outside : Bool) :
      Tells around (· ∈ t.links) (Finding.OfTree t) s
        (s.violateByKeys t node limits violation outside) := by
    unfold violateByKeys
    split
    · split
      · exact hviolate s _
      · exact .refl
    · exact .refl
  unfold readNode
  dsimp only
  split
  · exact hviolation
  · exact hviolation.trans ((tells_readEntries around t _ _ _ _).trans (hkeys _ _ _ _))

theorem tells_readShape (s : Session) (node : TreeNode) (d : Dictionary) :
    Tells around (· ∈ t.links) (Finding.OfTree t) s (s.readShape around t node d) := by
  unfold readShape
  split
  · exact tells_shape around t s _ _ (by simp)
  · exact .refl

theorem tells_meetKids (s : Session) (limits : Option Limits) (path : String) (kids : Object) :
    Tells around (· ∈ t.links) (Finding.OfTree t) s (s.meetKids around t limits path kids).1 := by
  unfold meetKids
  split
  · next items =>
    refine .foldl Prod.fst ?_ (s, [])
    intro found kid _
    unfold meetKid
    dsimp only
    split
    · exact tells_malformed around t found.1 _ _
    · exact .silent rfl rfl
  · exact tells_malformed around t s _ _

theorem tells_visitNode (s : Session) (node : TreeNode) :
    Tells around (· ∈ t.links) (Finding.OfTree t) s (s.visitNode around t node).1 := by
  have hvisit : Tells around (· ∈ t.links) (Finding.OfTree t) s
      (s.note (.visited t.title node.path)) := .silent rfl rfl
  unfold visitNode
  dsimp only
  split
  · next d _ =>
    have hread := hvisit.trans ((tells_readShape around t _ node d).trans
      (tells_readNode around t _ node d))
    split
    · exact hread
    · exact hread.trans (tells_meetKids around t _ _ _ _)
  · exact hvisit.trans (tells_malformed around t _ _ _)

theorem tells_visitNodes (fuel : Nat) (s : Session) (nodes : List TreeNode) :
    Tells around (· ∈ t.links) (Finding.OfTree t) s (visitNodes around t fuel s nodes) := by
  fun_induction visitNodes around t fuel s nodes with
  | case1 => exact .refl
  | case2 => exact .refl
  | case3 fuel s node rest s' found hvisit ih =>
    have hnode := tells_visitNode around t s node
    rw [hvisit] at hnode
    exact hnode.trans ih

theorem tells_walkTree (s : Session) (root : Object) (reference : Option ObjectId)
    (path : String) :
    Tells around (· ∈ t.links) (Finding.OfTree t) s (s.walkTree around t root reference path) := by
  unfold walkTree
  dsimp only
  split
  · have hmark : Tells around (· ∈ t.links) (Finding.OfTree t) s
        (s.mark (.of root reference) t.title).2 := .silent rfl rfl
    exact hmark.trans (tells_visitNodes around t _ _ _)
  · exact .silent rfl rfl

end Tree

section Scope

variable (scope : Scope) {row : Row}

theorem tells_descend (hrow : row ∈ scope.table.rows) {entry : String × Option Object}
    {child : Child} (hchild : scope.child? row entry.1 entry.2 = some child) (s : Session) :
    Tells around scope.table.Links (Finding.OfScope scope) s
      (s.descend around scope entry.1 child) := by
  obtain ⟨_, ⟨index, _, htype, hlinks⟩, hne, _⟩ := Scope.leadsTo_of_child? hchild
  have hasked : ∀ link, link ∈ child.links → scope.table.Links link :=
    fun link hlink => ⟨child.links, hlinks ▸ Table.declares_linksFor hrow (hlinks ▸ hne), hlink⟩
  unfold descend
  split
  · next kind hkind =>
    have hplants : scope.table.Plants ⟨kind, child.links⟩ :=
      ⟨row, hrow, index, child.type, htype, hkind, hlinks, hlinks ▸ hne⟩
    have hwalk := tells_walkTree around ⟨kind, child.links⟩ s child.object child.reference
      child.path
    exact hwalk.mono hasked fun f hf => .tree hplants hf
  · have hfollow := tells_follow around s child.object child.reference child.links
      scope.table.link entry.1 child.path
    exact hfollow.mono hasked fun f hf => .choice hf

theorem tells_checkRow (hrow : row ∈ scope.table.rows) (s : Session) :
    Tells around scope.table.Links (Finding.OfScope scope) s (checkRow around scope s row) := by
  refine .foldl id ?_ s
  intro s entry _
  have hfound : Tells around scope.table.Links (Finding.OfScope scope) s
      (s.report (scope.entryFindings row entry.1 entry.2)) :=
    .single (.own s fun f hf => .entry hrow hf)
  refine hfound.trans ?_
  unfold checkEntry
  dsimp only [id]
  split
  · next child hchild => exact tells_descend around scope hrow hchild _
  · exact .refl

theorem tells_checkObject (s : Session) (item : WorkItem) (table : Table) :
    Tells around table.Links (Finding.OfItem around s.version item) s
      (s.checkObject around item table) := by
  unfold checkObject
  cases hcontainer : Container.of? item.object with
  | none => exact .one (.noContainer table.link hcontainer) s
  | some container =>
    have hrows : Tells around table.Links
        (Finding.OfScope (scopeOf around s.version item table container)) s
        (table.rows.foldl (checkRow around (scopeOf around s.version item table container)) s) :=
      .foldl id (fun s' row hrow =>
        tells_checkRow around (scopeOf around s.version item table container) hrow s') s
    exact hrows.mono (fun _ hlink => hlink) fun _ hf => .scope hcontainer hf

/-- An item is looked up, and checked against the table of its link when there is one. -/
theorem tells_take (s : Session) (item : WorkItem) :
    Tells around
      (fun link => link = item.link ∨
        ∃ table, (s.table around item.link).1 = .ok table ∧ table.Links link)
      (Finding.OfItem around s.version item) s (s.take around item).2 := by
  cases hresult : (s.table around item.link).1 with
  | ok table =>
    rw [take_of_table_ok hresult]
    have hlookup : Tells around (· = item.link) (Finding.OfItem around s.version item) s
        (s.table around item.link).2 := .single (.asking (.lookup s rfl))
    have henter : Tells around (· = item.link) (Finding.OfItem around s.version item) s
        ((s.table around item.link).2.enter item) := hlookup.tail (.silent rfl rfl)
    have hcheck := tells_checkObject around ((s.table around item.link).2.enter item) item table
    exact (henter.mono (fun _ hlink => .inl hlink) fun _ hf => hf).trans
      (hcheck.mono (fun _ hlink => .inr ⟨table, rfl, hlink⟩) fun _ hf => hf)
  | error unavailable =>
    rw [take_of_table_error hresult]
    dsimp only
    split
    · exact .tail (.single (.asking (.lookup s (.inl rfl)))) (.silent rfl rfl)
    · exact .tail (.single (.asking (.missing s item.path _ (.inl rfl) hresult))) (.silent rfl rfl)

end Scope

end Session

end PdfConform
