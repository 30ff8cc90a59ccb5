import PdfConform.Proofs.Check.Choice
import PdfConform.Proofs.Check.Names

/-! What there is to be done for a list of seeds, and what it leads to. That depends on the
document and on the tables alone, and not on the order in which it is done. -/
namespace PdfConform

/-- What stays as it is while a document is validated over unchanged files. -/
structure Setting where
  view : String → Except String Table
  store : Store
  version : Version

/-- An object to be checked for a link, or to be visited as a node of a tree. -/
inductive Work
  | check (object : Object) (identity : Identity) (link : String)
  | visit (object : Object) (identity : Identity) (tree : Tree)

/-- The pair under which a piece of work is recorded. -/
def Work.pair : Work → Identity × String
  | .check _ identity link => (identity, link)
  | .visit _ identity tree => (identity, tree.title)

def WorkItem.work (item : WorkItem) : Work := .check item.object item.identity item.link

namespace Setting

variable (g : Setting)

/-- What following a lead gives to do, which is nothing when no link can be chosen. -/
def work? : Lead → Option Work
  | .follow object reference links =>
    (Resolution.choice g.view g.store g.version object links).map
      (.check object (.of object reference))
  | .enter object reference t => some (.visit object (.of object reference) t)

def leads : Work → List Lead
  | .check object _ link =>
    match g.view link with
    | .ok table => Session.leadsUnder g.store g.version table object
    | .error _ => []
  | .visit object _ t => t.leads g.store object

/-- What a piece of work leads to. -/
def next (w : Work) : List Work := (g.leads w).filterMap g.work?

inductive Reaches (seeds : List Work) : Work → Prop
  | seed {w : Work} : w ∈ seeds → Reaches seeds w
  | next {w w' : Work} : Reaches seeds w → w' ∈ g.next w → Reaches seeds w'

variable {g} {seeds seeds' : List Work} {w : Work}

theorem Reaches.mono (hseeds : seeds ⊆ seeds') (h : g.Reaches seeds w) : g.Reaches seeds' w := by
  induction h with
  | seed hseed => exact .seed (hseeds hseed)
  | next _ hnext ih => exact .next ih hnext

end Setting

/-- The identities by which objects go. -/
inductive Store.Known (store : Store) : Object → Identity → Prop
  | direct (object : Object) : Known store object (.direct object.fingerprint)
  | indirect (id : ObjectId) :
    Known store (((store.dereference (.reference id)).map (·.1)).getD (.reference id))
      (.indirect id)

/-- No two of these objects have the same fingerprint. -/
def CollisionFree (held : Object → Prop) : Prop :=
  ∀ a b, held a → held b → a.fingerprint = b.fingerprint → a = b

/-- Objects that lie in a list without collisions, all that is nested in them included. -/
theorem collisionFree_of_nodup {store : Store} {roots held : List Object}
    (hwholes : store.wholes roots ⊆ held) (hparts : ∀ whole ∈ held, whole.parts ⊆ held)
    (hnodup : (held.map Object.fingerprint).Nodup) : CollisionFree (store.Holds roots) := by
  have hheld {object : Object} (h : store.Holds roots object) : object ∈ held := by
    obtain ⟨whole, hwhole, hobject⟩ := h
    exact hparts whole (hwholes hwhole) hobject
  exact fun a b ha hb => List.inj_on_of_nodup_map hnodup (hheld ha) (hheld hb)

namespace Store

variable {store : Store}

theorem known_of_dereference {value object : Object} {reference : Option ObjectId}
    (h : store.dereference value = some (object, reference)) :
    store.Known object (.of object reference) := by
  cases reference with
  | none => exact .direct object
  | some id =>
    have hresolve := resolve_of_dereference h
    have hdirect := asReference?_of_dereference h
    have hfound : store.dereference (.reference id) = some (object, some id) := by
      change (store.resolve id).bind (fun next => store.follow 31 next (some id)) = _
      rw [hresolve, Option.bind_some]
      exact store.follow_of_direct 30 (some id) hdirect
    have hknown : store.Known _ (.indirect id) := .indirect id
    rw [hfound] at hknown
    exact hknown

/-- An object that is added goes by what it refers to, or by the reference when that leads
nowhere. -/
theorem known_of_seeded {value : Object} {found : Object × Option ObjectId}
    (h : (store.dereference value).getD (value, value.asReference?) = found) :
    store.Known found.1 (.of found.1 found.2) := by
  cases hvalue : store.dereference value with
  | some target =>
    rw [hvalue, Option.getD_some] at h
    subst h
    exact known_of_dereference hvalue
  | none =>
    rw [hvalue, Option.getD_none] at h
    subst h
    cases value with
    | reference id =>
      have hknown : store.Known _ (.indirect id) := .indirect id
      rw [hvalue] at hknown
      exact hknown
    | _ => exact .direct _

theorem Known.unique {held : Object → Prop} (hfree : CollisionFree held) {a b : Object}
    {identity : Identity} (ha : held a) (hb : held b) (h : store.Known a identity)
    (k : store.Known b identity) : a = b := by
  cases h with
  | direct =>
    generalize hidentity : Identity.direct a.fingerprint = identity at k
    cases k with
    | direct => exact hfree a b ha hb (Identity.direct.inj hidentity)
    | indirect => cases hidentity
  | indirect id =>
    cases k with
    | indirect => rfl

end Store

/-- Work on an object that is held, under the identity by which the object goes. The link can
be told from the title of a tree, and the tree by its title. -/
inductive Work.Proper (store : Store) (held : Object → Prop) : Work → Prop
  | check {object : Object} {identity : Identity} {link : String} : held object →
    store.Known object identity → '<' ∉ link.toList →
    Proper store held (.check object identity link)
  | visit {object : Object} {identity : Identity} {t : Tree} : held object →
    store.Known object identity → (∀ link ∈ t.links, IsLinkName link) →
    Proper store held (.visit object identity t)

theorem Tree.mem_title (t : Tree) : '<' ∈ t.title.toList := by simp [title]

/-- Without collisions the pair tells what is to be done. -/
theorem Work.Proper.unique {store : Store} {held : Object → Prop} (hfree : CollisionFree held)
    {w w' : Work} (h : w.Proper store held) (h' : w'.Proper store held)
    (hpair : w.pair = w'.pair) : w = w' := by
  cases h with
  | check hheld hknown hlink =>
    cases h' with
    | check hheld' hknown' _ =>
      obtain ⟨rfl, rfl⟩ := Prod.mk.inj hpair
      rw [hknown.unique hfree hheld hheld' hknown']
    | @visit _ _ t =>
      obtain ⟨_, rfl⟩ := Prod.mk.inj hpair
      exact absurd t.mem_title hlink
  | @visit _ _ t hheld hknown hlinks =>
    cases h' with
    | check _ _ hlink =>
      obtain ⟨_, htitle⟩ := Prod.mk.inj hpair
      exact absurd t.mem_title (htitle ▸ hlink)
    | visit hheld' hknown' hlinks' =>
      obtain ⟨rfl, htitle⟩ := Prod.mk.inj hpair
      rw [hknown.unique hfree hheld hheld' hknown', Tree.title_inj hlinks hlinks' htitle]

theorem IsLinkName.not_mem {link : String} (h : IsLinkName link) : '<' ∉ link.toList :=
  fun hmem => absurd (h.2 '<' hmem) (by decide)

namespace Setting

variable {g : Setting} {roots : List Object}

/-- Lists of links that a row can have. -/
abbrev Nameable (links : List String) : Prop := ∀ link ∈ links, IsLinkName link

theorem proper_of_work? {lead : Lead} {w : Work}
    (hlead : lead.Sprung g.store (g.store.Nests roots) Nameable fun t => Nameable t.links)
    (h : g.work? lead = some w) : w.Proper g.store (g.store.Holds roots) := by
  cases hlead with
  | follow hlinks hvalue hpresent _ =>
    have hobject := Store.dereference_of_present hpresent
    obtain ⟨link, hchoice, rfl⟩ := Option.map_eq_some_iff.1 h
    exact .check ((g.store.spans_holds roots).dereference hvalue hobject)
      (Store.known_of_dereference hobject) (hlinks link (Resolution.mem_of_choice hchoice)).not_mem
  | enter htree hvalue hobject =>
    cases h
    exact .visit ((g.store.spans_holds roots).dereference hvalue hobject)
      (Store.known_of_dereference hobject) htree

/-- Tables with rows that are well formed lead from proper work to proper work only. -/
theorem Reaches.proper
    (hrows : ∀ {link table}, g.view link = .ok table → ∀ row ∈ table.rows, row.WellFormed)
    {seeds : List Work} (hseeds : ∀ w ∈ seeds, w.Proper g.store (g.store.Holds roots)) {w : Work}
    (h : g.Reaches seeds w) : w.Proper g.store (g.store.Holds roots) := by
  induction h with
  | seed hseed => exact hseeds _ hseed
  | next _ hnext ih =>
    obtain ⟨lead, hlead, hwork⟩ := List.mem_filterMap.1 hnext
    refine proper_of_work? ?_ hwork
    cases ih with
    | @check object identity link hobject _ _ =>
      unfold leads at hlead
      dsimp only at hlead
      split at hlead
      · next table hview =>
        have hdeclared {links : List String} (hlinks : table.Declares links) : Nameable links := by
          obtain ⟨row, hrow, hmem⟩ := hlinks
          exact (hrows hview row hrow).names links hmem
        exact (Session.sprung_of_mem_leadsUnder (g.store.spans_holds roots) hobject hlead).mono id
          hdeclared fun htree => hdeclared htree.declares
      · cases hlead
    | @visit object identity t hobject _ hlinks =>
      exact t.sprung_of_mem_leads (g.store.spans_holds roots) hlinks hlinks hobject hlead

end Setting

end PdfConform
