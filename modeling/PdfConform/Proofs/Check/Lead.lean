import Mathlib.Data.List.Basic
import Mathlib.Data.Option.Basic
import PdfConform.Proofs.Check.Step

/-! Where an object leads to. A check or a visit, whatever it reports on the way, follows the
leads of its object one after another, and these depend on the document and the table alone. -/
namespace PdfConform

inductive Lead
  /-- One of the links is to be chosen for a container, which is then to be checked. -/
  | follow (object : Object) (reference : Option ObjectId) (links : List String)
  /-- An object is to be visited as a node of a tree. -/
  | enter (object : Object) (reference : Option ObjectId) (tree : Tree)

/-- From one state to another the leads were followed in order, with asides between them. -/
inductive Trace {σ : Type} (aside : σ → σ → Prop) (act : Lead → σ → σ → Prop) :
    List Lead → σ → σ → Prop
  | done (a : σ) : Trace aside act [] a a
  | aside {leads : List Lead} {a b c : σ} :
    aside a b → Trace aside act leads b c → Trace aside act leads a c
  | act {lead : Lead} {leads : List Lead} {a b c : σ} :
    act lead a b → Trace aside act leads b c → Trace aside act (lead :: leads) a c

namespace Trace

variable {σ τ : Type} {aside : σ → σ → Prop} {act : Lead → σ → σ → Prop}
  {first second : List Lead} {leads : List Lead} {a b c : σ}

theorem ofAside (h : aside a b) : Trace aside act [] a b := .aside h (.done b)

theorem ofAct {lead : Lead} (h : act lead a b) : Trace aside act [lead] a b := .act h (.done b)

theorem append (h : Trace aside act first a b) (k : Trace aside act second b c) :
    Trace aside act (first ++ second) a c := by
  induction h with
  | done a => exact k
  | aside hstep _ ih => exact .aside hstep (ih k)
  | act hstep _ ih => exact .act hstep (ih k)

theorem asideFirst (h : Trace aside act [] a b) (k : Trace aside act leads b c) :
    Trace aside act leads a c :=
  h.append k

theorem asideLast (h : Trace aside act leads a b) (k : Trace aside act [] b c) :
    Trace aside act leads a c :=
  List.append_nil leads ▸ h.append k

theorem foldl {α : Type} {items : List α} (view : τ → σ) {f : τ → α → τ} {leadsOf : α → List Lead}
    (h : ∀ state, ∀ item ∈ items,
      Trace aside act (leadsOf item) (view state) (view (f state item)))
    (state : τ) :
    Trace aside act (items.flatMap leadsOf) (view state) (view (items.foldl f state)) := by
  induction items generalizing state with
  | nil => exact .done _
  | cons item items ih =>
    have hfirst := h state item List.mem_cons_self
    exact hfirst.append (ih (fun state item hitem => h state item (List.mem_cons_of_mem _ hitem)) _)

theorem map {aside' : τ → τ → Prop} {act' : Lead → τ → τ → Prop} {f : σ → τ}
    (haside : ∀ {a b}, aside a b → aside' (f a) (f b))
    (hact : ∀ {lead a b}, act lead a b → act' lead (f a) (f b)) (h : Trace aside act leads a b) :
    Trace aside' act' leads (f a) (f b) := by
  induction h with
  | done a => exact .done _
  | aside hstep _ ih => exact .aside (haside hstep) ih
  | act hstep _ ih => exact .act (hact hstep) ih

/-- What asides and the leads keep is kept. -/
theorem keep {P : σ → Prop} (haside : ∀ {a b}, aside a b → P a → P b)
    (hact : ∀ {a b}, ∀ lead ∈ leads, act lead a b → P a → P b) (h : Trace aside act leads a b)
    (ha : P a) : P b := by
  induction h with
  | done a => exact ha
  | aside hstep _ ih => exact ih hact (haside hstep ha)
  | act hstep _ ih =>
    exact ih (fun lead hlead => hact lead (List.mem_cons_of_mem _ hlead))
      (hact _ List.mem_cons_self hstep ha)

/-- What following a lead brings about, and asides and further leads keep, is so of all leads in
the end. -/
theorem collect {P : σ → Prop} {Q : Lead → σ → Prop}
    (haside : ∀ {a b}, aside a b → P a → P b ∧ ∀ lead, Q lead a → Q lead b)
    (hact : ∀ {a b}, ∀ lead ∈ leads, act lead a b → P a →
      (P b ∧ ∀ other, Q other a → Q other b) ∧ Q lead b)
    (h : Trace aside act leads a b) (ha : P a) :
    (P b ∧ ∀ other, Q other a → Q other b) ∧ ∀ lead ∈ leads, Q lead b := by
  induction h with
  | done a => exact ⟨⟨ha, fun _ hother => hother⟩, fun _ hlead => by cases hlead⟩
  | aside hstep _ ih =>
    obtain ⟨hb, hkept⟩ := haside hstep ha
    obtain ⟨⟨hc, hlater⟩, hleads⟩ := ih hact hb
    exact ⟨⟨hc, fun other hother => hlater other (hkept other hother)⟩, hleads⟩
  | act hstep _ ih =>
    obtain ⟨⟨hb, hkept⟩, hlead⟩ := hact _ List.mem_cons_self hstep ha
    obtain ⟨⟨hc, hlater⟩, hleads⟩ :=
      ih (fun lead hlead => hact lead (List.mem_cons_of_mem _ hlead)) hb
    refine ⟨⟨hc, fun other hother => hlater other (hkept other hother)⟩, ?_⟩
    exact List.forall_mem_cons.2 ⟨hlater _ hlead, hleads⟩

end Trace

/-- An object where references have led, with the last of them. -/
abbrev Place := Object × Option ObjectId

namespace Tree

/-- A value of a tree leads on when it is a container. -/
def valueLead? (t : Tree) (store : Store) (value : Object) : Option Lead :=
  match store.present value with
  | none => none
  | some (object, reference) =>
    if object.isContainer then some (.follow object reference t.links) else none

/-- A value is looked at only beside a key of the tree's kind. -/
def pairLead? (t : Tree) (store : Store) (pair : Object × Option Object) : Option Lead :=
  match t.keyOf? store pair.1 with
  | none => none
  | some _ => pair.2.bind (t.valueLead? store)

def kidLead? (t : Tree) (store : Store) (kid : Object) : Option Lead :=
  (store.dereference kid).map fun (child, reference) => .enter child reference t

def itemsOf? (value : Option Object) : List Object := (value.bind Object.asArray?).getD []

def entryLeads (t : Tree) (store : Store) (d : Dictionary) : List Lead :=
  (pairs (itemsOf? (value? store d t.kind.entriesKey))).filterMap (t.pairLead? store)

def kidLeads (t : Tree) (store : Store) (d : Dictionary) : List Lead :=
  (itemsOf? (value? store d "Kids")).filterMap (t.kidLead? store)

/-- Where a node leads to: to its values, then to its children. -/
def leads (t : Tree) (store : Store) : Object → List Lead
  | .dictionary d => t.entryLeads store d ++ t.kidLeads store d
  | _ => []

/-- The values of a node that stand beside a key of the tree's kind. -/
def valuesAt (t : Tree) (store : Store) : Object → List Object
  | .dictionary d => (pairs (itemsOf? (value? store d t.kind.entriesKey))).filterMap fun pair =>
      (t.keyOf? store pair.1).bind fun _ => pair.2
  | _ => []

/-- The child nodes of a node in order, references followed. -/
def childrenOf (store : Store) : Object → List Place
  | .dictionary d => (itemsOf? (value? store d "Kids")).filterMap store.dereference
  | _ => []

theorem leads_eq (t : Tree) (store : Store) (object : Object) :
    t.leads store object = (t.valuesAt store object).filterMap (t.valueLead? store) ++
      (childrenOf store object).map fun child => .enter child.1 child.2 t := by
  cases object with
  | dictionary d =>
    rw [leads, entryLeads, kidLeads, valuesAt, childrenOf, List.filterMap_filterMap,
      List.map_filterMap]
    congr 2
    funext pair
    unfold pairLead?
    cases t.keyOf? store pair.1 <;> rfl
  | _ => rfl

theorem lead_cases {t : Tree} {store : Store} {object : Object} {lead : Lead}
    (h : lead ∈ t.leads store object) :
    (∃ value ∈ t.valuesAt store object, ∃ found reference,
        store.present value = some (found, reference) ∧ found.isContainer = true ∧
          lead = .follow found reference t.links) ∨
      ∃ child ∈ childrenOf store object, lead = .enter child.1 child.2 t := by
  rw [leads_eq, List.mem_append, List.mem_filterMap, List.mem_map] at h
  rcases h with ⟨value, hvalue, hlead⟩ | ⟨child, hchild, rfl⟩
  · left
    unfold valueLead? at hlead
    split at hlead
    · cases hlead
    · next found reference hpresent =>
      split at hlead
      · next hcontainer => exact ⟨value, hvalue, found, reference, hpresent, hcontainer,
          (Option.some.inj hlead).symm⟩
      · cases hlead
  · exact .inr ⟨child, hchild, rfl⟩

end Tree

namespace Scope

/-- What a container leads to: the root of a tree, or one of the links. -/
def childLead (child : Child) : Lead :=
  match TreeKind.ofType? child.type with
  | some kind => .enter child.object child.reference ⟨kind, child.links⟩
  | none => .follow child.object child.reference child.links

def entryLead? (s : Scope) (row : Row) (entry : String × Option Object) : Option Lead :=
  (s.child? row entry.1 entry.2).map childLead

/-- Where a container leads to, row by row. -/
def leads (s : Scope) : List Lead :=
  s.table.rows.flatMap fun row => (s.entries row).filterMap (s.entryLead? row)

/-- What an expression may ask about a container is told by what is present in it. -/
theorem context_of_present? {s s' : Scope} (hversion : s'.version = s.version)
    (htable : s'.table = s.table) (hpresent : s'.present? = s.present?) :
    s'.context = s.context := by
  unfold context sibling?
  rw [hversion, htable, hpresent]

theorem valueMessage?_of_context {s s' : Scope} (h : s'.context = s.context) :
    s'.valueMessage? = s.valueMessage? := by
  funext row type value
  unfold valueMessage?
  rw [h]

section Path

variable (s : Scope) (path : String) (row : Row) (label : String) (value : Option Object)

theorem context_path : context { s with path } = s.context := rfl

theorem valueMessage?_path : valueMessage? { s with path } = s.valueMessage? := rfl

/-- The way to a container is for its findings, and all of them have it. -/
theorem entryFindings_path : entryFindings { s with path } row label value =
    (s.entryFindings row label value).map fun f => { f with context := path } := by
  have hite (c : Bool) (f : Finding) : (if c = true then [{ f with context := path }] else []) =
      (if c = true then [f] else []).map fun f => { f with context := path } := by
    cases c <;> rfl
  have hcurrent (c : Bool) (f : Finding) : (if c = true then [] else [{ f with context := path }]) =
      (if c = true then [] else [f]).map fun f => { f with context := path } := by
    cases c <;> rfl
  simp only [entryFindings, typedFindings, context_path, valueMessage?_path]
  cases value.bind s.store.present with
  | none => exact hite _ (s.finding label _ _)
  | some found =>
    rw [List.map_append]
    apply congrArg₂ _ (hcurrent _ (s.finding label _ _))
    cases TypeToken.select? s.store found.1 row.types with
    | none => rfl
    | some index =>
      rw [List.map_append]
      apply congrArg₂ _ (hite _ (s.finding label _ _))
      cases (Literal.ofObject? found.1).bind (s.valueMessage? row index) <;> rfl

theorem child?_path : child? { s with path } row label value =
    (s.child? row label value).map fun child =>
      { child with path := s.container.childPath path label } := by
  unfold child?
  cases value.bind s.store.present with
  | none => rfl
  | some found =>
    simp only [Option.bind_eq_bind, Option.bind_some]
    cases TypeToken.select? s.store found.1 row.types with
    | none => rfl
    | some index =>
      simp only [Option.bind_some]
      cases row.types[index]?.bind TypeToken.known? with
      | none => rfl
      | some type =>
        simp only [Option.bind_some]
        cases (guard (!(row.linksFor index).isEmpty && found.1.isContainer) : Option Unit) <;> rfl

theorem leads_path : leads { s with path } = s.leads := by
  have hentry (row : Row) (entry : String × Option Object) :
      entryLead? { s with path } row entry = s.entryLead? row entry := by
    unfold entryLead?
    rw [child?_path, Option.map_map]
    rfl
  unfold leads
  simp only [funext (hentry _)]
  rfl

end Path

end Scope

end PdfConform
