import PdfConform.Proofs.Check.Agreement
import PdfConform.Proofs.Check.Conformance
import PdfConform.Proofs.Check.Reports
import PdfConform.Proofs.Check.Simulation

/-! Scalars behind references. A check sees the same in a scalar and in a reference to it, but for
rows that ask for the reference, and goes on to the same work. -/
namespace PdfConform

/-- The container with another value for this entry. -/
def Container.put (container : Container) (slot : Slot) (value : Object) : Container :=
  match container, slot with
  | .dictionary entries, .key name => .dictionary (entries.set name value)
  | .array items, .index n => .array (items.set n value)
  | container, _ => container

def Object.at? (object : Object) (slot : Slot) : Option Object :=
  (Container.of? object).bind (·.at? slot)

def Object.put (object : Object) (slot : Slot) (value : Object) : Object :=
  match object, slot with
  | .dictionary entries, .key label => .dictionary (Dictionary.set entries label value)
  | .stream entries data, .key label => .stream (Dictionary.set entries label value) data
  | .array items, .index n => .array (items.set n value)
  | object, _ => object

theorem Container.of?_put (object : Object) (slot : Slot) (value : Object) :
    of? (object.put slot value) = (of? object).map (·.put slot value) := by
  cases object <;> cases slot <;> rfl

/-- Every label finds what it did, or the new value where it found the old one. -/
theorem Container.lookup?_put {container : Container} {slot : Slot} {old : Object}
    (hold : container.at? slot = some old) (new : Object) (label : String) :
    (container.put slot new).lookup? label = container.lookup? label ∨
      container.lookup? label = some old ∧
        (container.put slot new).lookup? label = some new := by
  cases container with
  | dictionary entries =>
    cases slot with
    | index n => cases hold
    | key name =>
      by_cases hlabel : label = name
      · subst hlabel
        exact .inr ⟨hold, Ordered.get?_set_self label new entries⟩
      · exact .inl (Ordered.get?_set_of_ne hlabel new entries)
  | array items =>
    cases slot with
    | key name => cases hold
    | index n =>
      have hlength : n < items.length := (List.getElem?_eq_some_iff.1 hold).1
      simp only [lookup?, put]
      cases Number.readBelow UInt64.size label.toList with
      | none => exact .inl rfl
      | some m =>
        by_cases hm : m = n
        · subst hm
          exact .inr ⟨hold, by simp [hlength]⟩
        · exact .inl (by simp [List.getElem?_set_ne (Ne.symm hm)])

/-! What a direct scalar and a reference to it have in common -/

namespace Store

variable {store : Store} {id : ObjectId} {value : Object}

theorem present_of_scalar (store : Store) (h : (Literal.ofObject? value).isSome) :
    store.present value = some (value, none) := by
  refine present_eq_some_iff.2 ⟨dereference_of_direct store ?_, ?_⟩ <;>
    cases value <;> first | rfl | cases h

theorem present_reference (hresolve : store.resolve id = some value)
    (h : (Literal.ofObject? value).isSome) :
    store.present (.reference id) = some (value, some id) := by
  have hdirect : value.asReference? = none := by cases value <;> first | rfl | cases h
  refine present_eq_some_iff.2 ⟨?_, by cases value <;> first | rfl | cases h⟩
  have hnext : store.dereference (.reference id) =
      (store.resolve id).bind fun object => store.follow 31 object (some id) := rfl
  rw [hnext, hresolve]
  exact store.follow_of_direct 30 (some id) hdirect

end Store

/-- An entry that a row finds in a container, beside what it finds there once another value stands
in one slot. -/
inductive Slot.Moves (known : Object → Prop) (slot : Slot) (old new : Object) :
    String × Option Object → String × Option Object → Prop
  | same {label : String} {value : Option Object} : label ≠ slot.label →
    (∀ object, value = some object → known object) →
    Moves known slot old new (label, value) (label, value)
  | moved : Moves known slot old new (slot.label, some old) (slot.label, some new)

namespace Slot.Moves

variable {known : Object → Prop} {old : Object}

theorem label_eq {slot : Slot} {new : Object} {a b : String × Option Object}
    (h : slot.Moves known old new a b) : a.1 = b.1 := by
  cases h <;> rfl

theorem entries {d : Dictionary} (hsorted : Ordered.Sorted d) (hknown : ∀ e ∈ d, known e.2)
    {name : String} (hget : d.get? name = some old) (new : Object) :
    List.Forall₂ (fun e e' => (key name).Moves known old new (e.1, some e.2) (e'.1, some e'.2))
      d (d.set name new) := by
  induction d with
  | nil => cases hget
  | cons e rest ih =>
    obtain ⟨hlt, hrest⟩ := List.pairwise_cons.1 hsorted
    obtain ⟨own, value⟩ := e
    have hsame (e : String × Object) (he : e ∈ (own, value) :: rest) (hne : e.1 ≠ name) :
        (key name).Moves known old new (e.1, some e.2) (e.1, some e.2) :=
      .same hne fun object hobject => Option.some.inj hobject ▸ hknown e he
    rw [Dictionary.get?, Ordered.get?_cons] at hget
    unfold Dictionary.set Ordered.set
    by_cases hown : own = name
    · subst hown
      rw [if_pos rfl] at hget
      rw [if_pos rfl]
      cases hget
      refine .cons .moved (List.forall₂_same.2 fun e he => ?_)
      exact hsame e (List.mem_cons_of_mem _ he) fun heq =>
        String.lt_irrefl own (heq ▸ hlt e he)
    · rw [if_neg hown] at hget
      have hless : own < name := hlt _ (Ordered.mem_of_get? hget)
      rw [if_neg (Ne.symm hown), if_neg (String.lt_asymm hless)]
      exact .cons (hsame _ List.mem_cons_self hown)
        (ih hrest (fun e he => hknown e (List.mem_cons_of_mem _ he)) hget)

theorem items {items : List Object} (hknown : ∀ item ∈ items, known item) {n : Nat}
    (hget : items[n]? = some old) (new : Object) :
    List.Forall₂ (fun e e' => (index n).Moves known old new
        (Number.showNat e.2, some e.1) (Number.showNat e'.2, some e'.1))
      items.zipIdx (items.set n new).zipIdx := by
  refine List.forall₂_iff_get.2 ⟨by simp, fun m hm hm' => ?_⟩
  have hlength : m < items.length := by simpa using hm
  simp only [List.get_eq_getElem, List.getElem_zipIdx, Nat.zero_add, List.getElem_set]
  by_cases heq : n = m
  · subst heq
    have hvalue : items[n] = old := (List.getElem?_eq_some_iff.1 hget).2
    rw [if_pos rfl, hvalue]
    exact .moved
  · rw [if_neg heq]
    refine .same (fun hlabel => heq ?_) fun object hobject => ?_
    · exact (Number.digits_inj (String.ofList_inj.1 hlabel)).symm
    · exact Option.some.inj hobject ▸ hknown _ (List.getElem_mem hlength)

theorem ofKey {d : Dictionary} (hknown : ∀ e ∈ d, known e.2) {name : String}
    (hget : d.get? name = some old) (new : Object) (own : String) :
    (key name).Moves known old new (own, d.get? own) (own, (d.set name new).get? own) := by
  by_cases hown : own = name
  · subst hown
    have hnew : (d.set own new).get? own = some new := Ordered.get?_set_self own new d
    rw [hget, hnew]
    exact .moved
  · have hkept : (d.set name new).get? own = d.get? own := Ordered.get?_set_of_ne hown new d
    rw [hkept]
    exact .same hown fun object hobject => hknown _ (Ordered.mem_of_get? hobject)

theorem ofIndex {items : List Object} (hknown : ∀ item ∈ items, known item) {n : Nat}
    (hget : items[n]? = some old) (new : Object) (m : Nat) :
    (index n).Moves known old new (Number.showNat m, items[m]?)
      (Number.showNat m, (items.set n new)[m]?) := by
  by_cases hm : m = n
  · subst hm
    have hnew : (items.set m new)[m]? = some new := by simp [(List.getElem?_eq_some_iff.1 hget).1]
    rw [hget, hnew]
    exact .moved
  · rw [List.getElem?_set_ne (Ne.symm hm)]
    refine .same (fun hlabel => hm ?_) fun object hobject => ?_
    · exact Number.digits_inj (String.ofList_inj.1 hlabel)
    · exact hknown _ (List.mem_of_getElem? hobject)

end Slot.Moves

/-- That this entry should be a reference. -/
def Finding.isIndirection (label : String) (f : Finding) : Bool :=
  f.kind = .indirectionViolation && f.key = some label

namespace Scope

@[simp] theorem isIndirection_finding (s : Scope) (label : String) (kind : Finding.Kind)
    (message : String) :
    (s.finding label kind message).isIndirection label = decide (kind = .indirectionViolation) := by
  rw [Finding.isIndirection, finding]
  cases kind <;> simp

/-- A scalar is no container, and leads nowhere. -/
theorem child?_of_scalar {s : Scope} {row : Row} {label : String} {value : Option Object}
    {object : Object} {reference : Option ObjectId}
    (hpresent : value.bind s.store.present = some (object, reference))
    (hscalar : (Literal.ofObject? object).isSome) : s.child? row label value = none := by
  rw [Option.eq_none_iff_forall_ne_some]
  intro child hchild
  have hleads := leadsTo_of_child? hchild
  have hcontainer := hleads.isContainer
  rw [(Prod.mk.inj (Option.some.inj (hleads.present.symm.trans hpresent))).1] at hcontainer
  have hother : object.isContainer = false := by cases object <;> first | rfl | cases hscalar
  rw [hother] at hcontainer
  cases hcontainer

/-- What is found on a reference is found on what it refers to, and one thing more at most. -/
theorem typedFindings_reference (s : Scope) (row : Row) (label : String) (type : Nat)
    (object : Object) (id : ObjectId) :
    s.typedFindings row label type object (some id) =
      (s.typedFindings row label type object none).filter (!Finding.isIndirection label ·) := by
  unfold typedFindings
  rw [List.filter_append]
  congr 1
  · cases row.indirect.eval s.context with
    | false => rfl
    | true => simp
  · cases (Literal.ofObject? object).bind (s.valueMessage? row type) with
    | none => rfl
    | some message => simp

/-- The scope of the same check with a reference for one entry. -/
def redirect (s : Scope) (store : Store) (slot : Slot) (id : ObjectId) : Scope :=
  { s with store, container := s.container.put slot (.reference id) }

/-- The entry is a direct scalar, which the other store holds under this id. -/
structure Redirects (s : Scope) (store' : Store) (known : Object → Prop) (slot : Slot)
    (value : Object) (id : ObjectId) : Prop where
  agrees : s.store.Agrees store' known
  within : s.container.Within known
  sorted {entries : Dictionary} : s.container = .dictionary entries → Ordered.Sorted entries
  entry : s.container.at? slot = some value
  scalar : (Literal.ofObject? value).isSome
  resolve : store'.resolve id = some value

namespace Redirects

variable {s : Scope} {store' : Store} {known : Object → Prop} {slot : Slot} {value : Object}
  {id : ObjectId} (h : s.Redirects store' known slot value id)
include h

theorem present? : (s.redirect store' slot id).present? = s.present? := by
  funext label
  simp only [Scope.present?, redirect]
  rcases Container.lookup?_put h.entry (.reference id) label with hsame | ⟨hold, hnew⟩
  · rw [hsame]
    cases hvalue : s.container.lookup? label with
    | none => rfl
    | some object =>
      rw [Option.bind_some, Option.bind_some, h.agrees.present (h.within.lookup? hvalue)]
  · rw [hold, hnew, Option.bind_some, Option.bind_some,
      Store.present_of_scalar s.store h.scalar, Store.present_reference h.resolve h.scalar]
    rfl

theorem context : (s.redirect store' slot id).context = s.context :=
  context_of_present? rfl rfl h.present?

theorem valueMessage? : (s.redirect store' slot id).valueMessage? = s.valueMessage? :=
  valueMessage?_of_context h.context

theorem typedFindings : (s.redirect store' slot id).typedFindings = s.typedFindings := by
  funext row label type object reference
  unfold Scope.typedFindings
  rw [h.context, h.valueMessage?]
  rfl

omit h in
theorem childPath (path label : String) :
    (s.redirect store' slot id).container.childPath path label =
      s.container.childPath path label := by
  unfold redirect
  cases s.container <;> cases slot <;> rfl

theorem known_value : known value := by
  obtain ⟨store, version, table, container, path⟩ := s
  have hwithin := h.within
  have hentry := h.entry
  cases container with
  | dictionary entries =>
    cases slot with
    | key name => exact hwithin _ (Ordered.mem_of_get? hentry)
    | index n => cases hentry
  | array items =>
    cases slot with
    | key name => cases hentry
    | index n => exact hwithin _ (List.mem_of_getElem? hentry)

/-- A row finds the same entries, but for the one that is a reference now. -/
theorem entries (row : Row) : List.Forall₂ (slot.Moves known value (.reference id))
    (s.entries row) ((s.redirect store' slot id).entries row) := by
  obtain ⟨store, version, table, container, path⟩ := s
  have hwithin := h.within
  have hentry := h.entry
  unfold Scope.entries redirect
  dsimp only
  cases container with
  | dictionary entries =>
    cases slot with
    | index n => cases hentry
    | key name =>
      cases row.key with
      | index n => exact .nil
      | name own => exact .cons (.ofKey hwithin hentry _ own) .nil
      | wildcard =>
        simp only [Container.put, List.forall₂_map_left_iff, List.forall₂_map_right_iff]
        refine List.rel_filter ?_ (Slot.Moves.entries (h.sorted rfl) hwithin hentry _)
        intro e e' hmoves
        have hkey : e.1 = e'.1 := hmoves.label_eq
        simp only [hkey]
  | array items =>
    cases slot with
    | key name => cases hentry
    | index n =>
      cases row.key with
      | name own => exact .nil
      | index m => exact .cons (.ofIndex hwithin hentry _ m) .nil
      | wildcard =>
        simp only [Container.put, List.forall₂_map_left_iff, List.forall₂_map_right_iff]
        refine List.rel_filter ?_ (Slot.Moves.items hwithin hentry _)
        intro e e' hmoves
        have hindex : e.2 = e'.2 := Number.digits_inj (String.ofList_inj.1 hmoves.label_eq)
        simp only [hindex]

/-- What is found on an entry is the same, but that the reference is one. -/
theorem entryFindings (row : Row) {a b : String × Option Object}
    (hmoves : slot.Moves known value (.reference id) a b) :
    (s.redirect store' slot id).entryFindings row b.1 b.2 =
      (s.entryFindings row a.1 a.2).filter (!Finding.isIndirection slot.label ·) := by
  cases hmoves with
  | @same label entry hlabel hknown =>
    have hkept : ∀ f ∈ s.entryFindings row label entry,
        (!Finding.isIndirection slot.label f) = true := by
      intro f hf
      obtain ⟨kind, message, rfl, _⟩ := s.exists_of_mem_entryFindings hf
      simp [Finding.isIndirection, Scope.finding, hlabel]
    rw [List.filter_eq_self.2 hkept]
    unfold Scope.entryFindings
    rw [h.context, h.typedFindings]
    cases entry with
    | none => rfl
    | some object =>
      simp only [redirect, Option.bind_some, h.agrees.present (hknown object rfl)]
      cases hpresent : s.store.present object with
      | none => rfl
      | some found =>
        have hfound := h.agrees.known_of_present (hknown object rfl) hpresent
        simp only [h.agrees.select? hfound]
        rfl
  | moved =>
    have hold : (some value).bind s.store.present = some (value, none) :=
      Store.present_of_scalar s.store h.scalar
    have hnew : (some (Object.reference id)).bind (s.redirect store' slot id).store.present =
        some (value, some id) := Store.present_reference h.resolve h.scalar
    have htype : TypeToken.select? (s.redirect store' slot id).store value row.types =
        TypeToken.select? s.store value row.types := h.agrees.select? h.known_value row.types
    unfold Scope.entryFindings
    rw [hold, hnew]
    dsimp only
    rw [htype, h.typedFindings, List.filter_append]
    congr 1
    · change (if row.isCurrent s.version then []
        else [s.finding slot.label .versionMismatch (s.versionMessage row)]) = _
      cases row.isCurrent s.version <;> simp
    · cases TypeToken.select? s.store value row.types with
      | none =>
        dsimp only
        change [s.finding slot.label .typeMismatch _] = _
        simp
      | some type => exact s.typedFindings_reference row slot.label type value id

/-- A scalar leads nowhere, and everything else where it did. -/
theorem child? (row : Row) {a b : String × Option Object}
    (hmoves : slot.Moves known value (.reference id) a b) :
    (s.redirect store' slot id).child? row b.1 b.2 = s.child? row a.1 a.2 ∧
      ∀ child, s.child? row a.1 a.2 = some child → known child.object := by
  have hknown {entry : Option Object} (hentry : ∀ object, entry = some object → known object)
      (child : Child) (hchild : s.child? row a.1 entry = some child) : known child.object := by
    obtain ⟨object, rfl, hpresent⟩ :=
      Option.bind_eq_some_iff.1 (leadsTo_of_child? hchild).present
    exact h.agrees.known_of_present (hentry object rfl) hpresent
  cases hmoves with
  | @same label entry _ hentry =>
    refine ⟨?_, hknown hentry⟩
    unfold Scope.child?
    rw [childPath]
    cases entry with
    | none => rfl
    | some object =>
      simp only [redirect, Option.bind_some, h.agrees.present (hentry object rfl)]
      cases hpresent : s.store.present object with
      | none => rfl
      | some found =>
        have hfound := h.agrees.known_of_present (hentry object rfl) hpresent
        simp only [Option.bind_eq_bind, Option.bind_some, h.agrees.select? hfound]
  | moved =>
    have hold : s.child? row slot.label (some value) = none :=
      child?_of_scalar (Store.present_of_scalar s.store h.scalar) h.scalar
    have hnew : (s.redirect store' slot id).child? row slot.label (some (.reference id)) = none :=
      child?_of_scalar (Store.present_reference h.resolve h.scalar) h.scalar
    refine ⟨hnew.trans hold.symm, fun child hchild => ?_⟩
    rw [hold] at hchild
    cases hchild

end Redirects

end Scope

namespace Session

/-- The second session is the first one but for what was found before, and found the same since. -/
def Alongside (base base' : List Finding) (s s' : Session) : Prop :=
  ∃ found, s.findings = base ++ found ∧ s' = { s with findings := base' ++ found }

namespace Alongside

variable {fs : Files} {store : Store} {base base' : List Finding} {s s' : Session}

theorem report (h : Alongside base base' s s') (more : List Finding) :
    Alongside base base' (s.report more) (s'.report more) := by
  obtain ⟨found, hfound, rfl⟩ := h
  refine ⟨found ++ more, ?_, ?_⟩
  · rw [Session.report, hfound, List.append_assoc]
  · rw [Session.report, Session.report, List.append_assoc]

theorem table (h : Alongside base base' s s') (link : String) :
    Matches (Alongside base base') (s.table (.still fs store) link)
      (s'.table (.still fs store) link) := by
  obtain ⟨found, hfound, rfl⟩ := h
  refine ⟨rfl, found ++ (s.cache.get fs link).2.2, ?_, ?_⟩
  · simp only [Session.table, Surroundings.still, hfound, List.append_assoc]
  · simp only [Session.table, Surroundings.still, List.append_assoc]

theorem enqueue (h : Alongside base base' s s') (object : Object) (reference : Option ObjectId)
    (link path : String) :
    Alongside base base' (s.enqueue object reference link path)
      (s'.enqueue object reference link path) := by
  obtain ⟨found, hfound, rfl⟩ := h
  refine ⟨found, (findings_enqueue s object reference link path).trans hfound, ?_⟩
  unfold Session.enqueue Session.mark
  dsimp only
  split <;> rfl

theorem simulation (fs : Files) (store : Store) (base base' : List Finding) :
    Simulation (.still fs store) (Alongside base base') where
  version h := by obtain ⟨_, _, rfl⟩ := h; rfl
  queue h := by obtain ⟨_, _, rfl⟩ := h; rfl
  report more h := h.report more
  note _ h := by obtain ⟨found, hfound, rfl⟩ := h; exact ⟨found, hfound, rfl⟩
  table link h := h.table link
  mark _ _ h := by obtain ⟨found, hfound, rfl⟩ := h; exact ⟨rfl, found, hfound, rfl⟩
  enqueue object reference link path h := h.enqueue object reference link path
  enter _ h := by obtain ⟨found, hfound, rfl⟩ := h; exact ⟨found, hfound, rfl⟩
  pop _ h := by obtain ⟨found, hfound, rfl⟩ := h; exact ⟨found, hfound, rfl⟩

end Alongside

/-- Whatever an entry leads to, that it should be a reference is not found there. -/
theorem no_indirection_descend (around : Surroundings) (s : Session) (scope : Scope)
    (label : String) (child : Child) :
    Reports (fun f => f.kind ≠ .indirectionViolation) s (s.descend around scope label child) := by
  have hlooked (f : Finding) (hf : f.kind.OfLookup) : f.kind ≠ .indirectionViolation := by
    rcases hf with hf | hf
    · exact fun hkind => by rw [hkind] at hf; cases hf
    · rw [hf]; exact nofun
  have hchoice (link : String) (f : Finding) (hf : f.OfChoice link) :
      f.kind ≠ .indirectionViolation := by
    cases hf <;> exact nofun
  unfold descend
  cases TreeKind.ofType? child.type with
  | none => exact (tells_follow around s _ _ _ _ _ _).reports hlooked (hchoice _)
  | some kind =>
    refine (tells_walkTree around _ s _ _ _).reports hlooked fun f hf => ?_
    cases hf with
    | choice hf => exact hchoice _ f hf
    | shape path message hkind =>
      rintro rfl
      simp at hkind
    | value => exact nofun

/-- The second session is the first one without the findings since then that an entry should be a
reference. -/
def Relieved (label : String) (base : List Finding) (s s' : Session) : Prop :=
  ∃ found, s.findings = base ++ found ∧
    s' = { s with findings := base ++ found.filter (!Finding.isIndirection label ·) }

namespace Relieved

variable {label : String} {base : List Finding} {s s' : Session}

theorem report (h : Relieved label base s s') (more : List Finding) :
    Relieved label base (s.report more)
      (s'.report (more.filter (!Finding.isIndirection label ·))) := by
  obtain ⟨found, hfound, rfl⟩ := h
  refine ⟨found ++ more, ?_, ?_⟩
  · rw [Session.report, hfound, List.append_assoc]
  · rw [Session.report, Session.report, List.filter_append, List.append_assoc]

theorem descend (h : Relieved label base s s') (fs : Files) (store : Store) (scope : Scope)
    (own : String) (child : Child) :
    Relieved label base (s.descend (.still fs store) scope own child)
      (s'.descend (.still fs store) scope own child) := by
  obtain ⟨found, hfound, hsame⟩ := h
  have hstart : Alongside s.findings s'.findings s s' := by
    refine ⟨[], (List.append_nil _).symm, ?_⟩
    rw [List.append_nil, hsame]
  have hsimulation := Alongside.simulation fs store s.findings s'.findings
  obtain ⟨more, hmore, hnext⟩ := hsimulation.congruent.descend scope own child rfl hstart scope.path
  obtain ⟨_, htold, hkind⟩ := no_indirection_descend (.still fs store) s scope own child
  obtain rfl := List.append_cancel_left (hmore.symm.trans htold)
  have hkept : more.filter (!Finding.isIndirection label ·) = more :=
    List.filter_eq_self.2 fun f hf => by simp [Finding.isIndirection, hkind f hf]
  refine ⟨found ++ more, ?_, ?_⟩
  · rw [hmore, hfound, List.append_assoc]
  · rw [hnext, hsame, List.filter_append, hkept, List.append_assoc]

section Redirects

variable {fs : Files} {scope : Scope} {store' : Store} {known : Object → Prop} {slot : Slot}
  {value : Object} {id : ObjectId} (hscope : scope.Redirects store' known slot value id)
include hscope

theorem checkEntry (h : Relieved slot.label base s s') (row : Row) {a b : String × Option Object}
    (hmoves : slot.Moves known value (.reference id) a b) :
    Relieved slot.label base (Session.checkEntry (.still fs scope.store) scope row s a)
      (Session.checkEntry (.still fs store') (scope.redirect store' slot id) row s' b) := by
  obtain ⟨hchild, hknown⟩ := hscope.child? row hmoves
  have hreport := h.report (scope.entryFindings row a.1 a.2)
  unfold Session.checkEntry
  rw [hscope.entryFindings row hmoves, hchild]
  cases hfound : scope.child? row a.1 a.2 with
  | none => exact hreport
  | some child =>
    have hagrees : (Surroundings.still fs scope.store).store.Agrees store' known := hscope.agrees
    have hdescend := hreport.descend fs scope.store scope a.1 child
    rw [← descend_within hagrees (s'.report _) scope a.1 (hknown child hfound)] at hdescend
    rw [← hmoves.label_eq]
    exact hdescend

theorem checkRow (h : Relieved slot.label base s s') (row : Row) :
    Relieved slot.label base (Session.checkRow (.still fs scope.store) scope s row)
      (Session.checkRow (.still fs store') (scope.redirect store' slot id) s' row) := by
  unfold Session.checkRow
  refine List.rel_foldl (P := Relieved slot.label base) ?_ h (hscope.entries row)
  intro s s' h a b hmoves
  exact checkEntry hscope h row hmoves

end Redirects

end Relieved

/-- A scalar may be a direct entry, or an object of its own under an id that nothing mentions: the
check of its container goes on to the same work and finds the same, but that a direct entry should
be a reference. -/
theorem checkObject_of_reference (fs : Files) (store : Store) (s : Session) (item : WorkItem)
    (identity : Identity) (table : Table) {slot : Slot} {value : Object} {id : ObjectId}
    (hsorted : ∀ d, item.object.entries? = some d → Ordered.Sorted d)
    (hvalue : item.object.at? slot = some value) (hscalar : (Literal.ofObject? value).isSome)
    (hitem : ¬item.object.Mentions id) (hstore : ¬store.Mentions id) :
    let direct := s.checkObject (.still fs store) item table
    let indirect := s.checkObject (.still fs (store.insert id value))
      { item with object := item.object.put slot (.reference id), identity } table
    ∃ found, direct.findings = s.findings ++ found ∧
      indirect = { direct with
        findings := s.findings ++ found.filter (!Finding.isIndirection slot.label ·) } := by
  intro direct indirect
  obtain ⟨container, hcontainer, hentry⟩ := Option.bind_eq_some_iff.1 hvalue
  have hagrees := Store.agrees_insert hstore value
  let scope : Scope := ⟨store, s.version, table, container, item.path⟩
  have hscope : scope.Redirects (store.insert id value) (¬·.Mentions id) slot value id := {
    agrees := hagrees
    within := hagrees.within hitem hcontainer
    sorted := by
      rintro entries rfl
      refine hsorted entries ?_
      cases hobject : item.object <;> rw [hobject] at hcontainer <;> cases hcontainer <;> rfl
    entry := hentry
    scalar := hscalar
    resolve := store.resolve_insert_self id value }
  have hdirect : direct = table.rows.foldl (checkRow (.still fs store) scope) s := by
    simp only [direct, checkObject, hcontainer]
    rfl
  have hindirect : indirect = table.rows.foldl (checkRow (.still fs (store.insert id value))
      (scope.redirect (store.insert id value) slot id)) s := by
    simp only [indirect, checkObject, Container.of?_put, hcontainer]
    rfl
  rw [hdirect, hindirect]
  have hstart : Relieved slot.label s.findings s s :=
    ⟨[], (List.append_nil _).symm, by rw [List.filter_nil, List.append_nil]⟩
  exact List.foldl_rel hstart fun row _ _ _ h => Relieved.checkRow hscope h row

end Session

/-! A table with a row that asks for a reference, and one that compares with the entry under it. -/
namespace Counted

def row (line : Nat) (key : String) (indirect : Bool) (items : List ValueItem) : Row where
  line
  key := .name key
  types := [.known .integer]
  since := none
  deprecated := none
  required := .const true
  indirect := .const indirect
  requiredValue := none
  defaultText := ""
  possible := [⟨items⟩]
  special := none
  links := [[]]

def table : Table where
  link := "Pages"
  source := "Pages.tsv"
  header := Row.columns
  rows := [row 2 "Count" true [], row 3 "First" false [.compare .less (.sibling "Count")]]
  defects := []

def item : WorkItem where
  object := .dictionary [("Count", .integer 3), ("First", .integer 7)]
  identity := .indirect ⟨1, 0⟩
  link := "Pages"
  path := "Trailer"
  seeded := true

def store : Store := ⟨none, [], [(⟨1, 0⟩, item.object)]⟩

def session : Session := .start store (.ofFolder (.of "grammar")) none none

def direct : Session := session.checkObject (.still .empty store) item table

def indirect : Session :=
  session.checkObject (.still .empty (store.insert ⟨2, 0⟩ (.integer 3)))
    { item with object := item.object.put (.key "Count") (.reference ⟨2, 0⟩) } table

theorem not_mentions (id : ObjectId) : ¬item.object.Mentions id := by
  simp [Object.Mentions, item, Object.parts, Object.partsOfEntries]

end Counted

/-- The value that is out of its range is found in both, the direct entry only where it is one. -/
theorem Session.checkObject_of_reference_counted :
    (∃ found, Counted.direct.findings = found ∧
      Counted.indirect.findings = found.filter (!Finding.isIndirection "Count" ·)) ∧
    Counted.direct.queue = Counted.indirect.queue ∧
    Counted.direct.findings.map (·.kind) = [.indirectionViolation, .possibleValueViolation] ∧
    Counted.indirect.findings.map (·.kind) = [.possibleValueViolation] := by
  have hsorted (d : Dictionary) (hd : Counted.item.object.entries? = some d) :
      Ordered.Sorted d := by
    cases hd
    exact List.pairwise_pair.2 (by decide)
  have hstore : ¬Counted.store.Mentions ⟨2, 0⟩ := by
    rintro ⟨entry, hentry, hmentions⟩
    rw [List.mem_singleton.1 hentry] at hmentions
    exact Counted.not_mentions _ hmentions
  obtain ⟨found, hdirect, hindirect⟩ := checkObject_of_reference .empty Counted.store
    Counted.session Counted.item Counted.item.identity Counted.table hsorted
    (rfl : Counted.item.object.at? (.key "Count") = some (.integer 3)) rfl
    (Counted.not_mentions _) hstore
  refine ⟨⟨found, hdirect, ?_⟩, ?_, by decide +kernel, by decide +kernel⟩
  · exact congrArg Session.findings hindirect
  · exact (congrArg Session.queue hindirect).symm

end PdfConform
