import PdfConform.Proofs.Check.RunStep

/-! What a container has to be like to conform to a table, said without the order in which
rows and entries are looked at; and that entries on which nothing is found are like that. -/
namespace PdfConform

inductive Slot
  | key (key : String)
  | index (n : Nat)

def Slot.label : Slot → String
  | .key name => name
  | .index n => Number.showNat n

def Container.at? : Container → Slot → Option Object
  | .dictionary entries, .key key => entries.get? key
  | .array items, .index n => items[n]?
  | _, _ => none

def Row.Names (row : Row) : Slot → Prop
  | .key key => row.key = .name key
  | .index n => row.key = .index n

/-- Every row that names a slot covers it. Where none does, every wildcard row does. -/
def Table.Covers (t : Table) (row : Row) (slot : Slot) : Prop :=
  row ∈ t.rows ∧ (row.Names slot ∨ row.key = .wildcard ∧ ∀ other ∈ t.rows, ¬other.Names slot)

theorem Row.WellFormed.exists_possibleFor? {row : Row} (h : row.WellFormed) {store : Store}
    {object : Object} {index : Nat}
    (hindex : TypeToken.select? store object row.types = some index) :
    ∃ possible, row.possibleFor? index = some possible := by
  obtain ⟨hlt, _⟩ := List.findIdx?_eq_some_iff_getElem.1 hindex
  rw [← h.possible] at hlt
  exact ⟨row.possible[index], List.getElem?_eq_getElem hlt⟩

namespace Scope

/-- What a row asks of a value whose first type in the row is at `index`. -/
structure Fits (s : Scope) (row : Row) (object : Object) (reference : Option ObjectId)
    (index : Nat) : Prop where
  first : TypeToken.select? s.store object row.types = some index
  current : row.isCurrent s.version = true
  indirect : row.indirect.eval s.context = true → reference.isSome = true
  required (literal required : Literal) :
    Literal.ofObject? object = some literal → row.requiredValue = some required →
    required.agrees literal = true
  possible (literal : Literal) : Literal.ofObject? object = some literal →
    ∃ possible, row.possibleFor? index = some possible ∧
      possible.allows s.context literal = true

/-- A container under a type with links was checked against one of them. Trees have walks of
their own. -/
def Followed (row : Row) (object : Object) (reference : Option ObjectId) (index : Nat)
    (checked : List (Identity × String)) : Prop :=
  ∀ type, row.types[index]? = some (.known type) → type.isTree = false →
    row.linksFor index ≠ [] → object.isContainer = true →
    ∃ link ∈ row.linksFor index, (Identity.of object reference, link) ∈ checked

structure Conforms (s : Scope) (checked : List (Identity × String)) : Prop where
  /-- Nothing that a key requires is missing, null or a reference to nothing. -/
  keys {entries : Dictionary} {row : Row} {key : String} :
    s.container = .dictionary entries → row ∈ s.table.rows → row.key = .name key →
    (entries.get? key).bind s.store.present = none → row.isRequired s.context = false
  indices {items : List Object} {row : Row} {n : Nat} :
    s.container = .array items → row ∈ s.table.rows → row.key = .index n →
    items[n]?.bind s.store.present = none → row.isRequired s.context = false
  entries {slot : Slot} {value object : Object} {reference : Option ObjectId} {row : Row} :
    s.container.at? slot = some value → s.store.present value = some (object, reference) →
    s.table.Covers row slot →
    ∃ index, s.Fits row object reference index ∧ Followed row object reference index checked

variable {s : Scope} {row : Row}

theorem not_required_of_entryFindings {label : String} {value : Option Object}
    (hfindings : s.entryFindings row label value = [])
    (habsent : value.bind s.store.present = none) : row.isRequired s.context = false := by
  simp only [entryFindings, habsent] at hfindings
  split at hfindings
  · cases hfindings
  · next hrequired => simpa using hrequired

theorem agrees_of_valueMessage? {index : Nat} {literal required : Literal}
    (h : s.valueMessage? row index literal = none) (hrequired : row.requiredValue = some required) :
    required.agrees literal = true := by
  by_contra hdiffers
  simp [valueMessage?, hrequired, hdiffers] at h

theorem allows_of_valueMessage? {index : Nat} {literal : Literal} {possible : PossibleValues}
    (h : s.valueMessage? row index literal = none)
    (hpossible : row.possibleFor? index = some possible) :
    possible.allows s.context literal = true := by
  simp only [valueMessage?, hpossible] at h
  split at h
  · cases h
  · next heq =>
    cases heq
    by_contra hdenied
    simp [hdenied] at h
  · next heq => cases heq

theorem valueMessage?_eq_none {index : Nat} {value : Literal}
    (hrequired : row.requiredValue.all (·.agrees value) = true)
    (hpossible : (row.possibleFor? index).all (·.allows s.context value) = true) :
    s.valueMessage? row index value = none := by
  unfold valueMessage?
  cases hneeded : row.requiredValue <;> cases hlisted : row.possibleFor? index <;> simp_all

theorem valueMessage?_eq_none_iff {index : Nat} {value : Literal} :
    s.valueMessage? row index value = none ↔
      row.requiredValue.all (·.agrees value) = true ∧
        (row.possibleFor? index).all (·.allows s.context value) = true := by
  constructor
  · intro h
    constructor
    · rw [Option.all_eq_true]
      exact fun required hrequired => agrees_of_valueMessage? h hrequired
    · rw [Option.all_eq_true]
      exact fun possible hpossible => allows_of_valueMessage? h hpossible
  · exact fun ⟨hrequired, hpossible⟩ => valueMessage?_eq_none hrequired hpossible

/-- A scalar of one of the row's types is turned down for its value exactly if it is not the
required value or none of the possible ones. -/
theorem no_violation_iff {label : String} {value : Option Object} {object : Object}
    {reference : Option ObjectId} {index : Nat} {literal : Literal}
    (hpresent : value.bind s.store.present = some (object, reference))
    (hindex : TypeToken.select? s.store object row.types = some index)
    (hliteral : Literal.ofObject? object = some literal) :
    (∀ f ∈ s.entryFindings row label value, f.kind ≠ .possibleValueViolation) ↔
      row.requiredValue.all (·.agrees literal) = true ∧
        (row.possibleFor? index).all (·.allows s.context literal) = true := by
  rw [← valueMessage?_eq_none_iff]
  simp only [entryFindings, hpresent, hindex, typedFindings, hliteral, Option.bind_some]
  cases hmessage : s.valueMessage? row index literal with
  | none =>
    refine iff_of_true ?_ rfl
    intro f hf hviolation
    rw [List.append_nil] at hf
    rcases List.mem_append.1 hf with hversion | hindirect
    · split at hversion
      · cases hversion
      · rw [List.mem_singleton.1 hversion] at hviolation
        cases hviolation
    · split at hindirect
      · rw [List.mem_singleton.1 hindirect] at hviolation
        cases hviolation
      · cases hindirect
  | some message =>
    refine iff_of_false ?_ (Option.some_ne_none message)
    intro h
    have hmem : s.finding label .possibleValueViolation message ∈
        [s.finding label .possibleValueViolation message] := List.mem_singleton_self _
    exact h _ (List.mem_append_right _ (List.mem_append_right _ hmem)) rfl

theorem fits_of_entryFindings (hrow : row.WellFormed) {label : String} {value : Option Object}
    {object : Object} {reference : Option ObjectId}
    (hfindings : s.entryFindings row label value = [])
    (hpresent : value.bind s.store.present = some (object, reference)) :
    ∃ index, s.Fits row object reference index := by
  simp only [entryFindings, hpresent, List.append_eq_nil_iff] at hfindings
  obtain ⟨hcurrent, htyped⟩ := hfindings
  split at htyped
  · cases htyped
  · next index hindex =>
    simp only [typedFindings, List.append_eq_nil_iff] at htyped
    obtain ⟨hindirect, hvalue⟩ := htyped
    have hmessage : ∀ literal, Literal.ofObject? object = some literal →
        s.valueMessage? row index literal = none := by
      intro literal hliteral
      rw [hliteral, Option.bind_some] at hvalue
      split at hvalue
      · cases hvalue
      · next hnone => exact hnone
    obtain ⟨possible, hpossible⟩ := hrow.exists_possibleFor? hindex
    refine ⟨index, hindex, ?_, ?_, ?_, ?_⟩
    · by_contra hold
      simp [hold] at hcurrent
    · intro heval
      cases reference with
      | some id => rfl
      | none => simp [heval] at hindirect
    · intro literal required hliteral hrequired
      exact agrees_of_valueMessage? (hmessage literal hliteral) hrequired
    · intro literal hliteral
      exact ⟨possible, hpossible, allows_of_valueMessage? (hmessage literal hliteral) hpossible⟩

theorem namesKey_eq_false {t : Table} {key : String}
    (h : ∀ other ∈ t.rows, ¬other.Names (.key key)) : t.namesKey key = false := by
  simpa [Table.namesKey, Table.row?, Row.Names] using h

theorem namesIndex_eq_false {t : Table} {n : Nat}
    (h : ∀ other ∈ t.rows, ¬other.Names (.index n)) : t.namesIndex n = false := by
  simpa [Table.namesIndex, Row.Names] using h

/-- Every row that covers a slot looks at what the slot holds. -/
theorem mem_entries_of_covers {slot : Slot} {value : Object}
    (hvalue : s.container.at? slot = some value) (hcovers : s.table.Covers row slot) :
    (slot.label, some value) ∈ s.entries row := by
  obtain ⟨_, hrow⟩ := hcovers
  cases hcontainer : s.container with
  | dictionary entries =>
    cases slot with
    | index n => simp [Container.at?, hcontainer] at hvalue
    | key key =>
      rw [hcontainer] at hvalue
      rcases hrow with hkey | ⟨hwildcard, hnone⟩
      · have hkey : row.key = .name key := hkey
        simpa [Scope.entries, Container.at?, hkey, hcontainer, Slot.label] using hvalue.symm
      · have hmem : (key, value) ∈ entries := Ordered.mem_of_get? hvalue
        simp only [Scope.entries, hwildcard, hcontainer, List.mem_map, List.mem_filter]
        exact ⟨(key, value), ⟨hmem, by simp [namesKey_eq_false hnone]⟩, rfl⟩
  | array items =>
    cases slot with
    | key key => simp [Container.at?, hcontainer] at hvalue
    | index n =>
      rw [hcontainer] at hvalue
      rcases hrow with hkey | ⟨hwildcard, hnone⟩
      · have hkey : row.key = .index n := hkey
        simpa [Scope.entries, Container.at?, hkey, hcontainer, Slot.label] using hvalue.symm
      · have hmem : (value, n) ∈ items.zipIdx := by
          simpa [List.mem_zipIdx_iff_getElem?, Container.at?] using hvalue
        simp only [Scope.entries, hwildcard, hcontainer, List.mem_map, List.mem_filter]
        exact ⟨(value, n), ⟨hmem, by simp [namesIndex_eq_false hnone]⟩, rfl⟩

end Scope

end PdfConform
