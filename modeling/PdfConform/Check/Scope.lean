import PdfConform.Schema.Table

/-! A container beside the table it is checked against, and what each row finds in
it. Nothing here depends on what was checked before. -/
namespace PdfConform

/-- The entries of a dictionary, of a stream's dictionary or of an array. -/
inductive Container
  | dictionary (entries : Dictionary)
  | array (items : List Object)

namespace Container

def of? : Object → Option Container
  | .array items => some (.array items)
  | object => object.entries?.map .dictionary

def lookup? (label : String) : Container → Option Object
  | .dictionary entries => entries.get? label
  | .array items => (Number.readBelow UInt64.size label.toList).bind (items[·]?)

def childPath (path label : String) : Container → String
  | .dictionary _ => path ++ "/" ++ label
  | .array _ => path ++ "[" ++ label ++ "]"

end Container

structure Scope where
  store : Store
  version : Version
  table : Table
  container : Container
  path : String

/-- A container that a row leads to, with the links the row has for its type. -/
structure Child where
  object : Object
  reference : Option ObjectId
  type : ValueType
  links : List String
  path : String

namespace Scope

def present? (s : Scope) (label : String) : Option Object :=
  ((s.container.lookup? label).bind s.store.present).map (·.1)

/-- An absent sibling has the default of its row; a container has no scalar value. -/
def sibling? (s : Scope) (key : String) : Option Literal :=
  match s.present? key with
  | some object => Literal.ofObject? object
  | none => (s.table.rowFor? key).bind Row.default?

def context (s : Scope) : Context where
  version := s.version
  isPresent key := (s.present? key).isSome
  sibling := s.sibling?

/-- The labels that a row speaks of, each with its value. Named keys say nothing
about arrays and indices nothing about dictionaries. -/
def entries (s : Scope) (row : Row) : List (String × Option Object) :=
  match row.key, s.container with
  | .name key, .dictionary entries => [(key, entries.get? key)]
  | .index n, .array items => [(Number.showNat n, items[n]?)]
  | .wildcard, .dictionary entries =>
    (entries.filter fun e => !s.table.namesKey e.1).map fun (key, value) => (key, some value)
  | .wildcard, .array items =>
    (items.zipIdx.filter fun e => !s.table.namesIndex e.2).map fun (value, n) =>
      (Number.showNat n, some value)
  | _, _ => []

def finding (s : Scope) (label : String) (kind : Finding.Kind) (message : String) : Finding :=
  ⟨kind, s.table.link, some label, s.path, message⟩

def versionMessage (s : Scope) (row : Row) : String :=
  let late := match row.since with
    | some since => if s.version < since then some since else none
    | none => none
  match late, row.deprecated with
  | some since, _ => "introduced in PDF " ++ since.text ++ ", validating PDF " ++ s.version.text
  | none, some deprecated =>
    "deprecated in PDF " ++ deprecated.text ++ ", validating PDF " ++ s.version.text
  | none, none => "not defined in PDF " ++ s.version.text

/-- What is wrong with a scalar under its row: at most one finding, the required
value coming before the possible ones. -/
def valueMessage? (s : Scope) (row : Row) (type : Nat) (value : Literal) : Option String :=
  let misses := match row.requiredValue with
    | some required => if required.agrees value then none else some required
    | none => none
  match misses, row.possibleFor? type with
  | some required, _ => some ("value " ++ value.shown ++ " must be " ++ required.shown)
  | none, some possible =>
    if possible.allows s.context value then none
    else some ("value " ++ value.shown ++ " is not one of " ++ possible.text)
  | none, none => none

def typedFindings (s : Scope) (row : Row) (label : String) (type : Nat) (object : Object)
    (reference : Option ObjectId) : List Finding :=
  (if reference.isNone && row.indirect.eval s.context then
    [s.finding label .indirectionViolation "must be an indirect reference"] else []) ++
  match (Literal.ofObject? object).bind (s.valueMessage? row type) with
  | some message => [s.finding label .possibleValueViolation message]
  | none => []

/-- The findings on one entry under one row. A reference to nothing is as good as
no entry. -/
def entryFindings (s : Scope) (row : Row) (label : String) (value : Option Object) :
    List Finding :=
  match value.bind s.store.present with
  | none =>
    if row.isRequired s.context then
      [s.finding label .missingRequiredKey ("required " ++ row.typeList ++ " is missing")]
    else []
  | some (object, reference) =>
    (if row.isCurrent s.version then []
      else [s.finding label .versionMismatch (s.versionMessage row)]) ++
    match TypeToken.select? s.store object row.types with
    | none =>
      [s.finding label .typeMismatch ("expected " ++ row.typeList ++ ", found " ++ object.kind)]
    | some type => s.typedFindings row label type object reference

def child? (s : Scope) (row : Row) (label : String) (value : Option Object) : Option Child := do
  let (object, reference) ← value.bind s.store.present
  let index ← TypeToken.select? s.store object row.types
  let type ← row.types[index]?.bind TypeToken.known?
  let links := row.linksFor index
  guard (!links.isEmpty && object.isContainer)
  return ⟨object, reference, type, links, s.container.childPath s.path label⟩

end Scope

end PdfConform
