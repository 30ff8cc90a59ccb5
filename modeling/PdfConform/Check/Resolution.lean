import PdfConform.Check.Scope
import PdfConform.Schema.Cache

/-! Choosing one of several links for a container by the keys that tell structures
apart. -/
namespace PdfConform

/-- What a check reads. The store never changes; files may while findings are reported,
since a report can be written among them. -/
structure Surroundings where
  /-- The files as they are once these findings have been reported. -/
  filesAfter : List Finding → Files
  store : Store

def Surroundings.still (files : Files) (store : Store) : Surroundings := ⟨fun _ => files, store⟩

/-- `chosen` is the first of those that fit equally well. -/
inductive Resolution
  | resolved (link : String)
  | ambiguous (chosen : String) (matching : List String)
  | unresolved
  deriving DecidableEq

/-- Weak: nothing speaks against the table. Strong: a discriminator is there and satisfied. -/
inductive Fit
  | none
  | weak
  | strong
  deriving DecidableEq

/-- Keys that say what a dictionary is. -/
def discriminatorKeys : List String :=
  ["Type", "Subtype", "S", "FT", "ShadingType", "PatternType", "FunctionType"]

/-- A row whose value must be a certain one, or a key that says what the dictionary
is and may take some values only. -/
def Row.isDiscriminator (r : Row) : Bool :=
  match r.key with
  | .wildcard => false
  | .name key => r.requiredValue.isSome ||
    (discriminatorKeys.contains key && r.possible.any fun p => !p.isUnconstrained)
  | .index _ => r.requiredValue.isSome

namespace Scope

/-- Arrays fit tables without named keys, dictionaries tables that are not for arrays. -/
def shapeFits (s : Scope) : Bool :=
  match s.container with
  | .array _ => !s.table.hasNamedKeys
  | .dictionary _ => !s.table.isArrayTable

/-- What one discriminator says. A container under it says nothing. -/
def rowFit (s : Scope) (row : Row) : Fit :=
  match s.present? row.key.text with
  | none => if row.isRequired s.context then .none else .weak
  | some object =>
    match TypeToken.select? s.store object row.types with
    | none => .none
    | some type =>
      match Literal.ofObject? object with
      | none => .weak
      | some value =>
        if row.requiredValue.all (·.agrees value) &&
            (row.possibleFor? type).all (·.allows s.context value) then .strong
        else .none

/-- One contradiction is enough against a table, one confirmation for it. -/
def fit (s : Scope) : Fit :=
  if !s.shapeFits then .none else
  let fits := (s.table.rows.filter Row.isDiscriminator).map s.rowFit
  if fits.contains .none then .none
  else if fits.contains .strong then .strong
  else .weak

end Scope

namespace Resolution

def fitOf (store : Store) (version : Version) (object : Object) (table : Table) : Fit :=
  match Container.of? object with
  | none => .none
  | some container => Scope.fit ⟨store, version, table, container, ""⟩

/-- Look up a candidate's table after the findings in `before`; what a first lookup
finds, and that there is no table, is reported. -/
def candidate (s : Surroundings) (path : String) (before : List Finding) (cache : Cache)
    (link : String) : Option Table × Cache × List Finding :=
  match cache.get (s.filesAfter before) link with
  | (.ok table, cache, found) => (some table, cache, found)
  | (.error unavailable, cache, found) =>
    (none, cache, found ++ [⟨.schemaMissing, link, none, path,
      "cannot load candidate grammar: " ++ unavailable.message⟩])

/-- The fit of every candidate whose grammar loads, in order; the others are reported. -/
def fits (s : Surroundings) (version : Version) (object : Object) (path : String) :
    List Finding → Cache → List String → List (String × Fit) × Cache × List Finding
  | _, cache, [] => ([], cache, [])
  | before, cache, link :: links =>
    let (table, cache, found) := candidate s path before cache link
    let (fitting, cache, more) := fits s version object path (before ++ found) cache links
    let fitting := match table with
      | some table => (link, fitOf s.store version object table) :: fitting
      | none => fitting
    (fitting, cache, found ++ more)

/-- A run of equal links becomes one. -/
def collapse : List String → List String
  | a :: b :: rest => if a = b then collapse (b :: rest) else a :: collapse (b :: rest)
  | links => links

theorem mem_collapse {link : String} {links : List String} :
    link ∈ collapse links ↔ link ∈ links := by
  fun_induction collapse links with
  | case1 b rest ih => simp_all
  | case2 a b rest h ih => simp_all
  | case3 links _ => rfl

theorem head?_collapse (links : List String) : (collapse links).head? = links.head? := by
  fun_induction collapse links with
  | case1 b rest ih => simpa using ih
  | case2 a b rest h ih => rfl
  | case3 links _ => rfl

def withFit (fit : Fit) (fitting : List (String × Fit)) : List String :=
  (fitting.filter fun c => c.2 = fit).map (·.1)

def ofFits (fitting : List (String × Fit)) : Resolution :=
  let strong := withFit .strong fitting
  match collapse (if strong.isEmpty then withFit .weak fitting else strong) with
  | [] => .unresolved
  | [link] => .resolved link
  | link :: more => .ambiguous link (link :: more)

/-- Choose among candidates for an object that is no reference, after the findings in
`before`. -/
def resolve (s : Surroundings) (version : Version) (object : Object) (path : String)
    (before : List Finding) (cache : Cache) (candidates : List String) :
    Resolution × Cache × List Finding :=
  let (fitting, cache, found) := fits s version object path before cache candidates
  (ofFits fitting, cache, found)

end Resolution

end PdfConform
