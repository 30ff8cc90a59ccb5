import PdfConform.Expression.PossibleValues
import PdfConform.Expression.Predicate
import PdfConform.Schema.KeyPattern
import PdfConform.Schema.ValueType

/-! One line of a grammar file. The type, possible-value and link columns run in
parallel: each type has its own list of values and its own set of links. -/
namespace PdfConform

/-- `line` counts from 1 and includes blank lines. -/
structure Row where
  line : Nat
  key : KeyPattern
  types : List TypeToken
  since : Option Version
  deprecated : Option Version
  required : Predicate
  indirect : Predicate
  requiredValue : Option Literal
  defaultText : String
  possible : List PossibleValues
  special : Option String
  links : List (List String)
  deriving DecidableEq

namespace Row

/-- The names of the columns, in the order in which they must stand. -/
def columns : List String := [
  "Key", "TYPE", "SinceVersion", "DeprecatedIn", "REQUIRED", "INDIRECTREFERENCE", "RequiredValue",
  "DefaultValue", "PossibleValues", "SpecialCase", "Link"]

inductive Fault
  | tooFewColumns (found : Nat)
  | noType
  | version (fault : Version.Fault)
  | deprecatedBeforeSince (deprecated since : Version)
  | expression (error : Expression.Error)
  | requiredValue (text : String)
  | segments (column : String) (found types : Nat)
  | unbalancedLinks (segment : String)
  | linkName (name : String)
  deriving DecidableEq

def tooFewColumns (found : Nat) : String :=
  "expected " ++ Number.showNat columns.length ++ " columns, found " ++ Number.showNat found

def Fault.message : Fault → String
  | .tooFewColumns found => Row.tooFewColumns found
  | .noType => "no type declared"
  | .version fault => fault.message
  | .deprecatedBeforeSince deprecated since =>
    "deprecated in " ++ deprecated.text ++ " before introduction in " ++ since.text
  | .expression error => error.message
  | .requiredValue text => "invalid required value '" ++ text ++ "'"
  | .segments column found types =>
    Number.showNat found ++ " " ++ column ++ " segments for " ++ Number.showNat types ++ " types"
  | .unbalancedLinks segment => "unbalanced link set '" ++ segment ++ "'"
  | .linkName name => "invalid link name '" ++ name ++ "'"

/-- Depth of brackets and parentheses after a character outside quotes. -/
def depthAfter (depth : Int) (c : Char) : Int :=
  if c = '[' || c = '(' then depth + 1 else if c = ']' || c = ')' then depth - 1 else depth

/-- The pieces between semicolons that stand at depth 0 outside quotes. -/
def segments (depth : Int) (quoted : Bool) : List Char → List (List Char)
  | [] => [[]]
  | c :: rest =>
    if c = ';' && depth = 0 && !quoted then [] :: segments depth quoted rest
    else if c = '\'' then (segments depth (!quoted) rest).modifyHead (c :: ·)
    else (segments (if quoted then depth else depthAfter depth c) quoted rest).modifyHead (c :: ·)

/-- A column with one segment for each type; an empty column has only empty segments. -/
def splitAligned (column : String) (types : Nat) (field : String) : Except Fault (List String) :=
  if field.isEmpty then .ok (List.replicate types "")
  else
    let found := segments 0 false field.toList
    if found.length = types then .ok (found.map String.ofList)
    else .error (.segments column found.length types)

theorem segments_ne_nil (depth : Int) (quoted : Bool) (cs : List Char) :
    segments depth quoted cs ≠ [] := by
  fun_induction segments depth quoted cs <;> simp_all

/-- There is one segment for each type. -/
theorem length_of_splitAligned {column field : String} {types : Nat} {found : List String}
    (h : splitAligned column types field = .ok found) : found.length = types := by
  unfold splitAligned at h
  split at h
  · cases h; exact List.length_replicate
  · dsimp only at h
    split at h
    · next hl => cases h; simpa using hl
    · cases h

def isLinkChar (c : Char) : Bool := c.isAlphanum || c == '_' || c == '-'

def linkName (cs : List Char) : Except Fault String :=
  if cs.all isLinkChar then .ok (String.ofList cs) else .error (.linkName (String.ofList cs))

/-- Names separated by commas, perhaps in brackets; empty names are skipped. -/
def parseLinks (segment : String) : Except Fault (List String) := do
  let cs := Text.trim segment.toList
  let inner ← match cs with
    | '[' :: _ => match Text.between '[' ']' cs with
      | some inner => .ok inner
      | none => .error (.unbalancedLinks segment)
    | cs => .ok cs
  (((inner.splitOn ',').map Text.trim).filter fun name => !name.isEmpty).mapM linkName

def parseRequiredValue (field : String) : Except Fault (Option Literal) :=
  if field.isEmpty then .ok none
  else match Literal.parse field with
    | some value => .ok (some value)
    | none => .error (.requiredValue field)

/-- A version of deprecation must come after the version of introduction. -/
def checkVersions (since deprecated : Option Version) : Except Fault Unit :=
  match since, deprecated with
  | some s, some d => if d ≤ s then .error (.deprecatedBeforeSince d s) else .ok ()
  | _, _ => .ok ()

/-- The row in the columns of a line, blanks around each ignored. Of several
faults the leftmost column's is given, a wrong pair of versions counting with
the later of the two; columns beyond the last are ignored. -/
def ofFields (line : Nat) (fields : List String) : Except Fault Row := do
  match fields.map Text.trimmed with
  | key :: type :: since :: deprecated :: required :: indirect :: requiredValue :: default ::
      possible :: special :: link :: _ =>
    let types := TypeToken.parseColumn type
    if types.isEmpty then throw .noType
    let since ← (Version.parseOptional since).mapError .version
    let deprecated ← (Version.parseOptional deprecated).mapError .version
    checkVersions since deprecated
    let required ← (Predicate.parse required).mapError .expression
    let indirect ← (Predicate.parse indirect).mapError .expression
    let requiredValue ← parseRequiredValue requiredValue
    let possible ← (← splitAligned "possible value" types.length possible).mapM fun segment =>
      (PossibleValues.parse segment).mapError .expression
    let links ← (← splitAligned "link" types.length link).mapM parseLinks
    return {
      line, key := .parse key, types, since, deprecated, required, indirect, requiredValue
      defaultText := default, possible
      special := if special.isEmpty then none else some special
      links }
  | fields => .error (.tooFewColumns fields.length)

def default? (r : Row) : Option Literal := Literal.parse r.defaultText

/-- A key is never required before the version that introduced it. -/
def isRequired (r : Row) (c : Context) : Bool :=
  r.since.all (· ≤ c.version) && r.required.eval c

def isCurrent (r : Row) (v : Version) : Bool := v.isWithin r.since r.deprecated

def linksFor (r : Row) (type : Nat) : List String := r.links[type]?.getD []

def possibleFor? (r : Row) (type : Nat) : Option PossibleValues := r.possible[type]?

def typeList (r : Row) : String := String.intercalate ";" (r.types.map TypeToken.text)

end Row

end PdfConform
