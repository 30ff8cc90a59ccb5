import PdfConform.Json.Writer
import PdfConform.Json.Reader

/-! What a check reports, and the three lines that a report can hold for it. -/
namespace PdfConform

/-- The first two are defects of a grammar, the others departures of a document from one. -/
inductive Finding.Kind
  | malformedHeader
  | structuralError
  | schemaMissing
  | missingRequiredKey
  | typeMismatch
  | indirectionViolation
  | possibleValueViolation
  | unresolvedLink
  | ambiguousLink
  | mixedContainerNode
  | limitsViolation
  | malformedContainer
  | versionMismatch
  deriving DecidableEq

namespace Finding.Kind

def text : Kind → String
  | .malformedHeader => "MalformedHeader"
  | .structuralError => "StructuralError"
  | .schemaMissing => "SchemaMissing"
  | .missingRequiredKey => "MissingRequiredKey"
  | .typeMismatch => "TypeMismatch"
  | .indirectionViolation => "IndirectionViolation"
  | .possibleValueViolation => "PossibleValueViolation"
  | .unresolvedLink => "UnresolvedLink"
  | .ambiguousLink => "AmbiguousLink"
  | .mixedContainerNode => "MixedContainerNode"
  | .limitsViolation => "LimitsViolation"
  | .malformedContainer => "MalformedContainer"
  | .versionMismatch => "VersionMismatch"

def all : List Kind := [
  .malformedHeader, .structuralError, .schemaMissing, .missingRequiredKey, .typeMismatch,
  .indirectionViolation, .possibleValueViolation, .unresolvedLink, .ambiguousLink,
  .mixedContainerNode, .limitsViolation, .malformedContainer, .versionMismatch]

def ofText? (s : String) : Option Kind := all.find? (·.text == s)

def isGrammarDefect : Kind → Bool
  | .malformedHeader | .structuralError => true
  | _ => false

end Finding.Kind

/-- `link` names the table that was checked against, `key` the offending key or index,
`context` the way to the container. -/
structure Finding where
  kind : Finding.Kind
  link : String
  key : Option String
  context : String
  message : String
  deriving DecidableEq

namespace Finding

/-- Without the context, so that equal findings of many documents are equal lines. -/
def terseLine (f : Finding) : String :=
  match f.key with
  | some key => f.kind.text ++ ": " ++ f.link ++ "::" ++ key ++ ": " ++ f.message
  | none => f.kind.text ++ ": " ++ f.link ++ ": " ++ f.message

def verboseLine (f : Finding) : String := f.terseLine ++ " [" ++ f.context ++ "]"

def toJson (f : Finding) : Json :=
  .record [
    ("kind", .text f.kind.text),
    ("link", .text f.link),
    ("key", f.key.elim .null .text),
    ("context", .text f.context),
    ("message", .text f.message)]

/-- A kind is its name, or a record with that name and nothing in it. -/
def Kind.ofJson? : Json → Option Kind
  | .string (some s) => Kind.ofText? s
  | .object [(some s, .null)] => Kind.ofText? s
  | _ => none

def textOfJson? : Json → Option String
  | .string text => text
  | _ => none

def keyOfJson? : Json → Option (Option String)
  | .null => some none
  | j => (textOfJson? j).map some

def ofParts? (kind link key context message : Json) : Option Finding := do
  return {
    kind := ← Kind.ofJson? kind
    link := ← textOfJson? link
    key := ← keyOfJson? key
    context := ← textOfJson? context
    message := ← textOfJson? message }

/-- A finding is a record, or its fields in order; in a record the key may be left out. -/
def ofJson? : Json → Option Finding
  | .object members => do
    guard (Json.hasTextKeys members)
    ofParts? (← ← Json.field? "kind" members) (← ← Json.field? "link" members)
      ((← Json.field? "key" members).getD .null) (← ← Json.field? "context" members)
      (← ← Json.field? "message" members)
  | .array [kind, link, key, context, message] => ofParts? kind link key context message
  | _ => none

def parse (line : String) : Option Finding := (Json.parse line).bind ofJson?

def jsonLine (f : Finding) : String := f.toJson.compact

end Finding

end PdfConform
