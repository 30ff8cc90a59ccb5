import PdfConform.Check.Run
import PdfConform.Report

/-! The arguments of the program. Switches are long or short, short ones may be
grouped, and a value follows its switch or is attached to it. No switch may be
given twice, and a value that looks like a switch has to be attached. -/
namespace PdfConform.CommandLine

structure Switch where
  short : Option Char
  long : String
  takesValue : Bool
  deriving DecidableEq

/-- Switches with their values, empty for those that take none, and the other arguments. -/
structure Arguments where
  switches : List (String × String)
  positional : List String
  deriving DecidableEq

def looksLikeSwitch (arg : String) : Bool :=
  match arg.toList with
  | '-' :: _ :: _ => true
  | _ => false

/-- A group of short switches: those that are complete, and one that waits for its value. -/
def readGroup (known : List Switch) :
    List Char → Option (List (String × String) × Option String)
  | [] => some ([], none)
  | c :: rest => do
    let switch ← known.find? fun s => s.short = some c
    if switch.takesValue then
      match rest with
      | [] => return ([], some switch.long)
      | '=' :: value => return ([(switch.long, String.ofList value)], none)
      | value => return ([(switch.long, String.ofList value)], none)
    else
      let (complete, waiting) ← readGroup known rest
      return ((switch.long, "") :: complete, waiting)

def readLong (known : List Switch) (body : List Char) :
    Option (List (String × String) × Option String) := do
  let (name, attached) := body.span (· != '=')
  let switch ← known.find? fun s => s.long = String.ofList name
  match switch.takesValue, attached with
  | true, [] => return ([], some switch.long)
  | true, _ :: value => return ([(switch.long, String.ofList value)], none)
  | false, [] => return ([(switch.long, "")], none)
  | false, _ :: _ => none

def readSwitch (known : List Switch) (arg : String) :
    Option (List (String × String) × Option String) :=
  match arg.toList with
  | '-' :: '-' :: body => readLong known body
  | _ :: body => readGroup known body
  | [] => none

/-- Read all arguments; after two dashes none is a switch. -/
def readArguments (known : List Switch) (found : Arguments) : List String → Option Arguments
  | [] => some found
  | arg :: rest =>
    if arg = "--" then some { found with positional := found.positional ++ rest }
    else if looksLikeSwitch arg then
      match readSwitch known arg with
      | none => none
      | some (complete, none) =>
        readArguments known { found with switches := found.switches ++ complete } rest
      | some (complete, some waiting) =>
        match rest with
        | value :: rest =>
          if looksLikeSwitch value then none
          else readArguments known
            { found with switches := found.switches ++ complete ++ [(waiting, value)] } rest
        | [] => none
    else readArguments known { found with positional := found.positional ++ [arg] } rest

namespace Arguments

def value? (a : Arguments) (name : String) : Option String :=
  (a.switches.find? fun s => s.1 = name).map (·.2)

def has (a : Arguments) (name : String) : Bool := (a.value? name).isSome

def isUnambiguous (a : Arguments) : Bool := (a.switches.map (·.1)).Nodup

end Arguments

inductive Command
  | checkGrammar (folder extension : String) (format : Report.Format)
  | validate (input grammar link : String) (version : Option Version) (budget : Option Nat)
      (format : Report.Format) (output : Option String)
  deriving DecidableEq

def verbose : Switch := ⟨some 'v', "verbose", false⟩

def checkGrammarSwitches : List Switch := [
  verbose, ⟨some 'e', "extension", true⟩, ⟨some 't', "terse", false⟩]

def validateSwitches : List Switch := [
  verbose, ⟨some 'g', "grammar", true⟩, ⟨some 'l', "link", true⟩,
  ⟨some 'p', "pdf-version", true⟩, ⟨none, "max-items", true⟩, ⟨some 't', "terse", false⟩,
  ⟨none, "json", false⟩, ⟨some 'o', "output", true⟩]

/-- A path is never empty. -/
def path? (s : String) : Option String := if s.isEmpty then none else some s

/-- A value that may be left out but, if given, has to be good. -/
def optional {α : Type} (read : String → Option α) (value : Option String) :
    Option (Option α) :=
  match value with
  | none => some none
  | some s => (read s).map some

def formatOf (terse : Bool) : Report.Format := if terse then .terse else .verbose

def checkGrammar? (args : List String) : Option Command := do
  let a ← readArguments checkGrammarSwitches ⟨[], []⟩ args
  guard a.isUnambiguous
  let [folder] := a.positional | none
  return .checkGrammar (← path? folder) ((a.value? "extension").getD "tsv")
    (formatOf (a.has "terse"))

def validate? (args : List String) : Option Command := do
  let a ← readArguments validateSwitches ⟨[], []⟩ args
  guard (a.isUnambiguous && !(a.has "terse" && a.has "json"))
  let [input] := a.positional | none
  return .validate (← path? input) (← path? (← a.value? "grammar"))
    ((a.value? "link").getD trailerLink)
    (← optional (fun s => (Version.parse s).toOption) (a.value? "pdf-version"))
    (← optional (fun s => Number.readBelow UInt64.size s.toList) (a.value? "max-items"))
    (if a.has "json" then .jsonLines else formatOf (a.has "terse"))
    (← optional path? (a.value? "output"))

/-- Read the arguments before the name of the command, then the command's own. -/
def command? (seen : Bool) : List String → Option Command
  | [] => none
  | "check-grammar" :: args => checkGrammar? args
  | "validate" :: args => validate? args
  | arg :: args => if (arg = "-v" || arg = "--verbose") && !seen then command? true args else none

end PdfConform.CommandLine
