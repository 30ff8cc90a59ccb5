import PdfConform.CommandLine.Arguments
import PdfConform.Document.Dump

/-! What a command prints, writes and exits with, as a function of the files it can see. -/
namespace PdfConform.CommandLine

structure Outcome where
  code : Nat
  output : String
  errors : String
  files : Files

/-- Wrong usage; what the program then prints is no part of this library. -/
def wrongUsage (fs : Files) : Outcome := ⟨2, "", "", fs⟩

def failure (fs : Files) (output message : String) : Outcome :=
  ⟨1, output, "Error: " ++ message ++ "\n", fs⟩

def isClean (failed : List String) (found : List Finding) : Bool := failed.isEmpty && found.isEmpty

def runCheckGrammar (fs : Files) (folder extension : String) (format : Report.Format) : Outcome :=
  match (Cache.ofFolder { Folder.of folder with extension }).loadAll fs with
  | .error _ => failure fs "" ("Failed to read grammar folder " ++ folder)
  | .ok (failed, cache, found) => {
    code := if isClean failed found then 0 else 1
    output := Report.render format found
    errors := "Checked " ++ Number.showNat cache.size ++ " grammar files: " ++
      Number.showNat failed.length ++ " failed, " ++ Number.showNat found.length ++ " findings\n"
    files := fs }

def summary (stats : Session.Stats) (found : List Finding) : String :=
  "Checked " ++ Number.showNat stats.checked ++ " objects against PDF " ++ stats.version.text ++
    ": " ++ Number.showNat found.length ++ " findings\n" ++
  if stats.cancelled then
    "Stopped early with " ++ Number.showNat stats.remaining ++ " objects unchecked\n"
  else ""

/-- The files with so much of a report in the file that was created for it, if any was. -/
def withReport (fs : Files) (output : Option String) (text : String) : Files :=
  match output with
  | none => fs
  | some path => ((fs.write path text.toUTF8).toOption).getD fs

/-- Check a document against a grammar folder. The report's file is created before the
first table is loaded, grows while tables are loaded, which may be from this very file,
and keeps what was found before a failure. -/
def runValidate (fs : Files) (input grammar link : String) (version : Option Version)
    (budget : Option Nat) (format : Report.Format) (output : Option String) : Outcome :=
  match fs.readText input with
  | .error _ => failure fs "" ("Failed to read " ++ input)
  | .ok text =>
    match Store.parse text with
    | none => failure fs "" ("Failed to parse object dump " ++ input)
    | some store =>
      match output.elim (.ok fs) (fs.write · ByteArray.empty) with
      | .error _ => failure fs "" ("Failed to create report " ++ output.getD "")
      | .ok fs =>
        let filesAfter (found : List Finding) :=
          withReport fs output (Report.ofFindings format found).sent
        let (result, session) :=
          validate ⟨filesAfter, store⟩ (.ofFolder (.of grammar)) link version budget
        let report := Report.render format session.findings
        let fs := withReport fs output report
        let printed := if output.isSome then "" else report
        match result with
        | .error _ => failure fs printed ("Cannot start validation at link " ++ link)
        | .ok stats => {
          code := if session.findings.isEmpty then 0 else 1
          output := printed
          errors := summary stats session.findings
          files := fs }

/-- The files that a command may read or write, and the folders that it lists. -/
def Command.needs : Command → List String × List String
  | .checkGrammar folder _ _ => ([], [folder])
  | .validate input grammar link _ _ _ output =>
    (input :: (Folder.of grammar).pathFor link :: output.toList, [grammar])

def run (fs : Files) (args : List String) : Outcome :=
  match command? false args with
  | none => wrongUsage fs
  | some (.checkGrammar folder extension format) => runCheckGrammar fs folder extension format
  | some (.validate input grammar link version budget format output) =>
    runValidate fs input grammar link version budget format output

end PdfConform.CommandLine
