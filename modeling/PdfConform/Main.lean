import PdfConform.CommandLine.Program

/-! The program itself: look at the files that the arguments ask for, run, then
print and write what came of it. -/
open PdfConform PdfConform.CommandLine

/-- What is at a path, as far as it can be read. -/
def look (path : String) : IO (Option Node) := do
  let entry : IO.FS.DirEntry := ⟨path, "."⟩
  if ← entry.path.isDir then return some .folder
  try return some (.file (← IO.FS.readBinFile path)) catch _ => return none

def waysTo (path : String) : List String :=
  let names := Path.names path
  (List.range names.length).map fun n => String.intercalate "/" (names.take (n + 1))

def addPath (fs : Files) (path : String) : IO Files :=
  (waysTo path).foldlM (fun fs way => do
    match ← look (if way.isEmpty then "/" else way) with
    | some node => return fs.put (Path.place way) node
    | none => return fs) fs

def addFolder (fs : Files) (path : String) : IO Files := do
  let fs ← addPath fs path
  let entry : IO.FS.DirEntry := ⟨path, "."⟩
  let children ← try entry.path.readDir catch _ => pure #[]
  children.foldlM (fun fs child => do
    let path := Path.join path child.fileName
    match ← look path with
    | some node => return fs.put (Path.place path) node
    | none => return fs) fs

def save (fs : Files) (command : Command) : IO Unit := do
  match command with
  | .validate _ _ _ _ _ _ (some path) => match fs.read path with
    | .ok content => IO.FS.writeBinFile path content
    | .error _ => return
  | _ => return

def main (args : List String) : IO UInt32 := do
  let some command := command? false args | return 2
  let (paths, folders) := command.needs
  let fs ← folders.foldlM addFolder (← paths.foldlM addPath Files.empty)
  let outcome := run fs args
  IO.print outcome.output
  IO.eprint outcome.errors
  save outcome.files command
  return UInt32.ofNat outcome.code
