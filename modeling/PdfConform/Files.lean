/-! The files that a program can see, as a value. A file or folder is known by the
names on the way to it from the working directory, or from the root, which is
then the first name. -/
namespace PdfConform

inductive IoError
  | notFound
  | notDirectory
  | isDirectory
  | invalidText
  deriving DecidableEq

def IoError.message : IoError → String
  | .notFound => "No such file or directory (os error 2)"
  | .notDirectory => "Not a directory (os error 20)"
  | .isDirectory => "Is a directory (os error 21)"
  | .invalidText => "stream did not contain valid UTF-8"

namespace Path

/-- A name inside a folder; an absolute name stands for itself. -/
def join (folder name : String) : String :=
  if folder.isEmpty || name.toList.head? = some '/' then name
  else if folder.toList.getLast? = some '/' then folder ++ name
  else folder ++ "/" ++ name

def names (path : String) : List String := (path.toList.splitOn '/').map String.ofList

/-- The last name of a path; a step up is no name. -/
def fileName? (path : String) : Option String :=
  match ((names path).filter fun n => !n.isEmpty && n ≠ ".").getLast? with
  | some ".." => none
  | found => found

/-- A file's name before and after its last point. A name that starts with its only
point has no extension. -/
def splitExtension (name : String) : String × Option String :=
  match name.toList.reverse.span (· != '.') with
  | (_, []) | (_, [_]) => (name, none)
  | (extension, _ :: stem) =>
    (String.ofList stem.reverse, some (String.ofList extension.reverse))

def stem (path : String) : String :=
  ((fileName? path).map fun name => (splitExtension name).1).getD ""

/-- One step up. Above the working directory nothing is known but the way there. -/
def parent (place : List String) : List String :=
  if place = ["/"] then place
  else if place = [] || place.getLast? = some ".." then place ++ [".."]
  else place.dropLast

/-- The working directory, a folder above it, or the root. -/
def isAbove (place : List String) : Bool := place = ["/"] || place.all (· = "..")

def step (place : List String) (name : String) : List String :=
  if name = "" || name = "." then place
  else if name = ".." then parent place
  else place ++ [name]

def start (path : String) : List String × List String :=
  match names path with
  | "" :: rest => (["/"], rest)
  | names => ([], names)

/-- The place that a path leads to if every folder on the way is there. -/
def place (path : String) : List String :=
  let (place, names) := start path
  names.foldl step place

end Path

inductive Node
  | file (content : ByteArray)
  | folder

structure Files where
  nodes : List (List String × Node)

namespace Files

def empty : Files := ⟨[]⟩

/-- The working directory and the folders above it are there, and so is a folder that
holds anything. -/
def node? (fs : Files) (place : List String) : Option Node :=
  match fs.nodes.find? fun n => n.1 = place with
  | some (_, node) => some node
  | none =>
    if Path.isAbove place || fs.nodes.any fun n => place.isPrefixOf n.1 then some .folder
    else none

/-- Follow names from a place; every place on the way has to be a folder. -/
def walk (fs : Files) : List String → List String → Except IoError (List String)
  | place, [] => .ok place
  | place, name :: rest =>
    match fs.node? place with
    | none => .error .notFound
    | some (.file _) => .error .notDirectory
    | some .folder => fs.walk (Path.step place name) rest

/-- The place that a path leads to, which need not hold anything. -/
def locate (fs : Files) (path : String) : Except IoError (List String) :=
  if path.isEmpty then .error .notFound
  else
    let (place, names) := Path.start path
    fs.walk place names

def read (fs : Files) (path : String) : Except IoError ByteArray := do
  match fs.node? (← fs.locate path) with
  | none => throw .notFound
  | some .folder => throw .isDirectory
  | some (.file content) => return content

def readText (fs : Files) (path : String) : Except IoError String := do
  match String.fromUTF8? (← fs.read path) with
  | some text => return text
  | none => throw .invalidText

/-- The names of the regular files directly in a folder. -/
def fileNames (fs : Files) (path : String) : Except IoError (List String) := do
  let place ← fs.locate path
  match fs.node? place with
  | none => throw .notFound
  | some (.file _) => throw .notDirectory
  | some .folder => return fs.nodes.filterMap fun
    | (entry, .file _) => if entry.dropLast = place then entry.getLast? else none
    | (_, .folder) => none

def put (fs : Files) (place : List String) (node : Node) : Files :=
  ⟨fs.nodes.filter (fun n => n.1 ≠ place) ++ [(place, node)]⟩

def delete (fs : Files) (place : List String) : Files :=
  ⟨fs.nodes.filter fun n => n.1 ≠ place⟩

/-- Create a file or replace its content; its folder has to be there. -/
def write (fs : Files) (path : String) (content : ByteArray) : Except IoError Files := do
  let place ← fs.locate path
  match fs.node? place with
  | some .folder => throw .isDirectory
  | some (.file _) => return fs.put place (.file content)
  | none => match fs.node? place.dropLast with
    | some .folder => return fs.put place (.file content)
    | some (.file _) => throw .notDirectory
    | none => throw .notFound

end Files

end PdfConform
