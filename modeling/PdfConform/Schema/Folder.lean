import PdfConform.Files
import PdfConform.Schema.Table

/-! A folder of grammar files, one for each link name. -/
namespace PdfConform

structure Folder where
  path : String
  delimiter : Char
  extension : String

namespace Folder

def of (path : String) : Folder := ⟨path, '\t', "tsv"⟩

inductive LoadError
  | io (error : IoError)
  | header (fault : Table.HeaderFault)
  deriving DecidableEq

def LoadError.message : LoadError → String
  | .io e => "IO error: " ++ e.message
  | .header fault => fault.message

def pathFor (f : Folder) (link : String) : String :=
  Path.join f.path (link ++ "." ++ f.extension)

/-- The link names of all grammar files, sorted by code point. -/
def links (f : Folder) (fs : Files) : Except IoError (List String) := do
  let found := (← fs.fileNames f.path).filterMap fun name =>
    let (stem, extension) := Path.splitExtension name
    if extension = some f.extension then some stem else none
  return found.mergeSort fun a b => a ≤ b

def loadAs (f : Folder) (fs : Files) (link path : String) : Except LoadError Table := do
  let text ← (fs.readText path).mapError .io
  (Table.parse f.delimiter link path text).mapError .header

def loadLink (f : Folder) (fs : Files) (link : String) : Except LoadError Table :=
  f.loadAs fs link (f.pathFor link)

/-- The table in a file, its link being the file's name without extension. -/
def load (f : Folder) (fs : Files) (path : String) : Except LoadError Table :=
  f.loadAs fs (Path.stem path) path

end Folder

end PdfConform
