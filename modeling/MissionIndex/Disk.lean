import MissionIndex.Path.Basic
import MissionIndex.Text.Utf8

/-!
# Disks

A disk is a finite snapshot of a file tree: files with their bytes, further folders, and the working
directory that relative paths start from. Every folder above a file or a folder exists as well, so
only the folders that would otherwise be empty are listed.

There are no links, and names are case-sensitive. Nothing that reads a disk changes it, and
everything below takes the disk of the moment as an argument.

## Looking up

The place that a path names is that of its components after it is made absolute and normalised. But
a system that looks a path up walks along it, so each folder on the way has to be there, also where
a `..` leads back from it. Some systems normalise a path first, and then only the place counts.
-/

namespace MissionIndex

/-- What opening a file gives. -/
inductive Content where
  | bytes (data : List UInt8)
  /-- The file is there and cannot be opened. -/
  | unreadable
deriving DecidableEq, Repr, Inhabited

/-- Why a path cannot be read as a file. -/
inductive ReadError where
  | notFound
  | isFolder
  | denied
  /-- Something above the path is a file. -/
  | notFolder
deriving DecidableEq, Repr

namespace ReadError

/-- The operating system's words for the failure. -/
def message : ReadError → String
  | notFound => "No such file or directory"
  | isFolder => "Is a directory"
  | denied => "Permission denied"
  | notFolder => "Not a directory"

end ReadError

/-- A place in the tree: the components on the way from the root. -/
abbrev Place := List String

/-- A snapshot of a file tree. -/
structure Disk where
  workingDirectory : String := "/"
  files : List (Place × Content) := []
  folders : List Place := []
  /-- Whether a path is looked up in its normal form. -/
  normalizes : Bool := false
deriving Repr, Inhabited

namespace Disk

open Text

variable (disk : Disk)

def absolute (path : String) : String := Path.resolve disk.workingDirectory path

/-- The place that an absolute normal form names. -/
def placeOf (path : String) : Place := (Path.components path.toList).map String.ofList

def place (path : String) : Place := placeOf (disk.absolute path)

def contentAt? (spot : Place) : Option Content := disk.files.lookup spot

/-- Whether a folder stands at a place: the root, the working directory, a listed folder, or
anything above one of these or above a file. -/
def isFolderAt (spot : Place) : Bool :=
  spot == [] || spot.isPrefixOf (placeOf disk.workingDirectory) ||
    disk.folders.any spot.isPrefixOf ||
    disk.files.any fun (file, _) ↦ spot.isPrefixOf file && spot != file

/-- The bytes of the file at a place. -/
def readAt (spot : Place) : Except ReadError (List UInt8) :=
  match disk.contentAt? spot with
  | some (.bytes data) => .ok data
  | some .unreadable => .error .denied
  | none =>
    if disk.isFolderAt spot then .error .isFolder
    else if disk.files.any fun (file, _) ↦ file.isPrefixOf spot then .error .notFolder
    else .error .notFound

/-! ## Looking up -/

/-- One step of a walk, from the components that it has come to, the last of which stands first.
Only a folder can be gone through. -/
def step (rooted : Bool) (done : List (List Char)) (part : List Char) :
    Except ReadError (List (List Char)) :=
  let spot := done.reverse.map String.ofList
  if disk.isFolderAt spot then .ok (Path.pushComponent rooted done part)
  else .error (if (disk.contentAt? spot).isSome then .notFolder else .notFound)

/-- Walks along the components of a path. Nothing needs to be there at the end. -/
def walk (path : String) : Except ReadError (List (List Char)) :=
  let cs := (Path.append disk.workingDirectory path).toList
  (splitAt '/' cs).foldlM (disk.step (cs.head? == some '/')) []

/-- The place of a path, for as much as looking it up comes to it. -/
def lookup (path : String) : Except ReadError Place :=
  if disk.normalizes then .ok (disk.place path)
  else (disk.walk path).map fun _ ↦ disk.place path

def isFile (path : String) : Bool :=
  match disk.lookup path with
  | .ok spot => (disk.contentAt? spot).isSome
  | .error _ => false

def isFolder (path : String) : Bool :=
  match disk.lookup path with
  | .ok spot => (disk.contentAt? spot).isNone && disk.isFolderAt spot
  | .error _ => false

def hasPath (path : String) : Bool := disk.isFile path || disk.isFolder path

/-- The bytes of the file that a path leads to. -/
def read (path : String) : Except ReadError (List UInt8) := (disk.lookup path).bind disk.readAt

/-- The text of a file. Line endings become line feeds and bytes that are no characters become
U+FFFD, so this fails only where reading does. -/
def readText (path : String) : Except ReadError (List Char) :=
  (disk.read path).map fun data ↦ unifyNewlines (decodeReplacing data)

/-- The text of a file for those who do without replacements, who come to its end only where all its
bytes are characters. Line endings become line feeds. -/
def stream (path : String) : Except ReadError Stream :=
  (disk.read path).map fun data ↦ (Stream.ofBytes data).map unifyNewlines

/-! ## Changes -/

/-- The disk with a file of the given content at the place that a path names. -/
def write (path : String) (content : Content) : Disk :=
  let spot := disk.place path
  if disk.files.any (·.1 == spot) then
    { disk with files := disk.files.map fun (file, old) ↦
        if file == spot then (file, content) else (file, old) }
  else { disk with files := disk.files ++ [(spot, content)] }

def writeText (path text : String) : Disk := disk.write path (.bytes (encodeUtf8 text.toList))

def delete (path : String) : Disk :=
  let spot := disk.place path
  { disk with files := disk.files.filter fun (file, _) ↦ file != spot }

end Disk

end MissionIndex
