import ApplianceScript.Disk.Path
import ApplianceScript.Fault

/-!
Files and directories as a value.

A disk maps locations, the names on the way from the root, to files and directories. Paths are
resolved piece by piece: every piece must be looked up in a directory, a dot and an empty piece
stay, two dots go up. There are no links and no permissions.
-/

namespace ApplianceScript

inductive Entry
  | directory
  | file (content : ByteArray)

abbrev Location := List String

structure Disk where
  current : Location
  entries : List (Location × Entry)

namespace Disk

def lookup (disk : Disk) (location : Location) : Option Entry :=
  if location.isEmpty then some .directory else disk.entries.lookup location

def erase (disk : Disk) (location : Location) : Disk :=
  { disk with entries := disk.entries.filter (·.1 ≠ location) }

def insert (disk : Disk) (location : Location) (entry : Entry) : Disk :=
  { disk with entries := (disk.erase location).entries ++ [(location, entry)] }

def hasDirectory (disk : Disk) (location : Location) : Bool :=
  match disk.lookup location with
  | some .directory => true
  | _ => false

def plant (disk : Disk) (location : Location) (entry : Entry) : Disk :=
  let above := (List.range location.length).map location.take
  let rooted := above.foldl (fun disk l => if disk.hasDirectory l then disk
    else disk.insert l .directory) disk
  rooted.insert location entry

def longestName : Nat := 255

def follow (disk : Disk) (location : Location) : List String → Except IoErrorKind Location
  | [] => .ok location
  | piece :: rest =>
    if !disk.hasDirectory location then .error .notADirectory
    else if piece = "" || piece = "." then disk.follow location rest
    else if piece = ".." then disk.follow location.dropLast rest
    else if piece.utf8ByteSize > longestName then .error .invalidFilename
    else
      match disk.lookup (location ++ [piece]) with
      | some _ => disk.follow (location ++ [piece]) rest
      | none => .error .notFound

def origin (disk : Disk) (path : Path) : Location :=
  if path.absolute then [] else disk.current

def locate (disk : Disk) (path : Path) : Except IoErrorKind Location :=
  if path.isEmpty then .error .notFound else disk.follow (disk.origin path) path.pieces

def find (disk : Disk) (path : Path) : Except IoErrorKind Entry := do
  let location ← disk.locate path
  match disk.lookup location with
  | some entry => return entry
  | none => .error .notFound

def has (disk : Disk) (path : Path) : Bool :=
  match disk.find path with
  | .ok _ => true
  | .error _ => false

def isDirectory (disk : Disk) (path : Path) : Bool :=
  match disk.find path with
  | .ok .directory => true
  | _ => false

def isFile (disk : Disk) (path : Path) : Bool :=
  match disk.find path with
  | .ok (.file _) => true
  | _ => false

def decodeText (content : ByteArray) : Except IoErrorKind String :=
  match String.fromUTF8? content with
  | some text => .ok text
  | none => .error .invalidData

def readText (disk : Disk) (path : Path) : Except IoErrorKind String := do
  match ← disk.find path with
  | .directory => .error .isADirectory
  | .file content => decodeText content

/-- The last piece of a path and those before it, slashes at the end set aside. -/
def splitLast (path : Path) : Option (List String × String) :=
  match path.pieces.reverse.dropWhile (· = "") with
  | [] => none
  | last :: before => some (before.reverse, last)

inductive Target
  | name (directory : Location) (name : String)
  | fixed

def target (disk : Disk) (path : Path) : Except IoErrorKind Target := do
  if path.isEmpty then .error .notFound
  else
    match splitLast path with
    | none => return .fixed
    | some (before, last) =>
      let directory ← disk.follow (disk.origin path) before
      if !disk.hasDirectory directory then .error .notADirectory
      else if last = "." || last = ".." then return .fixed
      else if last.utf8ByteSize > longestName then .error .invalidFilename
      else return .name directory last

/-- The locations below a directory in the order of a walk: a directory before what it holds, and
its entries by name. -/
def below (disk : Disk) (directory : Location) : List (Location × Entry) :=
  let inside := disk.entries.filterMap fun (location, entry) =>
    if directory.isPrefixOf location && location.length > directory.length then
      some (location.drop directory.length, entry)
    else none
  inside.mergeSort fun a b => !b.1.lex a.1 fun x y => x < y

end Disk

end ApplianceScript
