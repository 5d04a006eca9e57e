import ApplianceScript.Disk.Basic

namespace ApplianceScript

namespace Disk

def makeDirectory (disk : Disk) (path : Path) : Except IoErrorKind Disk := do
  match ← disk.target path with
  | .fixed => .error .alreadyExists
  | .name directory name =>
    match disk.lookup (directory ++ [name]) with
    | some _ => .error .alreadyExists
    | none => return disk.insert (directory ++ [name]) .directory

def makeChain (disk : Disk) : List Path → Except IoErrorKind Unit × Disk
  | [] => (.error (.other "Uncategorized"), disk)
  | path :: above =>
    if path.isEmpty then (.ok (), disk)
    else
      match disk.makeDirectory path with
      | .ok made => (.ok (), made)
      | .error .notFound =>
        match disk.makeChain above with
        | (.error kind, after) => (.error kind, after)
        | (.ok (), after) =>
          match after.makeDirectory path with
          | .ok made => (.ok (), made)
          | .error kind => if after.isDirectory path then (.ok (), after) else (.error kind, after)
      | .error kind => if disk.isDirectory path then (.ok (), disk) else (.error kind, disk)

def makeDirectories (disk : Disk) (path : Path) : Except IoErrorKind Unit × Disk :=
  disk.makeChain (path :: path.parents)

def ensureDirectory (disk : Disk) (path : Path) : Except Failure Unit × Disk :=
  if !disk.has path then
    match disk.makeDirectories path with
    | (.ok (), made) => (.ok (), made)
    | (.error kind, after) =>
      (.error (.ofIo ("Failed to create directory: " ++ path.text ++
        "\n\nCheck directory permissions and path validity") kind.error), after)
  else if !disk.isDirectory path then
    (.error (.plain ("Path exists but is not a directory: " ++ path.text)), disk)
  else (.ok (), disk)

end Disk

end ApplianceScript
