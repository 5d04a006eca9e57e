import ApplianceScript.Disk.Directory

/-!
Writing several files so that none is replaced unless all could be staged.

Every content first becomes a temporary file in the directory of its path, whose name no path can
spell. Only when all of them are there they are moved over their targets, one after the other. A
fault removes the temporary files that are left; targets that were replaced before it stay so.
-/

namespace ApplianceScript

structure Staged where
  location : Location
  path : Path

namespace Disk

/-- Name of the temporary file of the entry at `index`. A slash never stands in a name that a path
leads to. -/
def temporaryName (index : Nat) : String :=
  "/" ++ toString index

def stagingDirectory (path : Path) : Path :=
  match path.parent? with
  | some parent => if parent.isEmpty then .here else parent
  | none => .here

def stage (disk : Disk) (index : Nat) (path : Path) (content : ByteArray) :
    Except Failure Staged × Disk :=
  let parent := stagingDirectory path
  match disk.ensureDirectory parent with
  | (.error failure, after) => (.error failure, after)
  | (.ok (), ready) =>
    match ready.locate parent with
    | .error kind =>
      (.error (.ofIo ("Failed to create temp file in: " ++ parent.text) kind.error), ready)
    | .ok directory =>
      let location := directory ++ [temporaryName index]
      (.ok ⟨location, path⟩, ready.insert location (.file content))

def discard (disk : Disk) (staged : List Staged) : Disk :=
  staged.foldl (fun disk s => disk.erase s.location) disk

def stageAll (disk : Disk) (index : Nat) : List (Path × ByteArray) →
    Except Failure (List Staged) × Disk
  | [] => (.ok [], disk)
  | (path, content) :: rest =>
    match disk.stage index path content with
    | (.error failure, after) => (.error failure, after)
    | (.ok staged, after) =>
      match after.stageAll (index + 1) rest with
      | (.error failure, later) => (.error failure, later.discard [staged])
      | (.ok more, later) => (.ok (staged :: more), later)

def moveOver (disk : Disk) (staged : Staged) : Except IoErrorKind Disk := do
  match ← disk.target staged.path with
  | .fixed => .error .resourceBusy
  | .name directory name =>
    if staged.path.pieces.getLast? = some "" then .error .notADirectory
    else if disk.hasDirectory (directory ++ [name]) then .error .isADirectory
    else
      match disk.lookup staged.location with
      | some entry => return (disk.erase staged.location).insert (directory ++ [name]) entry
      | none => .error .notFound

def moveAll (disk : Disk) : List Staged → Except Failure Unit × Disk
  | [] => (.ok (), disk)
  | staged :: rest =>
    match disk.moveOver staged with
    | .ok moved => moved.moveAll rest
    | .error kind =>
      (.error (.ofIo ("Failed to rename temp file to: " ++ staged.path.text) kind.error),
        disk.discard (staged :: rest))

def writeAll (disk : Disk) (files : List (Path × ByteArray)) : Except Failure Unit × Disk :=
  match disk.stageAll 0 files with
  | (.error failure, after) => (.error failure, after)
  | (.ok staged, after) => after.moveAll staged

end Disk

end ApplianceScript
