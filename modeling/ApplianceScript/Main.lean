import ApplianceScript.Run

/-!
The program.

It takes a picture of the files that the run may read, lets the run work on the picture, and then
brings the scripts that it wrote to the file system.
-/

namespace ApplianceScript

namespace Picture

def systemPath (location : Location) : String :=
  (Path.mk true location).text

def location (current : Location) (path : Path) : Location :=
  let start := if path.absolute then [] else current
  path.pieces.foldl (fun above piece =>
    if piece = "" || piece = "." then above
    else if piece = ".." then above.dropLast
    else above ++ [piece]) start

def entryAt (location : Location) (follow : Bool) : IO (Option Entry) := do
  let path := (← IO.currentDir) / systemPath location
  try
    let metadata ← if follow then path.metadata else path.symlinkMetadata
    match metadata.type with
    | .dir => return some .directory
    | .file => return some (.file (← IO.FS.readBinFile path))
    | _ => return none
  catch _ => return none

def addChain (disk : Disk) (location : Location) : IO Disk := do
  let mut disk := disk
  for count in List.range location.length do
    let above := location.take (count + 1)
    if let some entry ← entryAt above true then disk := disk.insert above entry
  return disk

partial def addBelow (disk : Disk) (directory : Location) : IO Disk := do
  let mut disk := disk
  for found in ← ((← IO.currentDir) / systemPath directory).readDir do
    let inside := directory ++ [found.fileName]
    match ← entryAt inside false with
    | some .directory => disk ← addBelow (disk.insert inside .directory) inside
    | some entry => disk := disk.insert inside entry
    | none => pure ()
  return disk

def take (invocation : Invocation) : IO Disk := do
  let current := location [] (.ofText (← IO.currentDir).toString)
  let mut disk ← addChain { current, entries := [] } current
  let searched := location current invocation.searchPath
  disk ← addChain disk searched
  if disk.hasDirectory searched then disk ← addBelow disk searched
  if let some config := invocation.config then disk ← addChain disk (location current config)
  match ((Run.settings invocation).run).run { disk } with
  | (.ok settings, _) =>
    let files := settings.scriptFiles invocation.searchPath
    for direction in [Direction.install, Direction.uninstall] do
      disk ← addChain disk (location current (files.path direction))
    return disk
  | (.error _, _) => return disk

def apply (before after : Disk) : IO Unit := do
  for (location, entry) in after.entries do
    let path := systemPath location
    match entry, before.lookup location with
    | .directory, none => IO.FS.createDir path
    | .directory, some _ => pure ()
    | .file content, old =>
      let unchanged := match old with
        | some (.file known) => known == content
        | _ => false
      if !unchanged then
        let temporary := path ++ ".new"
        IO.FS.writeBinFile temporary content
        IO.FS.rename temporary path

end Picture

def programVersion : String := "corelayer 0.3.0"

def usage : String :=
  "Usage: corelayer [OPTIONS] <SEARCH_PATH>\n\n" ++
    "  -v, --verbose           Enable verbose output\n" ++
    "  -q, --quiet             Suppress all output except errors\n" ++
    "  -c, --config <FILE>     Path to a configuration file\n" ++
    "  -o, --output <DIR>      Directory receiving the scripts\n" ++
    "      --max-parallel <N>  Number of modules whose elements are ordered at a time\n" ++
    "      --dry-run           Compile and report without writing any file\n" ++
    "      --print             Print both scripts instead of writing them\n" ++
    "  -h, --help              Print help\n" ++
    "  -V, --version           Print version\n"

def refuse (refusal : CommandLine.Refusal) : IO UInt32 := do
  match refusal with
  | .help => IO.print usage
  | .version => IO.println programVersion
  | _ => IO.eprint ("error: invalid command line\n\n" ++ usage)
  return UInt32.ofNat refusal.exitCode

def execute (invocation : Invocation) : IO UInt32 := do
  let color ← (← IO.getStdout).isTty
  let disk ← Picture.take invocation
  let (result, run) := invocation.run color disk
  Picture.apply disk run.disk
  IO.print run.told
  if invocation.logLevel ≠ .off then
    for warning in run.warnings do
      IO.eprintln ("WARN " ++ warning.message)
  match result with
  | .ok () => return 0
  | .error failure =>
    IO.eprint ((Report.ofFailure failure).printed color)
    return 1

end ApplianceScript

def main (arguments : List String) : IO UInt32 :=
  match ApplianceScript.CommandLine.parse arguments with
  | .error refusal => ApplianceScript.refuse refusal
  | .ok invocation => ApplianceScript.execute invocation
