import ApplianceScript.CommandLine
import ApplianceScript.Module.Library
import ApplianceScript.Report
import ApplianceScript.ScriptFiles
import ApplianceScript.Session
import ApplianceScript.Settings.Reader

namespace ApplianceScript

structure Run where
  disk : Disk
  told : String := ""
  warnings : List CycleWarning := []

namespace Run

abbrev Step := ExceptT Failure (StateM Run)

def tell (text : String) : Step Unit :=
  modify fun run => { run with told := run.told ++ text }

def ofExcept (result : Except Failure α) : Step α := result

def ofCompile (result : Except CompileError α) : Step α :=
  match result with
  | .ok value => return value
  | .error error => throw (.ofCompile error)

def currentDirectory (disk : Disk) : Path := ⟨true, disk.current⟩

def settings (invocation : Invocation) : Step Settings := do
  let disk := (← get).disk
  if !disk.isDirectory invocation.searchPath then
    throw (.ofCompile (.searchPathNotFound invocation.searchPath.text))
  let output := invocation.output.map (currentDirectory disk).join
  let settings ← ofExcept (Settings.load disk invocation.searchPath invocation.config)
  ofCompile (settings.withOverrides output invocation.maxParallel)

def compile (settings : Settings) (catalog : Catalog) : Step (Plan × Scripts) := do
  let (scripts, session) := (Session.fresh catalog settings.maxParallel).compile
  modify fun run => { run with warnings := run.warnings ++ session.warnings }
  let scripts ← ofCompile scripts
  return (← ofCompile session.plan.1, scripts)

def header (color : Bool) (searchPath : Path) : String :=
  Style.boldCyan.paint color "CoreLayer configuration compiler" ++ "\n" ++
    "  Search path: " ++ searchPath.text ++ "\n"

def printedScripts (files : ScriptFiles) (scripts : Scripts) : String :=
  let printed (direction : Direction) : String :=
    "# " ++ files.name direction ++ "\n" ++ Text.joinLines (scripts.lines direction)
  printed .install ++ printed .uninstall

def summary (plan : Plan) (scripts : Scripts) : String :=
  "  Modules: " ++ toString plan.installOrder.length ++ "\n" ++
    "  Install order: " ++ " → ".intercalate plan.installOrder ++ "\n" ++
    "  Lines: " ++ toString scripts.install.length ++ " install, " ++
    toString scripts.uninstall.length ++ " uninstall\n"

def dryEnd (color : Bool) (files : ScriptFiles) : String :=
  let line (direction : Direction) : String :=
    "  Would write " ++ (files.path direction).text ++ "\n"
  "\n" ++ Style.yellow.paint color "Dry run, nothing written" ++ "\n" ++ line .install ++
    line .uninstall

def writtenEnd (color : Bool) (files : ScriptFiles) : String :=
  let line (direction : Direction) : String :=
    "  " ++ Style.green.paint color "✓" ++ " " ++ (files.path direction).text ++ "\n"
  "\n" ++ Style.boldGreen.paint color "Compilation complete!" ++ "\n" ++ line .install ++
    line .uninstall

def write (files : ScriptFiles) (scripts : Scripts) : Step Unit := do
  let run ← get
  let (result, disk) := files.write run.disk scripts
  set { run with disk }
  ofExcept result

def report (invocation : Invocation) (text : String) : Step Unit :=
  if invocation.isTerse then pure () else tell text

def deliver (invocation : Invocation) (color : Bool) (files : ScriptFiles) (plan : Plan)
    (scripts : Scripts) : Step Unit := do
  if invocation.print then tell (printedScripts files scripts)
  else
    report invocation (summary plan scripts)
    if invocation.dryRun then report invocation (dryEnd color files)
    else
      write files scripts
      report invocation (writtenEnd color files)

def perform (invocation : Invocation) (color : Bool) : Step Unit := do
  let settings ← settings invocation
  report invocation (header color invocation.searchPath)
  let catalog ← ofExcept
    (Library.load (← get).disk invocation.searchPath settings.moduleExtensions)
  let (plan, scripts) ← compile settings catalog
  deliver invocation color (settings.scriptFiles invocation.searchPath) plan scripts

end Run

def Invocation.run (invocation : Invocation) (color : Bool) (disk : Disk) :
    Except Failure Unit × Run :=
  ((Run.perform invocation color).run).run { disk }

end ApplianceScript
