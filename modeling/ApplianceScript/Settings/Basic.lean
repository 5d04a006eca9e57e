import ApplianceScript.Disk.Path
import ApplianceScript.Fault
import ApplianceScript.Text.Blank

namespace ApplianceScript

structure Settings where
  outputDirectory : Path := .ofText "output"
  installFile : String := "install.conf"
  uninstallFile : String := "uninstall.conf"
  moduleExtensions : List String := ["yaml"]
  maxParallel : Nat := 4
deriving DecidableEq, Repr

namespace Settings

inductive Fault
  | noParallelism
  | blankInstallFile
  | blankUninstallFile
  | sameFiles
  | noExtension
  | blankExtension
deriving DecidableEq, Repr

def Fault.text : Fault → String
  | noParallelism => "max_parallel must be at least 1"
  | blankInstallFile => "install_file must not be empty"
  | blankUninstallFile => "uninstall_file must not be empty"
  | sameFiles => "install_file and uninstall_file must differ"
  | noExtension => "module_extensions must list at least one extension"
  | blankExtension => "module_extensions must not contain empty entries"

def checks (settings : Settings) : List (Bool × Fault) :=
  [(settings.maxParallel = 0, .noParallelism),
    (Text.isBlank settings.installFile, .blankInstallFile),
    (Text.isBlank settings.uninstallFile, .blankUninstallFile),
    (settings.installFile = settings.uninstallFile, .sameFiles),
    (settings.moduleExtensions.isEmpty, .noExtension),
    (settings.moduleExtensions.any Text.isBlank, .blankExtension)]

def fault? (settings : Settings) : Option Fault :=
  (settings.checks.find? (·.1)).map (·.2)

def validate (settings : Settings) : Except CompileError Unit :=
  match settings.fault? with
  | some fault => .error (.settings fault.text)
  | none => .ok ()

def withOverrides (settings : Settings) (outputDirectory : Option Path)
    (maxParallel : Option Nat) : Except CompileError Settings := do
  let changed :=
    { settings with
      outputDirectory := outputDirectory.getD settings.outputDirectory
      maxParallel := maxParallel.getD settings.maxParallel }
  changed.validate
  return changed

end Settings

end ApplianceScript
