import ApplianceScript.Disk.Basic
import ApplianceScript.Settings.Basic
import ApplianceScript.Settings.Entry

namespace ApplianceScript

namespace Settings

def standardFileName : String := "corelayer.toml"

def wordSize : Nat := UInt64.size

def assign (settings : Settings) (entry : Entry) : Option Settings :=
  match entry.key, entry.value with
  | "output_dir", .text value => some { settings with outputDirectory := .ofText value }
  | "install_file", .text value => some { settings with installFile := value }
  | "uninstall_file", .text value => some { settings with uninstallFile := value }
  | "module_extensions", .texts values => some { settings with moduleExtensions := values }
  | "max_parallel", .number (.ofNat n) =>
    if n < wordSize then some { settings with maxParallel := n } else none
  | _, _ => none

def parse? (content : String) : Option Settings := do
  (← entries? content).foldlM assign {}

def syntaxReason : String := "not a settings file"

def loadFile (disk : Disk) (path : Path) : Except Failure Settings :=
  match disk.readText path with
  | .error kind => .error (.ofIo ("Failed to read config from " ++ path.text) kind.error)
  | .ok content =>
    match parse? content with
    | none =>
      .error { contexts := ["Failed to parse config from " ++ path.text]
               cause := .settingsSyntax syntaxReason }
    | some settings =>
      match settings.validate with
      | .error error => .error (.ofCompile error)
      | .ok () => .ok settings

def load (disk : Disk) (searchPath : Path) (named : Option Path) : Except Failure Settings :=
  let standard := searchPath.join (.ofText standardFileName)
  match named with
  | some path => loadFile disk path
  | none => if disk.isFile standard then loadFile disk standard else .ok {}

end Settings

end ApplianceScript
