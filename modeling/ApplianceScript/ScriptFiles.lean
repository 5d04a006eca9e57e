import ApplianceScript.Disk.Staging
import ApplianceScript.Script
import ApplianceScript.Settings.Basic

namespace ApplianceScript

structure ScriptFiles where
  directory : Path
  install : String
  uninstall : String
deriving DecidableEq, Repr

namespace ScriptFiles

def name (files : ScriptFiles) : Direction → String
  | .install => files.install
  | .uninstall => files.uninstall

def path (files : ScriptFiles) (direction : Direction) : Path :=
  files.directory.join (.ofText (files.name direction))

def content (scripts : Scripts) (direction : Direction) : ByteArray :=
  (Text.joinLines (scripts.lines direction)).toUTF8

def write (files : ScriptFiles) (disk : Disk) (scripts : Scripts) : Except Failure Unit × Disk :=
  disk.writeAll ([.install, .uninstall].map fun direction =>
    (files.path direction, content scripts direction))

end ScriptFiles

def Settings.scriptFiles (settings : Settings) (searchPath : Path) : ScriptFiles :=
  { directory := searchPath.join settings.outputDirectory
    install := settings.installFile
    uninstall := settings.uninstallFile }

end ApplianceScript
