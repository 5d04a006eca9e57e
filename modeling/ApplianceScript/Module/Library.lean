import ApplianceScript.Disk.Basic
import ApplianceScript.Module.Catalog
import ApplianceScript.Module.Reader

namespace ApplianceScript

namespace ConfigModule

def ofContentWith (parse : String → Option ConfigModule) (path : Path) (content : ByteArray) :
    Except Failure ConfigModule :=
  match Disk.decodeText content with
  | .error kind => .error (.ofIo ("Failed to read module file: " ++ path.text) kind.error)
  | .ok text =>
    match readWith parse text with
    | .error fault => .error (.ofCompile (.moduleSyntax path.text fault.reason))
    | .ok m => .ok m

def ofFile (disk : Disk) (path : Path) : Except Failure ConfigModule :=
  match disk.find path with
  | .ok (.file content) => ofContentWith parseYaml? path content
  | .ok .directory =>
    .error (.ofIo ("Failed to read module file: " ++ path.text) IoErrorKind.isADirectory.error)
  | .error kind => .error (.ofIo ("Failed to read module file: " ++ path.text) kind.error)

end ConfigModule

structure LibraryFile where
  path : Path
  content : ByteArray

namespace Library

def hasExtension (extensions : List String) (name : String) : Bool :=
  match Path.extensionOf? name with
  | some extension => extensions.any fun wanted => wanted.toLower == extension.toLower
  | none => false

def files (disk : Disk) (directory : Location) (searchPath : Path) (extensions : List String) :
    List LibraryFile :=
  (disk.below directory).filterMap fun (names, entry) =>
    match entry with
    | .file content =>
      if hasExtension extensions (names.getLast?.getD "") then
        some ⟨searchPath.join ⟨false, names⟩, content⟩
      else none
    | .directory => none

/-- Adds the modules in the files to a catalog. `sources` tells the file of every module in it. -/
def extend (parse : String → Option ConfigModule) (catalog : Catalog)
    (sources : List (String × Path)) : List LibraryFile → Except Failure Catalog
  | [] => .ok catalog
  | file :: rest =>
    match ConfigModule.ofContentWith parse file.path file.content with
    | .error failure => .error failure
    | .ok m =>
      match catalog.insert m with
      | .ok larger => extend parse larger ((m.name, file.path) :: sources) rest
      | .error rejected =>
        .error (.ofCompile (.duplicateModule rejected.name
          ((sources.lookup rejected.name).elim "" (·.text)) file.path.text))

def loadWith (parse : String → Option ConfigModule) (disk : Disk) (searchPath : Path)
    (extensions : List String) : Except Failure Catalog :=
  match disk.locate searchPath with
  | .ok directory =>
    if disk.hasDirectory directory then
      extend parse .empty [] (files disk directory searchPath extensions)
    else .error (.ofCompile (.searchPathNotFound searchPath.text))
  | .error _ => .error (.ofCompile (.searchPathNotFound searchPath.text))

def load : Disk → Path → List String → Except Failure Catalog :=
  loadWith ConfigModule.parseYaml?

end Library

end ApplianceScript
