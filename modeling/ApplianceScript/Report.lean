import ApplianceScript.Fault

namespace ApplianceScript

structure Report where
  error : CompileError
  details : Option String := none
  suggestion : Option String := none
deriving DecidableEq, Repr

/-- A copy of the error that no longer refers to the file system: an I/O error keeps its wording
only. -/
def CompileError.settled : CompileError → CompileError
  | io error => other (CompileError.io error).message
  | error => error

structure Style where
  codes : String

namespace Style

def boldRed : Style := ⟨"1;31"⟩
def boldGreen : Style := ⟨"1;32"⟩
def boldCyan : Style := ⟨"1;36"⟩
def green : Style := ⟨"32"⟩
def yellow : Style := ⟨"33"⟩

def paint (style : Style) (color : Bool) (text : String) : String :=
  if color then "\x1b[" ++ style.codes ++ "m" ++ text ++ "\x1b[0m" else text

end Style

namespace Report

def ofError (error : CompileError) : Report :=
  match error with
  | .duplicatePlaceholder name first second =>
    { error
      details := some ("Placeholders of all modules share one substitution table, so each " ++
        "marker may be defined only once")
      suggestion := some ("Rename or remove placeholder '" ++ name ++ "' in module '" ++ second ++
        "' or '" ++ first ++ "'") }
  | .invalidPlaceholder .. =>
    { error, suggestion := some "Give every placeholder a non-empty name" }
  | .missingCoreModule =>
    { error
      details := some "The version tag stamped into the scripts is taken from the Core module"
      suggestion := some ("Add a module file with 'name: Core' and a 'version' block to the " ++
        "search path") }
  | .missingCoreVersion =>
    { error
      suggestion := some "Add 'version: \x7b major: 1, minor: 0 \x7d' to the Core module" }
  | .unresolvedPlaceholders markers _ =>
    { error
      details := some ("Markers left in the output: " ++ ", ".intercalate markers ++
        ". A marker is either used without being defined, or placeholder expressions " ++
        "reference each other in a loop")
      suggestion := some ("Define the missing placeholders or break the reference loop between " ++
        "their expressions") }
  | .duplicateModule name .. =>
    { error, suggestion := some ("Keep exactly one module file declaring 'name: " ++ name ++ "'") }
  | .duplicateElement moduleName element =>
    { error
      details := some ("Elements are flattened across all sections of a module before " ++
        "ordering, so names must be unique per module")
      suggestion := some ("Rename one of the '" ++ element ++ "' elements in module '" ++
        moduleName ++ "'") }
  | .unresolvedDependency _ _ dependency =>
    { error
      details := some ("Element dependencies must name elements of the same module; module " ++
        "dependencies must name loaded modules")
      suggestion := some ("Define '" ++ dependency ++ "' or remove it from the dependency list") }
  | .elementNotFound .. | .moduleNotFound .. =>
    { error
      details := some "The emission order references a definition that was not loaded" }
  | .moduleSyntax file reason =>
    { error
      details := some reason
      suggestion := some ("Check the YAML syntax in " ++ file) }
  | .searchPathNotFound _ =>
    { error
      suggestion := some "Pass the directory that contains the module YAML files" }
  | .settings _ =>
    { error
      suggestion := some "Check the values in corelayer.toml and the command line flags" }
  | .io _ | .other _ => { error }

def numbered : Nat → List String → String
  | _, [] => ""
  | first, cause :: rest => "\n  " ++ toString first ++ ": " ++ cause ++ numbered (first + 1) rest

def explained (chain : List String) : String :=
  let causes := chain.drop 1
  chain.headD "" ++ if causes.isEmpty then "" else "\n\nCaused by:" ++ numbered 1 causes

def ofChain (chain : List String) : Report :=
  { error := .other (explained chain) }

def ofCauses (causes : List Cause) : Report :=
  let chain := causes.map (·.text)
  match causes.findSome? Cause.compileError? with
  | some error => ofError error.settled
  | none =>
    match causes.findSome? Cause.ioError? with
    | some ⟨.permissionDenied, _⟩ =>
      { error := .other (chain.headD "")
        details := some "The compiler did not have permission to read or write a file"
        suggestion := some ("Check that the output directory is writable and the module files " ++
          "are readable") }
    | some ⟨.notFound, _⟩ =>
      { error := .other (chain.headD "")
        suggestion := some "Check that the file or directory exists and the path is correct" }
    | _ => ofChain chain

def ofFailure (failure : Failure) : Report :=
  ofCauses failure.causes

def text (report : Report) : String :=
  report.error.message ++
    report.details.elim "" ("\nDetails: " ++ ·) ++
    report.suggestion.elim "" ("\nSuggestion: " ++ ·)

def printed (report : Report) (color : Bool) : String :=
  Style.boldRed.paint color "error" ++ ": " ++ report.error.message ++ "\n" ++
    report.details.elim "" (Style.yellow.paint color "details" ++ ": " ++ · ++ "\n") ++
    report.suggestion.elim "" (Style.green.paint color "suggestion" ++ ": " ++ · ++ "\n")

end Report

end ApplianceScript
