namespace ApplianceScript

inductive IoErrorKind
  | notFound
  | permissionDenied
  | alreadyExists
  | notADirectory
  | isADirectory
  | directoryNotEmpty
  | resourceBusy
  | invalidInput
  | invalidData
  | invalidFilename
  | other (name : String)
deriving DecidableEq, Repr

structure IoError where
  kind : IoErrorKind
  text : String
deriving DecidableEq, Repr

namespace IoErrorKind

def text : IoErrorKind → String
  | notFound => "No such file or directory"
  | permissionDenied => "Permission denied"
  | alreadyExists => "File exists"
  | notADirectory => "Not a directory"
  | isADirectory => "Is a directory"
  | directoryNotEmpty => "Directory not empty"
  | resourceBusy => "Device or resource busy"
  | invalidInput => "Invalid argument"
  | invalidData => "stream did not contain valid UTF-8"
  | invalidFilename => "File name too long"
  | other name => name

def error (kind : IoErrorKind) : IoError := ⟨kind, kind.text⟩

end IoErrorKind

inductive CompileError
  | duplicatePlaceholder (name firstModule secondModule : String)
  | invalidPlaceholder (moduleName reason : String)
  | missingCoreModule
  | missingCoreVersion
  | unresolvedPlaceholders (markers : List String) (passes : Nat)
  | duplicateModule (name first second : String)
  | duplicateElement (moduleName element : String)
  | unresolvedDependency (scope item dependency : String)
  | elementNotFound (moduleName element : String)
  | moduleNotFound (name : String)
  | moduleSyntax (file reason : String)
  | searchPathNotFound (path : String)
  | settings (message : String)
  | io (error : IoError)
  | other (message : String)
deriving DecidableEq, Repr

def CompileError.message : CompileError → String
  | duplicatePlaceholder name first second =>
    "Duplicate placeholder '" ++ name ++ "' defined in modules '" ++ first ++ "' and '" ++
      second ++ "'"
  | invalidPlaceholder moduleName reason =>
    "Invalid placeholder in module '" ++ moduleName ++ "': " ++ reason
  | missingCoreModule => "Module 'Core' not found"
  | missingCoreVersion => "Module 'Core' does not define a version"
  | unresolvedPlaceholders markers passes =>
    "Unresolved placeholders after " ++ toString passes ++ " passes: " ++
      ", ".intercalate markers
  | duplicateModule name first second =>
    "Duplicate module '" ++ name ++ "' (" ++ first ++ " and " ++ second ++ ")"
  | duplicateElement moduleName element =>
    "Duplicate element '" ++ element ++ "' in module '" ++ moduleName ++ "'"
  | unresolvedDependency scope item dependency =>
    "'" ++ item ++ "' in " ++ scope ++ " depends on unknown '" ++ dependency ++ "'"
  | elementNotFound moduleName element =>
    "Element '" ++ element ++ "' not found in module '" ++ moduleName ++ "'"
  | moduleNotFound name => "Module '" ++ name ++ "' not found"
  | moduleSyntax file _ => "Invalid module file syntax in " ++ file
  | searchPathNotFound path => "Search path not found: " ++ path
  | settings message => "Configuration error: " ++ message
  | io error => "IO error: " ++ error.text
  | other message => message

inductive Cause
  | compile (error : CompileError)
  | io (error : IoError)
  | settingsSyntax (reason : String)
  | plain (message : String)
deriving DecidableEq, Repr

namespace Cause

def text : Cause → String
  | compile error => error.message
  | io error => error.text
  | settingsSyntax reason => reason
  | plain message => message

/-- What a cause stems from in its turn. -/
def sources : Cause → List Cause
  | compile (.io error) => [io error]
  | _ => []

def compileError? : Cause → Option CompileError
  | compile error => some error
  | _ => none

def ioError? : Cause → Option IoError
  | io error => some error
  | _ => none

end Cause

structure Failure where
  contexts : List String := []
  cause : Cause
deriving DecidableEq, Repr

namespace Failure

def causes (failure : Failure) : List Cause :=
  failure.contexts.map .plain ++ failure.cause :: failure.cause.sources

def chain (failure : Failure) : List String :=
  failure.causes.map (·.text)

def within (context : String) (failure : Failure) : Failure :=
  { failure with contexts := context :: failure.contexts }

def ofCompile (error : CompileError) : Failure := { cause := .compile error }

def ofIo (context : String) (error : IoError) : Failure :=
  { contexts := [context], cause := .io error }

def plain (message : String) : Failure := { cause := .plain message }

end Failure

end ApplianceScript
