import ApplianceScript.Version

namespace ApplianceScript

structure Placeholder where
  name : String
  expression : String
deriving DecidableEq, Repr

inductive Direction
  | install
  | uninstall
deriving DecidableEq, Repr

structure Commands where
  install : String := ""
  uninstall : String := ""
deriving DecidableEq, Repr

def Commands.text (commands : Commands) : Direction → String
  | .install => commands.install
  | .uninstall => commands.uninstall

structure Element where
  name : String
  references : List String := []
  dependencies : List String := []
  commands : Commands := {}
deriving DecidableEq, Repr

structure Section where
  name : String
  elements : List Element := []
deriving DecidableEq, Repr

structure ConfigModule where
  name : String
  version : Option Version := none
  dependencies : List String := []
  placeholders : List Placeholder := []
  sections : List Section := []
deriving DecidableEq, Repr

namespace ConfigModule

def elements (m : ConfigModule) : List Element :=
  m.sections.flatMap (·.elements)

def elementNames (m : ConfigModule) : List String :=
  m.elements.map (·.name)

def element? (m : ConfigModule) (name : String) : Option Element :=
  m.elements.find? (·.name == name)

end ConfigModule

end ApplianceScript
