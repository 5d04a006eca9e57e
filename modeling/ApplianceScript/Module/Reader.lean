import ApplianceScript.Module.Basic
import ApplianceScript.Text.Blank
import ApplianceScript.Yaml.Decode

namespace ApplianceScript

open Yaml (Node Decoder Document)
open Yaml.Decoder

namespace Version

def decode (node : Node) : Decoder Version := do
  let fields ← record ["major", "minor"] node
  return { major := ← required fields "major" word, minor := ← required fields "minor" word }

end Version

namespace Placeholder

def decode (node : Node) : Decoder Placeholder := do
  let fields ← record ["name", "expression"] node
  return {
    name := ← required fields "name" string
    expression := ← defaulted fields "expression" "" string }

end Placeholder

namespace Commands

def decode (node : Node) : Decoder Commands := do
  let fields ← record ["install", "uninstall"] node
  return {
    install := ← defaulted fields "install" "" string
    uninstall := ← defaulted fields "uninstall" "" string }

end Commands

namespace Element

def decode (node : Node) : Decoder Element := do
  let fields ← record ["name", "references", "dependencies", "expressions"] node
  return {
    name := ← required fields "name" string
    references := ← defaulted fields "references" [] (list string)
    dependencies := ← defaulted fields "dependencies" [] (list string)
    commands := ← defaulted fields "expressions" {} Commands.decode }

end Element

namespace Section

def decode (node : Node) : Decoder Section := do
  let fields ← record ["name", "elements"] node
  return {
    name := ← required fields "name" string
    elements := ← defaulted fields "elements" [] (list Element.decode) }

end Section

namespace ConfigModule

def decode (node : Node) : Decoder ConfigModule := do
  let fields ← record ["name", "version", "dependencies", "placeholders", "sections"] node
  return {
    name := ← required fields "name" string
    version := ← defaulted fields "version" none (optional Version.decode)
    dependencies := ← defaulted fields "dependencies" [] (list string)
    placeholders := ← defaulted fields "placeholders" [] (list Placeholder.decode)
    sections := ← defaulted fields "sections" [] (list Section.decode) }

inductive ReadFault
  | notYaml
  | blankName
deriving DecidableEq, Repr

def ReadFault.reason : ReadFault → String
  | notYaml => "not a module definition in YAML"
  | blankName => "module name is empty"

def readWith (parse : String → Option ConfigModule) (content : String) :
    Except ReadFault ConfigModule :=
  match parse content with
  | none => .error .notYaml
  | some m => if Text.isBlank m.name then .error .blankName else .ok m

def parseYaml? (content : String) : Option ConfigModule :=
  (Document.parse? content).bind (Yaml.Decoder.run? decode)

def read (content : String) : Except ReadFault ConfigModule :=
  readWith parseYaml? content

end ConfigModule

end ApplianceScript
