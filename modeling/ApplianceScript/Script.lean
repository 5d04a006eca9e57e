import ApplianceScript.Plan.Basic
import ApplianceScript.Text.Blank
import ApplianceScript.Text.Lines

namespace ApplianceScript

namespace Banner

def rule : String :=
  "#------------------------------------------------------------"

def lines (word name : String) : List String :=
  [rule, "# " ++ word ++ " MODULE: " ++ name, rule]

def start (name : String) : List String := lines "BEGIN" name

def finish (name : String) : List String := lines "END" name

end Banner

structure Block where
  name : String
  texts : List String
deriving DecidableEq, Repr

def commandLines (text : String) : List String :=
  (Text.lines text).filter (!Text.isBlank ·)

namespace Plan

def elementText (m : ConfigModule) (direction : Direction) (element : String) :
    Except CompileError String :=
  match m.elements.findRev? (·.name == element) with
  | some found => .ok (found.commands.text direction)
  | none => .error (.elementNotFound m.name element)

def block (plan : Plan) (direction : Direction) (name : String) : Except CompileError Block := do
  let m ← plan.catalog.require name
  match plan.elementOrder? name with
  | none => .error (.moduleNotFound name)
  | some order =>
    let texts ← (order.names direction).mapM (elementText m direction)
    return ⟨name, texts⟩

def blocks (plan : Plan) (direction : Direction) : Except CompileError (List Block) :=
  (plan.moduleNames direction).mapM (plan.block direction)

/-- Hands every block its share of the finished texts and frames it. -/
def frame : List Block → List String → List String
  | [], _ => []
  | block :: rest, texts =>
    Banner.start block.name ++ (texts.take block.texts.length).flatMap commandLines ++
      Banner.finish block.name ++ frame rest (texts.drop block.texts.length)

def emit (plan : Plan) (direction : Direction) : Except CompileError (List String) := do
  let blocks ← plan.blocks direction
  let resolved ← plan.placeholders.resolve (blocks.flatMap (·.texts))
  return frame blocks (plan.version.stampAll resolved)

end Plan

structure Scripts where
  install : List String
  uninstall : List String
deriving DecidableEq, Repr

def Scripts.lines (scripts : Scripts) : Direction → List String
  | .install => scripts.install
  | .uninstall => scripts.uninstall

def Plan.scripts (plan : Plan) : Except CompileError Scripts := do
  let install ← plan.emit .install
  let uninstall ← plan.emit .uninstall
  return { install, uninstall }

end ApplianceScript
