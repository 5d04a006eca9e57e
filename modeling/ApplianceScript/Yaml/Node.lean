import ApplianceScript.Yaml.Token

namespace ApplianceScript.Yaml

inductive Node
  | scalar (tag : Option String) (style : ScalarStyle) (text : String)
  | sequence (items : List Node)
  | mapping (entries : List (Node × Node))
  | alias (anchor : Nat)

def Node.absent : Node := .scalar none .plain ""

structure Anchored where
  number : Nat
  start : Nat
  node : Node

structure Document where
  root : Node
  anchors : List Anchored
  events : Nat

/-- The node of an anchor. Of several with one number the one that begins last counts. -/
def Document.anchored? (document : Document) (number : Nat) : Option Node :=
  let latest (best : Option Anchored) (a : Anchored) : Option Anchored :=
    match best with
    | some b => if b.start < a.start then some a else best
    | none => some a
  let candidates := document.anchors.filter (·.number = number)
  (candidates.foldl latest none).map (·.node)

end ApplianceScript.Yaml
