import ApplianceScript.Order.Ownership
import ApplianceScript.Weights.Table

namespace ApplianceScript

structure ElementOrder where
  install : List String
deriving DecidableEq, Repr

namespace ElementOrder

def uninstall (order : ElementOrder) : List String :=
  order.install.reverse

def names (order : ElementOrder) : Direction → List String
  | .install => order.install
  | .uninstall => order.uninstall

def size (order : ElementOrder) : Nat :=
  order.install.length

end ElementOrder

def Element.item (element : Element) : Item :=
  ⟨element.name, element.dependencies⟩

def firstRepeated (seen : List String) : List String → Option String
  | [] => none
  | name :: rest => if name ∈ seen then some name else firstRepeated (name :: seen) rest

namespace ConfigModule

def scopeLabel (m : ConfigModule) : String :=
  "module '" ++ m.name ++ "'"

def scope (m : ConfigModule) (settled : String → Bool) : Scope :=
  { items := m.elements.map (·.item), frozen := settled }

def elementOrder (m : ConfigModule) (position : Nat) (ownership : Ownership) :
    Warned ElementOrder :=
  match firstRepeated [] m.elementNames with
  | some name => .error (.duplicateElement m.name name)
  | none =>
    let settled := ownership.settledBefore position
    ((m.scope settled).weigh m.scopeLabel).map fun table =>
      ⟨table.descending.filter (!settled ·)⟩

end ConfigModule

end ApplianceScript
