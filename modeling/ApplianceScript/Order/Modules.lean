import ApplianceScript.Module.Catalog
import ApplianceScript.Weights.Table

namespace ApplianceScript

def ConfigModule.item (m : ConfigModule) : Item :=
  ⟨m.name, m.dependencies⟩

namespace Catalog

def scope (catalog : Catalog) : Scope :=
  { items := catalog.modules.map (·.item), frozen := fun _ => false }

def scopeLabel : String := "modules"

def installOrder (catalog : Catalog) : Warned (List String) :=
  (catalog.scope.weigh scopeLabel).map (·.descending)

end Catalog

end ApplianceScript
