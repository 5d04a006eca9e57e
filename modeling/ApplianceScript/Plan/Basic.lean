import ApplianceScript.Order.Elements
import ApplianceScript.Order.Modules
import ApplianceScript.Placeholders
import ApplianceScript.Plan.Schedule

/-!
Plans: everything that emission needs, worked out once from a catalog.

The elements of the modules are ordered by independent tasks. Their results are put together by
install position, so neither the schedule nor the number of tasks at a time shows, and of several
errors that of the module installed first is reported.
-/

namespace ApplianceScript

structure Plan where
  catalog : Catalog
  installOrder : List String
  elementOrders : List (String × ElementOrder)
  placeholders : PlaceholderTable
  version : Version

namespace Plan

def uninstallOrder (plan : Plan) : List String :=
  plan.installOrder.reverse

def moduleNames (plan : Plan) : Direction → List String
  | .install => plan.installOrder
  | .uninstall => plan.uninstallOrder

def elementOrder? (plan : Plan) (name : String) : Option ElementOrder :=
  plan.elementOrders.lookup name

structure Finished where
  position : Nat
  result : Except CompileError (String × ElementOrder)

def task (catalog : Catalog) (ownership : Ownership) (position : Nat) (name : String) :
    List CycleWarning × Finished :=
  match catalog.require name with
  | .error error => ([], ⟨position, .error error⟩)
  | .ok m =>
    let ordered := m.elementOrder position ownership
    (ordered.warnings, ⟨position, ordered.result.map ((name, ·))⟩)

def collect (finished : List Finished) : Except CompileError (List (String × ElementOrder)) :=
  (finished.mergeSort fun a b => a.position ≤ b.position).mapM (·.result)

def orderElements (schedule : Schedule) (width : Nat) (catalog : Catalog) (order : List String)
    (ownership : Ownership) : Warned (List (String × ElementOrder)) :=
  let tasks := order.zipIdx.map fun (name, position) => task catalog ownership position name
  let finished := Schedule.completions width schedule tasks
  { warnings := finished.flatMap (·.1), result := collect (finished.map (·.2)) }

def buildBy (schedule : Schedule) (width : Nat) (catalog : Catalog) : Warned Plan := do
  let version ← Warned.ofExcept catalog.coreVersion
  let placeholders ← Warned.ofExcept (PlaceholderTable.merge catalog)
  let installOrder ← catalog.installOrder
  let ownership ← Warned.ofExcept (Ownership.ofInstallOrder catalog installOrder)
  let elementOrders ← orderElements schedule width catalog installOrder ownership
  return { catalog, installOrder, elementOrders, placeholders, version }

def build (catalog : Catalog) (width : Nat) : Warned Plan :=
  buildBy [] width catalog

end Plan

end ApplianceScript
