import ApplianceScript.Fault
import ApplianceScript.Weights.Walk

namespace ApplianceScript

structure CycleWarning where
  scope : String
  cycle : List String
deriving DecidableEq, Repr

def CycleWarning.message (warning : CycleWarning) : String :=
  "Dependency cycle in " ++ warning.scope ++ ": " ++ " → ".intercalate warning.cycle ++
    "; not expanding '" ++ warning.cycle.getLastD "" ++ "' further"

structure Warned (α : Type) where
  warnings : List CycleWarning
  result : Except CompileError α

namespace Warned

def ok (a : α) : Warned α := ⟨[], .ok a⟩

def error (e : CompileError) : Warned α := ⟨[], .error e⟩

def ofExcept (result : Except CompileError α) : Warned α := ⟨[], result⟩

def bind (first : Warned α) (next : α → Warned β) : Warned β :=
  match first.result with
  | .error e => ⟨first.warnings, .error e⟩
  | .ok a => ⟨first.warnings ++ (next a).warnings, (next a).result⟩

def map (f : α → β) (first : Warned α) : Warned β :=
  ⟨first.warnings, first.result.map f⟩

instance : Monad Warned where
  pure := ok
  bind := bind

end Warned

structure WeightTable where
  entries : List (String × Nat)
  cycles : List (List String)
deriving DecidableEq, Repr

namespace WeightTable

def weight? (table : WeightTable) (name : String) : Option Nat :=
  table.entries.lookup name

def size (table : WeightTable) : Nat :=
  table.entries.length

def descending (table : WeightTable) : List String :=
  (table.entries.mergeSort fun a b => b.2 ≤ a.2).map (·.1)

end WeightTable

namespace Step

def isMissing : Step → Bool
  | missing .. => true
  | _ => false

def cycle? : Step → Option (List String)
  | close cycle => some cycle
  | _ => none

def fault? (label : String) : Step → Option CompileError
  | missing item dependency => some (.unresolvedDependency label item dependency)
  | _ => none

end Step

def WeightTable.ofSteps (names : List String) (steps : List Step) : WeightTable where
  entries := names.map fun name => (name, steps.count (.reach name))
  cycles := steps.filterMap Step.cycle?

namespace Scope

/-- Counts the weights of a scope. The label only words warnings and errors. -/
def weigh (scope : Scope) (label : String) : Warned WeightTable :=
  let steps := scope.walk
  let table := WeightTable.ofSteps scope.names (steps.takeWhile (!·.isMissing))
  { warnings := table.cycles.map (⟨label, ·⟩)
    result :=
      match steps.findSome? (·.fault? label) with
      | some error => .error error
      | none => .ok table }

end Scope

end ApplianceScript
