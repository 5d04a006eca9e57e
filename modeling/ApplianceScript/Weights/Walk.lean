/-!
Walks along dependencies, as the list of their steps.

A scope holds named items, each with the names it depends on. A walk starts at every item that is
not frozen and follows each dependency in turn, skipping frozen names. A name that is already on
the walk's own path is reached once more and closes a cycle; it is not followed again. So the path
never repeats a name, and the walk ends for every scope.
-/

namespace ApplianceScript

structure Item where
  name : String
  dependencies : List String
deriving DecidableEq, Repr

structure Scope where
  items : List Item
  frozen : String → Bool

namespace Scope

def names (scope : Scope) : List String :=
  (scope.items.map (·.name)).eraseDups

def item? (scope : Scope) (name : String) : Option Item :=
  scope.items.findRev? (·.name == name)

end Scope

inductive Step
  | reach (name : String)
  /-- The name just reached is on the path: the path from there, closed by the name. -/
  | close (cycle : List String)
  | missing (item dependency : String)
deriving DecidableEq, Repr

def closing (path : List String) (name : String) : List String :=
  path.dropWhile (· != name) ++ [name]

namespace Scope

def ahead (scope : Scope) (path : List String) : Nat :=
  ((scope.items.map (·.name)).filter (· ∉ path)).length

theorem name_of_item? {scope : Scope} {name : String} {item : Item}
    (h : scope.item? name = some item) : item ∈ scope.items ∧ item.name = name := by
  unfold item? at h
  rw [List.findRev?_eq_find?_reverse] at h
  exact ⟨List.mem_reverse.mp (List.mem_of_find?_eq_some h), by simpa using List.find?_some h⟩

theorem ahead_append {scope : Scope} {path : List String} {name : String} {item : Item}
    (found : scope.item? name = some item) (fresh : name ∉ path) :
    scope.ahead (path ++ [name]) < scope.ahead path := by
  obtain ⟨member, rfl⟩ := name_of_item? found
  have named : item.name ∈ scope.items.map (·.name) := List.mem_map_of_mem member
  unfold ahead
  generalize scope.items.map (·.name) = names at named
  induction names with
  | nil => cases named
  | cons head tail ih =>
    have le : (tail.filter (· ∉ path ++ [item.name])).length ≤
        (tail.filter (· ∉ path)).length := by
      simp only [← List.countP_eq_length_filter]
      exact List.countP_mono_left (by simp; intros; assumption)
    by_cases same : head = item.name
    · rw [List.filter_cons, List.filter_cons]
      simpa [same, fresh] using Nat.lt_succ_of_le le
    · have := ih ((List.mem_cons.mp named).resolve_left fun h => same h.symm)
      by_cases on : head ∈ path <;> simp [on, same] at * <;> omega

/-- The steps of following the dependencies of `item`, at the end of `path`. -/
def follow (scope : Scope) (path : List String) (item : Item) : List Step :=
  item.dependencies.flatMap fun dependency =>
    if scope.frozen dependency then []
    else
      match _found : scope.item? dependency with
      | none => [.missing item.name dependency]
      | some next =>
        if _on : dependency ∈ path then
          [.reach dependency, .close (closing path dependency)]
        else
          .reach dependency :: scope.follow (path ++ [dependency]) next
termination_by scope.ahead path
decreasing_by exact ahead_append _found _on

def walkFrom (scope : Scope) (name : String) : List Step :=
  match scope.item? name with
  | some item => if scope.frozen name then [] else .reach name :: scope.follow [name] item
  | none => []

def walk (scope : Scope) : List Step :=
  scope.names.flatMap scope.walkFrom

end Scope

end ApplianceScript
