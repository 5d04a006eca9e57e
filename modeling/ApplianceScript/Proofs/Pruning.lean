import ApplianceScript.Proofs.BuiltPlan
import Mathlib

namespace ApplianceScript

namespace WeightTable

def restrict (p : String → Bool) (table : WeightTable) : WeightTable :=
  { table with entries := table.entries.filter (p ·.1) }

theorem descending_restrict (p : String → Bool) (table : WeightTable) :
    (table.restrict p).descending = table.descending.filter p := by
  rw [descending, descending, List.filter_map, restrict]
  congr 1
  exact (filter_mergeSort heavier_trans heavier_total _ table.entries).symm

theorem ofSteps_filter (p : String → Bool) (names : List String) (steps : List Step) :
    ofSteps (names.filter p) steps = (ofSteps names steps).restrict p := by
  simp only [restrict, ofSteps, List.filter_map, Function.comp_def]

end WeightTable

def Item.forget (settled : String → Bool) (item : Item) : Item :=
  { item with dependencies := item.dependencies.filter (!settled ·) }

namespace Scope

def pruned (scope : Scope) : Scope where
  items := (scope.items.filter (!scope.frozen ·.name)).map (·.forget scope.frozen)
  frozen _ := false

variable (scope : Scope)

theorem names_pruned : scope.pruned.names = scope.names.filter (!scope.frozen ·) := by
  rw [names, names, ← eraseDups_filter, List.filter_map, pruned, List.map_map]
  rfl

theorem item?_pruned {name : String} (hf : scope.frozen name = false) :
    scope.pruned.item? name = (scope.item? name).map (·.forget scope.frozen) := by
  simp only [item?, pruned, List.findRev?_eq_find?_reverse, ← List.map_reverse,
    ← List.filter_reverse, List.find?_map, List.find?_filter]
  congr 2
  funext item
  by_cases hname : item.name = name
  · simp [hname, hf, Item.forget]
  · simp [hname, Item.forget]

theorem mem_names_pruned_iff {name : String} (hf : scope.frozen name = false) :
    name ∈ scope.pruned.names ↔ name ∈ scope.names := by
  simp [names_pruned, hf]

theorem follow_pruned (path : List String) (item : Item) :
    scope.pruned.follow path (item.forget scope.frozen) = scope.follow path item := by
  induction path, item using follow.induct scope with
  | case1 path item ih =>
    have hskip : ∀ b ∈ item.dependencies, (!scope.frozen b) = false →
        scope.branch path item b = [] := fun b _ hf =>
      scope.branch_frozen path item (by simpa using hf)
    rw [follow_eq, follow_eq, ← flatMap_filter_of_nil hskip]
    -- The names left in the list are free, and to those both scopes answer alike.
    apply List.flatMap_congr
    intro b hb
    have hfree := (List.mem_filter.mp hb).2
    rcases scope.branch_cases path item b with
      ⟨hf, _⟩ | ⟨hf, hn, heq⟩ | ⟨hf, hn, hp, heq⟩ | ⟨next, rfl, hi, hf, hp, heq⟩
    · simp [hf] at hfree
    · rw [heq, branch_missing _ _ _ rfl ((scope.mem_names_pruned_iff hf).not.mpr hn)]
      rfl
    · rw [heq, branch_closed _ _ _ rfl ((scope.mem_names_pruned_iff hf).mpr hn) hp]
    · have hnext : scope.pruned.item? next.name = some (next.forget scope.frozen) := by
        rw [item?_pruned _ hf, hi, Option.map_some]
      rw [heq, branch_open _ _ _ rfl hnext hp, ih next.name next hi hp]

theorem walk_pruned : scope.pruned.walk = scope.walk := by
  rw [walk_eq_follow, walk_eq_follow, names_pruned]
  exact scope.follow_pruned [] ⟨"", scope.names⟩

theorem weigh_pruned (label : String) :
    scope.pruned.weigh label = (scope.weigh label).map (·.restrict (!scope.frozen ·)) := by
  simp only [weigh, Warned.map, walk_pruned, names_pruned, WeightTable.ofSteps_filter]
  cases scope.walk.findSome? (·.fault? label) <;> rfl

end Scope

def Element.forget (settled : String → Bool) (element : Element) : Element :=
  { element with dependencies := element.dependencies.filter (!settled ·) }

def Section.without (settled : String → Bool) (s : Section) : Section :=
  { s with elements := (s.elements.filter (!settled ·.name)).map (·.forget settled) }

namespace ConfigModule

/-- The module without the settled elements, and without settled names in the dependency lists of
the others. -/
def without (m : ConfigModule) (settled : String → Bool) : ConfigModule :=
  { m with sections := m.sections.map (·.without settled) }

variable (m : ConfigModule) (settled : String → Bool)

theorem elements_without :
    (m.without settled).elements =
      (m.elements.filter (!settled ·.name)).map (·.forget settled) := by
  rw [elements, elements, without, List.flatMap_map, List.filter_flatMap, List.map_flatMap]
  rfl

theorem elementNames_without :
    (m.without settled).elementNames = m.elementNames.filter (!settled ·) := by
  rw [elementNames, elementNames, elements_without, List.filter_map, List.map_map]
  rfl

theorem scope_without : (m.without settled).scope (fun _ => false) = (m.scope settled).pruned := by
  rw [scope, Scope.pruned, elements_without, scope, List.filter_map, List.map_map, List.map_map]
  rfl

theorem elementOrder_of_nodup (hn : m.elementNames.Nodup) (position : Nat)
    (ownership : Ownership) :
    m.elementOrder position ownership =
      ((m.scope (ownership.settledBefore position)).weigh m.scopeLabel).map fun table =>
        ⟨table.descending.filter (!ownership.settledBefore position ·)⟩ := by
  rw [elementOrder, (firstRepeated_eq_none_iff [] m.elementNames).mpr ⟨hn, by simp⟩]

theorem elementOrder_without (hn : m.elementNames.Nodup) (position other : Nat)
    (ownership : Ownership) :
    (m.without (ownership.settledBefore position)).elementOrder other .empty =
        m.elementOrder position ownership ∧
      (((m.without (ownership.settledBefore position)).scope fun _ => false).weigh
          m.scopeLabel).result.map WeightTable.cycles =
        ((m.scope (ownership.settledBefore position)).weigh
          m.scopeLabel).result.map WeightTable.cycles := by
  have hempty : Ownership.empty.settledBefore other = fun _ => false := rfl
  have hnodup : (m.without (ownership.settledBefore position)).elementNames.Nodup := by
    rw [elementNames_without]
    exact hn.filter _
  have hlabel : (m.without (ownership.settledBefore position)).scopeLabel = m.scopeLabel := rfl
  constructor
  · rw [elementOrder_of_nodup _ hnodup, elementOrder_of_nodup _ hn, hempty, hlabel, scope_without,
      Scope.weigh_pruned, Warned.map_map]
    congr 1
    funext table
    simp [WeightTable.descending_restrict, scope]
  · rw [scope_without, Scope.weigh_pruned]
    unfold Warned.map
    cases ((m.scope (ownership.settledBefore position)).weigh m.scopeLabel).result <;> rfl

end ConfigModule

namespace Sample

def overlay : ConfigModule :=
  { name := "Overlay"
    sections := [
      { name := "base"
        elements := [{ name := "mode", dependencies := ["ghost", "route"] }, { name := "vlan" }] },
      { name := "routing"
        elements := [
          { name := "route", dependencies := ["mode", "ntp", "vlan"] },
          { name := "ring", dependencies := ["vlan", "ring"] }] }] }

def ownership : Ownership := ⟨[("mode", 0), ("ntp", 0), ("vlan", 1)]⟩

def cutback : ConfigModule :=
  { name := "Overlay"
    sections := [
      { name := "base", elements := [{ name := "vlan" }] },
      { name := "routing"
        elements := [
          { name := "route", dependencies := ["vlan"] },
          { name := "ring", dependencies := ["vlan", "ring"] }] }] }

theorem without_overlay : overlay.without (ownership.settledBefore 1) = cutback := by decide

theorem elementOrder_cutback : cutback.elementOrder 0 .empty =
    ⟨[⟨"module 'Overlay'", ["ring", "ring"]⟩], .ok ⟨["vlan", "ring", "route"]⟩⟩ := by cbv

end Sample

namespace ConfigModule

theorem sample_overlay_without_mode :
    Sample.overlay.elementNames.Nodup ∧
      Sample.overlay.without (Sample.ownership.settledBefore 1) = Sample.cutback ∧
      Sample.overlay.elementOrder 1 Sample.ownership =
        ⟨[⟨"module 'Overlay'", ["ring", "ring"]⟩], .ok ⟨["vlan", "ring", "route"]⟩⟩ := by
  have hn : Sample.overlay.elementNames.Nodup := by decide
  obtain ⟨horder, _⟩ := Sample.overlay.elementOrder_without hn 1 0 Sample.ownership
  rw [Sample.without_overlay, Sample.elementOrder_cutback] at horder
  exact ⟨hn, Sample.without_overlay, horder.symm⟩

end ConfigModule

end ApplianceScript
