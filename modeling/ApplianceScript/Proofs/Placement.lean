import ApplianceScript.Proofs.BuiltPlan
import Mathlib

namespace ApplianceScript

namespace Plan

def position (plan : Plan) (moduleName : String) : Nat := plan.installOrder.idxOf moduleName

def OwnedEarlier (plan : Plan) (moduleName element : String) : Prop :=
  ∃ owner, plan.catalog.defines element owner = true ∧
    plan.position owner < plan.position moduleName

def orderedNames (plan : Plan) (direction : Direction) (moduleName : String) : List String :=
  (plan.elementOrder? moduleName).elim [] (·.names direction)

def placements (plan : Plan) (direction : Direction) : List (String × String) :=
  (plan.moduleNames direction).flatMap fun m => (plan.orderedNames direction m).map (m, ·)

theorem placements_map_snd (plan : Plan) :
    (plan.placements .install).map (·.2) =
      plan.installOrder.flatMap (plan.orderedNames .install) := by
  simp [placements, List.map_flatMap, moduleNames]

variable {plan : Plan} {catalog : Catalog}

namespace IsPlanOf

theorem nodup_installOrder (hp : plan.IsPlanOf catalog) : plan.installOrder.Nodup :=
  Catalog.nodup_installOrder hp.installOrder

theorem mem_installOrder_iff (hp : plan.IsPlanOf catalog) (name : String) :
    name ∈ plan.installOrder ↔ name ∈ catalog.names :=
  Catalog.mem_installOrder_iff hp.installOrder name

theorem mem_installOrder_of_defines (hp : plan.IsPlanOf catalog) {element moduleName : String}
    (hd : plan.catalog.defines element moduleName = true) : moduleName ∈ plan.installOrder := by
  rw [hp.catalog_eq, Catalog.defines_iff] at hd
  obtain ⟨m, hm, rfl, _⟩ := hd
  exact Catalog.name_mem_installOrder hp.installOrder hm

theorem elementOrders_keys (hp : plan.IsPlanOf catalog) :
    plan.elementOrders.map (·.1) = plan.installOrder := by
  obtain ⟨ownership, _, hall⟩ := hp.elementOrders
  rw [← List.zipIdx_map_fst 0 plan.installOrder]
  symm
  apply map_eq_map_of_forall₂ hall
  rintro ⟨name, position⟩ entry ⟨m, order, _, _, rfl⟩
  rfl

theorem elementOrder?_eq_some_iff (hp : plan.IsPlanOf catalog) (name : String)
    (order : ElementOrder) :
    plan.elementOrder? name = some order ↔ (name, order) ∈ plan.elementOrders := by
  have hn : (plan.elementOrders.map (·.1)).Nodup := hp.elementOrders_keys ▸ hp.nodup_installOrder
  exact lookup_eq_some_iff hn name order

theorem elementOrder?_isSome_iff (hp : plan.IsPlanOf catalog) (name : String) :
    (plan.elementOrder? name).isSome = true ↔ name ∈ catalog.names := by
  rw [← hp.mem_installOrder_iff, ← hp.elementOrders_keys, Option.isSome_iff_exists]
  simp [hp.elementOrder?_eq_some_iff]

theorem exists_weights (hp : plan.IsPlanOf catalog) {m : ConfigModule} (hm : m ∈ catalog.modules) :
    m.elementNames.Nodup ∧ ∃ (settled : String → Bool) (table : WeightTable),
      (∀ element, settled element = true ↔ plan.OwnedEarlier m.name element) ∧
      ((m.scope settled).weigh m.scopeLabel).result = .ok table ∧
      plan.elementOrder? m.name = some ⟨table.descending.filter (!settled ·)⟩ := by
  obtain ⟨ownership, hownership, hall⟩ := hp.elementOrders
  have hmem := Catalog.name_mem_installOrder hp.installOrder hm
  have hlt : plan.position m.name < plan.installOrder.length := List.idxOf_lt_length_of_mem hmem
  have hentry : (m.name, plan.position m.name) ∈ plan.installOrder.zipIdx := by
    rw [List.mem_zipIdx_iff_getElem?, List.getElem?_eq_getElem hlt]
    exact congrArg some (List.getElem_idxOf hlt)
  obtain ⟨entry, hin, found, order, hget, hresult, rfl⟩ := exists_of_forall₂_of_mem hall hentry
  obtain rfl : m = found :=
    Option.some.inj (((catalog.get?_eq_some_iff m.name m).mpr ⟨hm, rfl⟩).symm.trans hget)
  obtain ⟨hn, table, hw, rfl⟩ := (m.elementOrder_eq_ok_iff _ _ _).mp hresult
  refine ⟨hn, _, table, ?_, hw, (hp.elementOrder?_eq_some_iff ..).mpr hin⟩
  intro element
  rw [OwnedEarlier, hp.catalog_eq]
  exact Catalog.settledBefore_idxOf_iff hp.installOrder hownership m.name element

theorem mem_orderedNames_iff (hp : plan.IsPlanOf catalog) (direction : Direction)
    {m : ConfigModule} (hm : m ∈ catalog.modules) (element : String) :
    element ∈ plan.orderedNames direction m.name ↔
      element ∈ m.elementNames ∧ ¬ plan.OwnedEarlier m.name element := by
  obtain ⟨_, settled, table, hsettled, hw, horder⟩ := hp.exists_weights hm
  have hinstall : element ∈ table.descending.filter (!settled ·) ↔
      element ∈ m.elementNames ∧ ¬ plan.OwnedEarlier m.name element := by
    rw [List.mem_filter, (Scope.descending_perm_names hw).mem_iff, m.mem_names_scope_iff,
      ← hsettled]
    simp
  rw [orderedNames, horder, Option.elim_some]
  cases direction with
  | install => exact hinstall
  | uninstall => exact List.mem_reverse.trans hinstall

theorem nodup_orderedNames (hp : plan.IsPlanOf catalog) {m : ConfigModule}
    (hm : m ∈ catalog.modules) : (plan.orderedNames .install m.name).Nodup := by
  obtain ⟨_, settled, table, _, hw, horder⟩ := hp.exists_weights hm
  rw [orderedNames, horder, Option.elim_some]
  exact ((Scope.descending_perm_names hw).nodup_iff.mpr (Scope.nodup_names _)).filter _

theorem mem_placements_iff (hp : plan.IsPlanOf catalog) (direction : Direction)
    (moduleName element : String) :
    (moduleName, element) ∈ plan.placements direction ↔
      catalog.defines element moduleName = true ∧ ¬ plan.OwnedEarlier moduleName element := by
  have hmodules : moduleName ∈ plan.moduleNames direction ↔ moduleName ∈ catalog.names := by
    rw [← hp.mem_installOrder_iff]
    cases direction with
    | install => exact Iff.rfl
    | uninstall => exact List.mem_reverse
  have hmem : (moduleName, element) ∈ plan.placements direction ↔
      moduleName ∈ catalog.names ∧ element ∈ plan.orderedNames direction moduleName := by
    simp only [placements, List.mem_flatMap, List.mem_map, Prod.mk.injEq, ← hmodules]
    constructor
    · rintro ⟨name, hname, entry, hentry, rfl, rfl⟩
      exact ⟨hname, hentry⟩
    · rintro ⟨hname, hentry⟩
      exact ⟨moduleName, hname, element, hentry, rfl, rfl⟩
  rw [hmem, Catalog.defines_iff]
  constructor
  · rintro ⟨hname, hentry⟩
    obtain ⟨m, hm, rfl⟩ := List.mem_map.mp hname
    obtain ⟨hd, hfirst⟩ := (hp.mem_orderedNames_iff direction hm element).mp hentry
    exact ⟨⟨m, hm, rfl, hd⟩, hfirst⟩
  · rintro ⟨⟨m, hm, rfl, hd⟩, hfirst⟩
    exact ⟨List.mem_map_of_mem hm, (hp.mem_orderedNames_iff direction hm element).mpr ⟨hd, hfirst⟩⟩

theorem exists_owner (hp : plan.IsPlanOf catalog) {element definer : String}
    (hd : catalog.defines element definer = true) :
    ∃ owner, catalog.defines element owner = true ∧ ¬ plan.OwnedEarlier owner element ∧
      plan.position owner ≤ plan.position definer := by
  induction hn : plan.position definer using Nat.strongRecOn generalizing definer with
  | _ n ih =>
    by_cases hearlier : plan.OwnedEarlier definer element
    · obtain ⟨owner, howner, hlt⟩ := hearlier
      obtain ⟨first, hfirst, hnot, hle⟩ :=
        ih (plan.position owner) (hn ▸ hlt) (hp.catalog_eq ▸ howner) rfl
      exact ⟨first, hfirst, hnot, by omega⟩
    · exact ⟨definer, hd, hearlier, hn.le⟩

theorem eq_of_mem_placements (hp : plan.IsPlanOf catalog) {direction : Direction}
    {first second element : String} (hf : (first, element) ∈ plan.placements direction)
    (hs : (second, element) ∈ plan.placements direction) : first = second := by
  obtain ⟨hdf, hnf⟩ := (hp.mem_placements_iff direction first element).mp hf
  obtain ⟨hds, hns⟩ := (hp.mem_placements_iff direction second element).mp hs
  rw [← hp.catalog_eq] at hdf hds
  have hle : ¬ plan.position first < plan.position second := fun h => hns ⟨first, hdf, h⟩
  have hge : ¬ plan.position second < plan.position first := fun h => hnf ⟨second, hds, h⟩
  have hsame : plan.position first = plan.position second := by omega
  exact (List.idxOf_inj (hp.mem_installOrder_of_defines hdf)).mp hsame

theorem nodup_placements (hp : plan.IsPlanOf catalog) :
    ((plan.placements .install).map (·.2)).Nodup := by
  rw [placements_map_snd, List.nodup_flatMap]
  constructor
  · intro name hname
    obtain ⟨m, hm, rfl⟩ := List.mem_map.mp ((hp.mem_installOrder_iff name).mp hname)
    exact hp.nodup_orderedNames hm
  · apply hp.nodup_installOrder.pairwise_of_forall_ne
    intro first hf second hs hne element hef hes
    have hplaced {name : String} (hname : name ∈ plan.installOrder)
        (he : element ∈ plan.orderedNames .install name) :
        (name, element) ∈ plan.placements .install :=
      List.mem_flatMap.mpr ⟨name, hname, List.mem_map_of_mem he⟩
    exact hne (hp.eq_of_mem_placements (hplaced hf hef) (hplaced hs hes))

end IsPlanOf

theorem placements_uninstall (plan : Plan) :
    plan.placements .uninstall = (plan.placements .install).reverse := by
  have hblock (m : String) : (plan.orderedNames .uninstall m).map (m, ·) =
      ((plan.orderedNames .install m).map (m, ·)).reverse := by
    rw [← List.map_reverse]
    congr 1
    unfold orderedNames
    cases plan.elementOrder? m <;> rfl
  simp only [placements, moduleNames, uninstallOrder, List.reverse_flatMap, hblock,
    Function.comp_def]

theorem placements_partition {schedule : Schedule} {width : Nat} {catalog : Catalog} {plan : Plan}
    (built : (buildBy schedule width catalog).result = .ok plan) :
    plan.installOrder.Perm catalog.names ∧
      (∀ name, (plan.elementOrder? name).isSome = true ↔ name ∈ catalog.names) ∧
      ∀ direction element,
        ((plan.placements direction).map (·.2)).count element =
            (if catalog.modules.any (element ∈ ·.elementNames) then 1 else 0) ∧
          ∀ moduleName, (moduleName, element) ∈ plan.placements direction ↔
            catalog.defines element moduleName = true ∧
              ∀ other, catalog.defines element other = true →
                plan.position moduleName ≤ plan.position other := by
  have hp := isPlanOf_of_buildBy built
  refine ⟨Catalog.installOrder_perm hp.installOrder, hp.elementOrder?_isSome_iff, ?_⟩
  intro direction element
  constructor
  · have hcount : ((plan.placements direction).map (·.2)).count element =
        ((plan.placements .install).map (·.2)).count element := by
      cases direction with
      | install => rfl
      | uninstall => rw [placements_uninstall, List.map_reverse, List.count_reverse]
    rw [hcount, hp.nodup_placements.count]
    congr 1
    rw [eq_iff_iff, List.any_eq_true, List.mem_map]
    constructor
    · rintro ⟨⟨moduleName, _⟩, hplaced, rfl⟩
      have hd := ((hp.mem_placements_iff ..).mp hplaced).1
      obtain ⟨m, hm, _, he⟩ := (catalog.defines_iff ..).mp hd
      exact ⟨m, hm, decide_eq_true he⟩
    · rintro ⟨m, hm, he⟩
      have hd := (catalog.defines_iff ..).mpr ⟨m, hm, rfl, of_decide_eq_true he⟩
      obtain ⟨owner, howner, hfirst, _⟩ := hp.exists_owner hd
      exact ⟨(owner, element), (hp.mem_placements_iff ..).mpr ⟨howner, hfirst⟩, rfl⟩
  · intro moduleName
    rw [hp.mem_placements_iff, OwnedEarlier, hp.catalog_eq]
    simp only [not_exists, not_and, not_lt]

end Plan

namespace Sample

def core : ConfigModule :=
  { name := "Core"
    version := some ⟨2, 1⟩
    placeholders := [⟨"NSIP", "10.0.0.1"⟩]
    sections := [{
      name := "base"
      elements := [
        { name := "ip", dependencies := ["mode"], commands := ⟨"add ip NSIP", "rm ip NSIP"⟩ },
        { name := "mode", commands := ⟨"enable mode_V_", ""⟩ }] }] }

def network : ConfigModule :=
  { name := "Network"
    dependencies := ["Core"]
    sections := [{
      name := "routing"
      elements := [
        { name := "route", dependencies := ["mode", "vlan"] },
        { name := "mode", dependencies := ["ghost"] },
        { name := "vlan" },
        { name := "ring", dependencies := ["ring", "vlan"] }] }] }

def catalog : Catalog := ⟨[network, core], by decide⟩

def plan : Plan :=
  { catalog := catalog
    installOrder := ["Core", "Network"]
    elementOrders := [("Core", ⟨["mode", "ip"]⟩), ("Network", ⟨["vlan", "ring", "route"]⟩)]
    placeholders := ⟨[("NSIP", "10.0.0.1")]⟩
    version := ⟨2, 1⟩ }

theorem built : (Plan.buildBy [1] 2 catalog).result = .ok plan := by cbv

end Sample

namespace Plan

theorem sample_mode_placed_once :
    (buildBy [1] 2 Sample.catalog).result = .ok Sample.plan ∧
      ((Sample.plan.placements .uninstall).map (·.2)).count "mode" = 1 := by
  obtain ⟨_, _, hplaced⟩ := placements_partition Sample.built
  exact ⟨Sample.built, (hplaced .uninstall "mode").1.trans (by decide)⟩

end Plan

end ApplianceScript
