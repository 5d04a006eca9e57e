import ApplianceScript.Proofs.BuiltPlan
import Mathlib

namespace ApplianceScript

namespace WeightTable

theorem weight?_ofSteps (names : List String) (steps : List Step) (name : String) :
    (ofSteps names steps).weight? name =
      if name ∈ names then some (steps.count (.reach name)) else none :=
  lookup_map_self (fun name => steps.count (Step.reach name)) names name

theorem pair_sublist_of_tie {names : List String} {steps : List Step} {a b : String}
    (hs : List.Sublist [a, b] names)
    (htie : steps.count (.reach a) = steps.count (.reach b)) :
    List.Sublist [a, b] (ofSteps names steps).descending := by
  let entry (name : String) : String × Nat := (name, steps.count (.reach name))
  have hentries : List.Sublist [entry a, entry b] (ofSteps names steps).entries :=
    hs.map entry
  have hsorted : List.Sublist [entry a, entry b]
      ((ofSteps names steps).entries.mergeSort fun a b => decide (b.2 ≤ a.2)) :=
    List.pair_sublist_mergeSort heavier_trans heavier_total (by simp [entry, htie]) hentries
  exact hsorted.map (·.1)

end WeightTable

namespace Scope

def Outranks (scope : Scope) (table : WeightTable) (a b : String) : Prop :=
  ∃ first second, table.weight? a = some first ∧ table.weight? b = some second ∧
    (second < first ∨
      first = second ∧
        (scope.items.map (·.name)).idxOf a < (scope.items.map (·.name)).idxOf b)

variable {scope : Scope} {label : String} {table : WeightTable}

theorem weight?_of_weigh (hw : (scope.weigh label).result = .ok table) {name : String}
    (hn : name ∈ scope.names) : table.weight? name = some (scope.walk.count (.reach name)) := by
  obtain ⟨_, rfl⟩ := (scope.weigh_eq_ok_iff label table).mp hw
  rw [WeightTable.weight?_ofSteps, if_pos hn]

theorem nodup_descending (hw : (scope.weigh label).result = .ok table) : table.descending.Nodup :=
  (descending_perm_names hw).nodup_iff.mpr scope.nodup_names

theorem pairwise_outranks (hw : (scope.weigh label).result = .ok table) :
    table.descending.Pairwise (scope.Outranks table) := by
  have hperm := descending_perm_names hw
  have hnodup := nodup_descending hw
  rw [List.pairwise_iff_forall_sublist]
  intro a b hab
  have ha : a ∈ scope.names := hperm.mem_iff.mp (hab.subset (by simp))
  have hb : b ∈ scope.names := hperm.mem_iff.mp (hab.subset (by simp))
  refine ⟨_, _, weight?_of_weigh hw ha, weight?_of_weigh hw hb, ?_⟩
  obtain ⟨_, rfl⟩ := (scope.weigh_eq_ok_iff label table).mp hw
  have hle := List.pairwise_iff_forall_sublist.mp
    (WeightTable.descending_ofSteps_pairwise scope.names scope.walk) hab
  rcases Nat.lt_or_eq_of_le hle with hlt | htie
  · exact .inl hlt
  · refine .inr ⟨htie.symm, ?_⟩
    have hne : a ≠ b := by
      rintro rfl
      simpa using hnodup.sublist hab
    rcases pair_sublist_or ha hb hne with hs | hs
    · exact List.pairwise_iff_forall_sublist.mp (pairwise_idxOf_eraseDups _) hs
    · have hback := idxOf_lt_of_pair_sublist hnodup (WeightTable.pair_sublist_of_tie hs htie)
      have hforth := idxOf_lt_of_pair_sublist hnodup hab
      omega

theorem mem_names_of_weight? (hw : (scope.weigh label).result = .ok table) {name : String}
    {weight : Nat} (h : table.weight? name = some weight) : name ∈ scope.names := by
  obtain ⟨_, rfl⟩ := (scope.weigh_eq_ok_iff label table).mp hw
  by_contra hn
  rw [WeightTable.weight?_ofSteps, if_neg hn] at h
  cases h

theorem pair_sublist_of_lighter (hw : (scope.weigh label).result = .ok table) {a b : String}
    {light heavy : Nat} (ha : table.weight? a = some light) (hb : table.weight? b = some heavy)
    (hlt : light < heavy) : List.Sublist [b, a] table.descending := by
  have hperm := descending_perm_names hw
  apply pair_sublist_of_pairwise (pairwise_outranks hw)
  · exact hperm.mem_iff.mpr (mem_names_of_weight? hw ha)
  · exact hperm.mem_iff.mpr (mem_names_of_weight? hw hb)
  · rintro rfl
    rw [ha] at hb
    exact absurd (Option.some.inj hb) (by omega)
  · rintro ⟨first, second, hfirst, hsecond, hranks⟩
    obtain rfl := Option.some.inj (ha.symm.trans hfirst)
    obtain rfl := Option.some.inj (hb.symm.trans hsecond)
    omega

theorem lighter_of_needs (hw : (scope.weigh label).result = .ok table) {a b : String}
    (hcycle : ¬ scope.OnCycle a) (hab : scope.Needs a b) :
    ∃ light heavy, table.weight? a = some light ∧ table.weight? b = some heavy ∧
      light < heavy := by
  have ⟨item, hi, _, _, _, hb⟩ := hab
  have ha : a ∈ scope.names := (scope.exists_item?_iff a).mp ⟨item, hi⟩
  exact ⟨_, _, weight?_of_weigh hw ha, weight?_of_weigh hw hb, count_walk_lt hcycle hab⟩

end Scope

namespace Catalog

def Requires (catalog : Catalog) (a b : String) : Prop :=
  ∃ m ∈ catalog.modules, m.name = a ∧ b ∈ m.dependencies ∧ b ∈ catalog.names

theorem item?_scope {catalog : Catalog} {m : ConfigModule} (hm : m ∈ catalog.modules) :
    catalog.scope.item? m.name = some m.item := by
  have hn : (catalog.scope.items.map (·.name)).Nodup := by
    rw [scope, List.map_map]
    exact catalog.nodup_names
  exact (findRev?_key_eq_some_iff hn ..).mpr ⟨List.mem_map_of_mem hm, rfl⟩

theorem needs_scope_iff (catalog : Catalog) (a b : String) :
    catalog.scope.Needs a b ↔ catalog.Requires a b := by
  unfold Scope.Needs Requires
  rw [names_scope]
  constructor
  · rintro ⟨item, hi, _, hb, _, hn⟩
    obtain ⟨hmem, rfl⟩ := Scope.name_of_item? hi
    obtain ⟨m, hm, rfl⟩ := List.mem_map.mp hmem
    exact ⟨m, hm, rfl, hb, hn⟩
  · rintro ⟨m, hm, rfl, hb, hn⟩
    exact ⟨m.item, item?_scope hm, rfl, hb, rfl, hn⟩

theorem pair_sublist_installOrder {catalog : Catalog} {order : List String}
    (h : catalog.installOrder.result = .ok order) {a b : String}
    (hcycle : ¬ Relation.TransGen catalog.Requires a a) (hab : catalog.Requires a b) :
    List.Sublist [b, a] order := by
  obtain ⟨table, hw, rfl⟩ := Warned.result_map_eq_ok_iff.mp h
  have hneeds : catalog.scope.Needs = catalog.Requires := by
    funext a b
    exact propext (catalog.needs_scope_iff a b)
  apply Scope.pair_sublist_descending hw
  · rwa [Scope.OnCycle, hneeds]
  · rwa [hneeds]

theorem mem_names_of_mem_dependencies {catalog : Catalog} {order : List String}
    (h : catalog.installOrder.result = .ok order) {m : ConfigModule} (hm : m ∈ catalog.modules)
    {dependency : String} (hd : dependency ∈ m.dependencies) : dependency ∈ catalog.names := by
  obtain ⟨table, hw, _⟩ := Warned.result_map_eq_ok_iff.mp h
  have hcomplete := ((catalog.scope.weigh_eq_ok_iff ..).mp hw).1
  rw [← names_scope]
  have hitem : catalog.scope.item? m.item.name = some m.item := item?_scope hm
  exact hcomplete.mem_names hitem rfl hd rfl

end Catalog

namespace Scope

theorem dependencies_outweigh :
    (∀ (scope : Scope) (label : String) (table : WeightTable),
      (scope.weigh label).result = .ok table →
        table.descending.Nodup ∧
        (∀ name, name ∈ table.descending ↔ ∃ item ∈ scope.items, item.name = name) ∧
        table.descending.Pairwise (scope.Outranks table) ∧
        ∀ name item, scope.item? name = some item → scope.frozen name = false →
          ¬ scope.OnCycle name → ∀ dependency ∈ item.dependencies, scope.frozen dependency = false →
            (∃ light heavy, table.weight? name = some light ∧
              table.weight? dependency = some heavy ∧ light < heavy) ∧
            List.Sublist [dependency, name] table.descending) ∧
      ∀ (catalog : Catalog) (order : List String), catalog.installOrder.result = .ok order →
        order.Perm catalog.names ∧
        ∀ m ∈ catalog.modules, ¬ Relation.TransGen catalog.Requires m.name m.name →
          ∀ dependency ∈ m.dependencies, List.Sublist [dependency, m.name] order := by
  constructor
  · intro scope label table hw
    refine ⟨nodup_descending hw, ?_, pairwise_outranks hw, ?_⟩
    · intro name
      rw [(descending_perm_names hw).mem_iff, mem_names_iff]
    · intro name item hi hf hcycle dependency hd hfd
      have hcomplete := ((scope.weigh_eq_ok_iff label table).mp hw).1
      obtain rfl := (name_of_item? hi).2
      have hneed := needs_of_mem hi hf hd hfd (hcomplete.mem_names hi hf hd hfd)
      exact ⟨lighter_of_needs hw hcycle hneed, pair_sublist_descending hw hcycle hneed⟩
  · intro catalog order horder
    refine ⟨Catalog.installOrder_perm horder, ?_⟩
    intro m hm hcycle dependency hd
    apply Catalog.pair_sublist_installOrder horder hcycle
    exact ⟨m, hm, rfl, hd, Catalog.mem_names_of_mem_dependencies horder hm hd⟩

end Scope

namespace Sample

def tangled : Scope where
  items := [⟨"acl", ["vlan", "base", "vlan"]⟩, ⟨"vlan", ["mode"]⟩, ⟨"mode", ["trunk"]⟩,
    ⟨"trunk", ["mode", "base"]⟩]
  frozen name := name == "base"

def tangledTable : WeightTable where
  entries := [("acl", 1), ("vlan", 3), ("mode", 9), ("trunk", 6)]
  cycles := [["mode", "trunk", "mode"], ["mode", "trunk", "mode"], ["mode", "trunk", "mode"],
    ["mode", "trunk", "mode"], ["trunk", "mode", "trunk"]]

theorem weigh_tangled : (tangled.weigh "test").result = .ok tangledTable := by cbv

theorem not_onCycle_acl : ¬ tangled.OnCycle "acl" := by
  intro h
  obtain ⟨name, _, item, hi, _, hd, _⟩ := Relation.TransGen.tail'_iff.mp h
  have hnone : ∀ item ∈ tangled.items, "acl" ∉ item.dependencies := by decide
  exact hnone item (Scope.name_of_item? hi).1 hd

def layered : Catalog where
  modules := [{ name := "Access", dependencies := ["Ring", "Core", "Ring"] },
    { name := "Ring", dependencies := ["Core", "Ring"] }, { name := "Core" }]
  distinct := by decide

theorem installOrder_layered :
    layered.installOrder.result = .ok ["Ring", "Core", "Access"] := by cbv

theorem not_requires_access : ¬ Relation.TransGen layered.Requires "Access" "Access" := by
  intro h
  obtain ⟨_, _, m, hm, _, hd, _⟩ := Relation.TransGen.tail'_iff.mp h
  have hnone : ∀ m ∈ layered.modules, "Access" ∉ m.dependencies := by decide
  exact hnone m hm hd

end Sample

namespace Scope

theorem sample_acl_after_vlan :
    (Sample.tangled.weigh "test").result = .ok Sample.tangledTable ∧
      Sample.tangled.item? "acl" = some ⟨"acl", ["vlan", "base", "vlan"]⟩ ∧
      Sample.tangled.frozen "acl" = false ∧ ¬ Sample.tangled.OnCycle "acl" ∧
      List.Sublist ["vlan", "acl"] Sample.tangledTable.descending ∧
      Sample.layered.installOrder.result = .ok ["Ring", "Core", "Access"] ∧
      ¬ Relation.TransGen Sample.layered.Requires "Access" "Access" ∧
      List.Sublist ["Ring", "Access"] ["Ring", "Core", "Access"] := by
  have hitem : Sample.tangled.item? "acl" = some ⟨"acl", ["vlan", "base", "vlan"]⟩ := by rfl
  obtain ⟨hscopes, hcatalogs⟩ := dependencies_outweigh
  obtain ⟨_, _, _, hfree⟩ := hscopes Sample.tangled "test" Sample.tangledTable Sample.weigh_tangled
  have hacl := hfree "acl" _ hitem (by decide) Sample.not_onCycle_acl "vlan" (by decide) (by decide)
  exact ⟨Sample.weigh_tangled, hitem, by decide, Sample.not_onCycle_acl, hacl.2,
    Sample.installOrder_layered, Sample.not_requires_access,
    (hcatalogs Sample.layered _ Sample.installOrder_layered).2 _ List.mem_cons_self
      Sample.not_requires_access "Ring" (by decide)⟩

end Scope

end ApplianceScript
