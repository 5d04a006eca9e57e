import ApplianceScript.Proofs.Placement

namespace ApplianceScript

open Relation

namespace Plan

def NeedsWithin (plan : Plan) (m : ConfigModule) (a b : String) : Prop :=
  ∃ element ∈ m.elements, element.name = a ∧ b ∈ element.dependencies ∧ b ∈ m.elementNames ∧
    ¬ plan.OwnedEarlier m.name a ∧ ¬ plan.OwnedEarlier m.name b

theorem needs_scope_iff {plan : Plan} {m : ConfigModule} (hn : m.elementNames.Nodup)
    {settled : String → Bool}
    (hsettled : ∀ element, settled element = true ↔ plan.OwnedEarlier m.name element)
    (a b : String) : (m.scope settled).Needs a b ↔ plan.NeedsWithin m a b := by
  have hfree (element : String) :
      (m.scope settled).frozen element = false ↔ ¬ plan.OwnedEarlier m.name element := by
    rw [← hsettled, Bool.not_eq_true]
    rfl
  unfold Scope.Needs NeedsWithin
  simp only [ConfigModule.item?_scope_eq_some_iff hn, hfree, m.mem_names_scope_iff]
  constructor
  · rintro ⟨_, ⟨element, he, rfl, hname⟩, ha, hdep, hb, hbn⟩
    exact ⟨element, he, hname, hdep, hbn, ha, hb⟩
  · rintro ⟨element, he, hname, hdep, hbn, ha, hb⟩
    exact ⟨element.item, ⟨element, he, rfl, hname⟩, ha, hdep, hb, hbn⟩

variable {plan : Plan} {catalog : Catalog} {m : ConfigModule} {element : Element}
  {dependency : String}

theorem IsPlanOf.pair_sublist_orderedNames (hp : plan.IsPlanOf catalog)
    (hm : m ∈ catalog.modules) (he : element ∈ m.elements)
    (hfirst : ¬ plan.OwnedEarlier m.name element.name)
    (hcycle : ¬ TransGen (plan.NeedsWithin m) element.name element.name)
    (hd : dependency ∈ element.dependencies) (hown : ¬ plan.OwnedEarlier m.name dependency) :
    List.Sublist [dependency, element.name] (plan.orderedNames .install m.name) := by
  obtain ⟨hn, settled, table, hsettled, hw, horder⟩ := hp.exists_weights hm
  have hneeds : (m.scope settled).Needs = plan.NeedsWithin m := by
    funext a b
    exact propext (needs_scope_iff hn hsettled a b)
  have hfree : settled element.name = false := by
    rw [← Bool.not_eq_true, hsettled]
    exact hfirst
  have hfreed : settled dependency = false := by
    rw [← Bool.not_eq_true, hsettled]
    exact hown
  have hitem : (m.scope settled).item? element.item.name = some element.item :=
    (ConfigModule.item?_scope_eq_some_iff hn ..).mpr ⟨element, he, rfl, rfl⟩
  have hcomplete := (((m.scope settled).weigh_eq_ok_iff ..).mp hw).1
  have hmem := hcomplete.mem_names hitem hfree hd hfreed
  have hpair := Scope.pair_sublist_descending hw (a := element.name) (b := dependency)
    (by rwa [Scope.OnCycle, hneeds]) (Scope.needs_of_mem hitem hfree hd hfreed hmem)
  have hkept := hpair.filter (!settled ·)
  rw [orderedNames, horder, Option.elim_some, ElementOrder.names]
  simpa [hfree, hfreed] using hkept

theorem IsPlanOf.pair_sublist_placements (hp : plan.IsPlanOf catalog)
    (hm : m ∈ catalog.modules) (he : element ∈ m.elements)
    (hfirst : ¬ plan.OwnedEarlier m.name element.name)
    (hcycle : ¬ TransGen (plan.NeedsWithin m) element.name element.name)
    (hd : dependency ∈ element.dependencies) :
    List.Sublist [dependency, element.name] ((plan.placements .install).map (·.2)) := by
  have hmem := Catalog.name_mem_installOrder hp.installOrder hm
  rw [placements_map_snd]
  by_cases hown : plan.OwnedEarlier m.name dependency
  · -- The module that emits the dependency is installed before this one.
    obtain ⟨definer, hdefines, hlt⟩ := hown
    obtain ⟨owner, howner, hnot, hle⟩ := hp.exists_owner (hp.catalog_eq ▸ hdefines)
    obtain ⟨other, ho, rfl, hdep⟩ := (catalog.defines_iff ..).mp howner
    have hnames := (hp.mem_orderedNames_iff .install ho dependency).mpr ⟨hdep, hnot⟩
    have hmine := (hp.mem_orderedNames_iff .install hm element.name).mpr
      ⟨List.mem_map_of_mem he, hfirst⟩
    have hmodules := (pair_sublist_of_idxOf_lt hmem (hle.trans_lt hlt)).flatMap
      (plan.orderedNames .install)
    have hpair := (List.singleton_sublist.mpr hnames).append (List.singleton_sublist.mpr hmine)
    exact hpair.trans (by simpa using hmodules)
  · have hblock := (List.singleton_sublist.mpr hmem).flatMap (plan.orderedNames .install)
    exact (hp.pair_sublist_orderedNames hm he hfirst hcycle hd hown).trans (by simpa using hblock)

theorem dependencies_precede {schedule : Schedule} {width : Nat} {catalog : Catalog} {plan : Plan}
    (built : (buildBy schedule width catalog).result = .ok plan) :
    plan.placements .uninstall = (plan.placements .install).reverse ∧
      ∀ moduleName name, (moduleName, name) ∈ plan.placements .install →
        ∃ m element, catalog.get? moduleName = some m ∧ m.element? name = some element ∧
          (¬ TransGen (plan.NeedsWithin m) name name →
            ∀ dependency ∈ element.dependencies, ∀ before after,
              (plan.placements .install = before ++ (moduleName, name) :: after →
                dependency ∈ before.map (·.2)) ∧
              (plan.placements .uninstall = before ++ (moduleName, name) :: after →
                dependency ∈ after.map (·.2) ∧ dependency ∉ before.map (·.2))) := by
  have hp := isPlanOf_of_buildBy built
  refine ⟨plan.placements_uninstall, ?_⟩
  intro moduleName name hplaced
  obtain ⟨hd, hfirst⟩ := (hp.mem_placements_iff ..).mp hplaced
  obtain ⟨m, hm, rfl, hname⟩ := (catalog.defines_iff ..).mp hd
  obtain ⟨element, he, rfl⟩ := List.mem_map.mp hname
  have hn := (hp.exists_weights hm).1
  refine ⟨m, element, (catalog.get?_eq_some_iff ..).mpr ⟨hm, rfl⟩,
    (ConfigModule.element?_eq_some_iff hn ..).mpr ⟨he, rfl⟩, ?_⟩
  intro hcycle dependency hdep before after
  have hpair := hp.pair_sublist_placements hm he hfirst hcycle hdep
  have hnodup := hp.nodup_placements
  have hinstall (before after : List (String × String))
      (h : plan.placements .install = before ++ (m.name, element.name) :: after) :
      dependency ∈ before.map (·.2) := by
    rw [h, List.map_append, List.map_cons] at hpair hnodup
    exact mem_left_of_pair_sublist hnodup hpair
  refine ⟨hinstall before after, ?_⟩
  intro h
  rw [placements_uninstall, List.reverse_eq_iff, List.reverse_append, List.reverse_cons,
    List.append_assoc, List.singleton_append] at h
  have hafter : dependency ∈ after.map (·.2) := by
    simpa using hinstall after.reverse before.reverse h
  refine ⟨hafter, ?_⟩
  intro hbefore
  rw [h, List.map_append, List.map_cons] at hnodup
  have hdisjoint := (List.nodup_append.mp hnodup).2.2 dependency (by simpa using hafter)
    dependency (List.mem_cons_of_mem _ (by simpa using hbefore))
  exact hdisjoint rfl

theorem sample_route_after_mode :
    (buildBy [1] 2 Sample.catalog).result = .ok Sample.plan ∧
      ¬ TransGen (Sample.plan.NeedsWithin Sample.network) "route" "route" ∧
      ∀ before after, Sample.plan.placements .install = before ++ ("Network", "route") :: after →
        "mode" ∈ before.map (·.2) := by
  have hcycle : ¬ TransGen (Sample.plan.NeedsWithin Sample.network) "route" "route" := by
    intro h
    obtain ⟨_, _, element, he, _, hdep, _⟩ := TransGen.tail'_iff.mp h
    exact absurd hdep ((by decide :
      ∀ element ∈ Sample.network.elements, "route" ∉ element.dependencies) element he)
  refine ⟨Sample.built, hcycle, ?_⟩
  intro before after h
  obtain ⟨m, element, hm, he, hall⟩ :=
    (dependencies_precede Sample.built).2 "Network" "route" (by rw [h]; simp)
  obtain rfl : Sample.network = m := Option.some.inj hm
  obtain rfl : ⟨"route", [], ["mode", "vlan"], {}⟩ = element := Option.some.inj he
  exact (hall hcycle "mode" List.mem_cons_self before after).1 h

end Plan

end ApplianceScript
