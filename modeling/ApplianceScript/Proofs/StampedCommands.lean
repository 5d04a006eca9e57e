import ApplianceScript.Proofs.Compilation
import ApplianceScript.Proofs.Emission
import ApplianceScript.Proofs.Stamping

namespace ApplianceScript

namespace Plan

/-- A command is a stamped text without placeholder names. It holds no version marker, and a
placeholder name only across a tag. -/
structure StampedFrom (plan : Plan) (source command : String) : Prop where
  stamped : command = plan.version.stamp source
  resolved : plan.placeholders.hasMarker source = false
  unmarked : Text.occurs Version.marker command = false
  tagged : ∀ name ∈ plan.placeholders.names, ∀ before after, command = before ++ name ++ after →
    plan.version.TagWithin source before.length (before.length + name.length)

variable {plan : Plan} {scripts : Scripts}

theorem emit_of_scripts (h : plan.scripts = .ok scripts) (direction : Direction) :
    plan.emit direction = .ok (scripts.lines direction) := by
  obtain ⟨install, hinstall, h⟩ := (bind_eq_ok_iff ..).mp h
  obtain ⟨uninstall, huninstall, h⟩ := (bind_eq_ok_iff ..).mp h
  obtain rfl := Except.ok.inj h
  cases direction with
  | install => exact hinstall
  | uninstall => exact huninstall

theorem resolvedText?_ne_none {direction : Direction} {layout : List Group} {lines : List String}
    (hblocks : plan.blocks direction = .ok (layout.map (·.block direction)))
    (hemit : plan.emit direction = .ok lines) {group : Group} (hgroup : group ∈ layout)
    {element : Element} (he : element ∈ group.elements) :
    plan.resolvedText? direction element ≠ none := by
  rw [emit_of_blocks hblocks] at hemit
  cases hresolve : plan.placeholders.resolve
      ((layout.map (·.block direction)).flatMap (·.texts)) with
  | error error =>
    rw [hresolve] at hemit
    cases hemit
  | ok resolved =>
    exact plan.placeholders.resolveText?_ne_none_of_resolve
      ((mem_texts_iff ..).mpr ⟨group, hgroup, element, he, rfl⟩) hresolve

theorem exists_stampedFrom {direction : Direction} {element : Element} {command : String}
    (h : command ∈ plan.commands direction element) :
    ∃ source, plan.StampedFrom source command := by
  unfold commands at h
  split at h
  · rename_i text htext
    rw [Version.commandLines_stamp] at h
    obtain ⟨source, hsource, rfl⟩ := List.mem_map.mp h
    have hline : source ∈ Text.lines text := (List.mem_filter.mp hsource).1
    have hresolved := plan.placeholders.not_hasMarker_of_part (Text.infix_of_mem_lines hline)
      (plan.placeholders.not_hasMarker_of_resolveText? htext)
    refine ⟨source, rfl, hresolved, plan.version.occurs_marker_stamp source, ?_⟩
    intro name hname before after hcommand
    apply plan.version.tagWithin_of_occurs hcommand
    simpa using List.any_eq_false.mp hresolved name hname
  · cases h

theorem compiled_commands_stamped {schedule : Schedule} {width : Nat} {catalog : Catalog}
    (compiled : (scriptsBy schedule width catalog).result = .ok scripts) :
    ∃ plan, (buildBy schedule width catalog).result = .ok plan ∧
      ∀ direction, ∃ layout, plan.IsLayout direction layout ∧
        scripts.lines direction = layout.flatMap (plan.framed direction) ∧
        ∀ group ∈ layout, ∀ element ∈ group.elements,
          ∀ command ∈ plan.commands direction element,
            ∃ source, plan.StampedFrom source command := by
  obtain ⟨plan, built, hscripts⟩ := Warned.result_bind_eq_ok_iff.mp compiled
  refine ⟨plan, built, ?_⟩
  intro direction
  have hemit := emit_of_scripts hscripts direction
  obtain ⟨layout, hlayout, hblocks⟩ := (isPlanOf_of_buildBy built).exists_layout direction
  have hframed := emit_of_resolved hblocks fun group hgroup element he =>
    resolvedText?_ne_none hblocks hemit hgroup he
  refine ⟨layout, hlayout, Except.ok.inj (hemit.symm.trans hframed), ?_⟩
  intro group _ element _ command hcommand
  exact exists_stampedFrom hcommand

end Plan

namespace Sample

def namedElement : Element := { name := "e", commands := ⟨"add _V_", ""⟩ }

def named : ConfigModule :=
  { name := "Core"
    version := some ⟨2, 1⟩
    placeholders := [⟨"CL", "x"⟩]
    sections := [{ name := "s", elements := [namedElement] }] }

def namedCatalog : Catalog := ⟨[named], by decide⟩

def namedPlan : Plan :=
  { catalog := namedCatalog
    installOrder := ["Core"]
    elementOrders := [("Core", ⟨["e"]⟩)]
    placeholders := ⟨[("CL", "x")]⟩
    version := ⟨2, 1⟩ }

def namedScripts : Scripts :=
  { install := Banner.start "Core" ++ ["add CL0201"] ++ Banner.finish "Core"
    uninstall := Banner.start "Core" ++ Banner.finish "Core" }

def namedLayout : List Group := [⟨named, named.elements⟩]

theorem isLayout_named : namedPlan.IsLayout .install namedLayout := by
  refine ⟨rfl, ?_⟩
  intro group hgroup
  rw [List.mem_singleton.mp hgroup]
  exact ⟨List.mem_singleton_self named, fun _ he => he, rfl⟩

theorem resolvedText?_named (direction : Direction) {element : Element}
    (he : element ∈ named.elements) : namedPlan.resolvedText? direction element =
      some (element.commands.text direction) := by
  obtain rfl := List.mem_singleton.mp he
  apply PlaceholderTable.resolveText?_of_not_hasMarker
  cases direction <;> cbv

theorem lines_named (direction : Direction) :
    namedLayout.flatMap (namedPlan.framed direction) = namedScripts.lines direction := by
  have hcommands : named.elements.flatMap (namedPlan.commands direction) =
      named.elements.flatMap fun element =>
        commandLines (namedPlan.version.stamp (element.commands.text direction)) := by
    apply List.flatMap_congr
    intro element he
    simp only [Plan.commands, resolvedText?_named direction he]
  rw [namedLayout, List.flatMap_singleton, Plan.framed, hcommands]
  cases direction <;> cbv

theorem built_named : (Plan.buildBy [] 1 namedCatalog).result = .ok namedPlan := by cbv

theorem compiled_named : (Plan.scriptsBy [] 1 namedCatalog).result = .ok namedScripts := by
  have hemit (direction : Direction) :
      namedPlan.emit direction = .ok (namedScripts.lines direction) := by
    have hblocks : namedPlan.blocks direction =
        .ok (namedLayout.map (·.block direction)) := by cases direction <;> cbv
    rw [Plan.emit_of_resolved hblocks, lines_named]
    intro group hgroup element he
    obtain rfl := List.mem_singleton.mp hgroup
    rw [resolvedText?_named direction he]
    exact Option.some_ne_none _
  refine Warned.result_bind_eq_ok_iff.mpr ⟨namedPlan, built_named, ?_⟩
  change namedPlan.scripts = _
  unfold Plan.scripts
  rw [hemit, hemit]
  rfl

end Sample

namespace Plan

theorem sample_named_stamped :
    (scriptsBy [] 1 Sample.namedCatalog).result = .ok Sample.namedScripts ∧
      ∃ plan, (buildBy [] 1 Sample.namedCatalog).result = .ok plan ∧
        ∃ layout, plan.IsLayout .install layout ∧
          Sample.namedScripts.install = layout.flatMap (plan.framed .install) ∧
          ∀ group ∈ layout, ∀ element ∈ group.elements,
            ∀ command ∈ plan.commands .install element,
              ∃ source, plan.StampedFrom source command := by
  obtain ⟨plan, built, hall⟩ := compiled_commands_stamped Sample.compiled_named
  obtain ⟨layout, hlayout, hlines, hcommands⟩ := hall .install
  exact ⟨Sample.compiled_named, plan, built, layout, hlayout, hlines, hcommands⟩

theorem not_commands_free_of_names :
    ¬ ∀ schedule width catalog scripts plan,
      (scriptsBy schedule width catalog).result = .ok scripts →
      (buildBy schedule width catalog).result = .ok plan →
      ∀ direction layout, plan.IsLayout direction layout →
        scripts.lines direction = layout.flatMap (plan.framed direction) →
        ∀ group ∈ layout, ∀ element ∈ group.elements,
          ∀ command ∈ plan.commands direction element,
            Text.occurs Version.marker command = false ∧
              plan.placeholders.hasMarker command = false := by
  intro h
  have hmem := List.mem_singleton_self (a := Sample.namedElement)
  have hcommand : "add CL0201" ∈ Sample.namedPlan.commands .install Sample.namedElement := by
    have hlines : commandLines (Sample.namedPlan.version.stamp "add _V_") = ["add CL0201"] := by cbv
    rw [commands, Sample.resolvedText?_named .install hmem]
    change "add CL0201" ∈ commandLines (Sample.namedPlan.version.stamp "add _V_")
    rw [hlines]
    exact List.mem_singleton_self _
  obtain ⟨_, hfree⟩ := h [] 1 Sample.namedCatalog Sample.namedScripts Sample.namedPlan
    Sample.compiled_named Sample.built_named .install Sample.namedLayout Sample.isLayout_named
    (Sample.lines_named .install).symm _ (List.mem_singleton_self _) _ hmem _ hcommand
  have hmarker : Sample.namedPlan.placeholders.hasMarker "add CL0201" = true := by cbv
  rw [hfree] at hmarker
  cases hmarker

end Plan

end ApplianceScript
