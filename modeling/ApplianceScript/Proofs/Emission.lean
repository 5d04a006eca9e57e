import ApplianceScript.Proofs.Placement
import ApplianceScript.Proofs.Resolution
import ApplianceScript.Script

namespace ApplianceScript

structure Group where
  owner : ConfigModule
  elements : List Element

namespace Plan

structure Emits (plan : Plan) (direction : Direction) (group : Group) : Prop where
  owner_mem : group.owner ∈ plan.catalog.modules
  elements_mem : ∀ element ∈ group.elements, element ∈ group.owner.elements
  names : group.elements.map (·.name) = plan.orderedNames direction group.owner.name

structure IsLayout (plan : Plan) (direction : Direction) (layout : List Group) : Prop where
  modules : layout.map (·.owner.name) = plan.moduleNames direction
  emits : ∀ group ∈ layout, plan.Emits direction group

def resolvedText? (plan : Plan) (direction : Direction) (element : Element) : Option String :=
  plan.placeholders.resolveText? (element.commands.text direction)

def commands (plan : Plan) (direction : Direction) (element : Element) : List String :=
  match plan.resolvedText? direction element with
  | some text => commandLines (plan.version.stamp text)
  | none => []

def framed (plan : Plan) (direction : Direction) (group : Group) : List String :=
  Banner.start group.owner.name ++ group.elements.flatMap (plan.commands direction) ++
    Banner.finish group.owner.name

end Plan

def Group.block (group : Group) (direction : Direction) : Block :=
  ⟨group.owner.name, group.elements.map (·.commands.text direction)⟩

theorem frame_map_eq_flatMap (blocks : List Block) (finish : String → String) :
    Plan.frame blocks ((blocks.flatMap (·.texts)).map finish) =
      blocks.flatMap fun block => Banner.start block.name ++
        (block.texts.map finish).flatMap commandLines ++ Banner.finish block.name := by
  induction blocks with
  | nil => rfl
  | cons block rest ih =>
    have hlength : (block.texts.map finish).length = block.texts.length := List.length_map _
    rw [Plan.frame, List.flatMap_cons, List.flatMap_cons, List.map_append,
      List.take_left' hlength, List.drop_left' hlength, ih]

namespace Plan

variable {plan : Plan} {catalog : Catalog}

theorem elementText_eq_ok {m : ConfigModule} (hn : m.elementNames.Nodup) (direction : Direction)
    {element : Element} (he : element ∈ m.elements) :
    elementText m direction element.name = .ok (element.commands.text direction) := by
  unfold elementText
  rw [(findRev?_key_eq_some_iff hn element.name element).mpr ⟨he, rfl⟩]

theorem mapM_elementText {m : ConfigModule} (hn : m.elementNames.Nodup) (direction : Direction)
    {elements : List Element} (he : ∀ element ∈ elements, element ∈ m.elements) :
    (elements.map (·.name)).mapM (elementText m direction) =
      .ok (elements.map (·.commands.text direction)) := by
  rw [mapM_eq_ok_iff, List.forall₂_map_left_iff, List.forall₂_map_right_iff, List.forall₂_same]
  intro element hmem
  exact elementText_eq_ok hn direction (he element hmem)

theorem exists_elements {m : ConfigModule} {names : List String}
    (hnames : ∀ name ∈ names, name ∈ m.elementNames) :
    ∃ elements : List Element, (∀ element ∈ elements, element ∈ m.elements) ∧
      elements.map (·.name) = names := by
  obtain ⟨elements, hall⟩ := exists_forall₂ (r := fun name element =>
    element ∈ m.elements ∧ element.name = name) fun name hname => List.mem_map.mp (hnames name hname)
  refine ⟨elements, ?_, ?_⟩
  · intro element he
    obtain ⟨_, _, hmem, _⟩ := exists_of_forall₂_of_mem hall.flip he
    exact hmem
  · simpa using (map_eq_map_of_forall₂ (f := id) hall fun _ _ h => h.2.symm).symm

theorem IsPlanOf.exists_group (hp : plan.IsPlanOf catalog) (direction : Direction) {name : String}
    (hname : name ∈ plan.moduleNames direction) :
    ∃ group : Group, plan.Emits direction group ∧ name = group.owner.name ∧
      plan.block direction name = .ok (group.block direction) := by
  have horder : name ∈ plan.installOrder := by
    cases direction with
    | install => exact hname
    | uninstall => exact List.mem_reverse.mp hname
  obtain ⟨m, hm, rfl⟩ := List.mem_map.mp ((hp.mem_installOrder_iff name).mp horder)
  obtain ⟨hn, _, table, _, _, hsome⟩ := hp.exists_weights hm
  obtain ⟨elements, hmem, hnames⟩ := exists_elements fun element he =>
    ((hp.mem_orderedNames_iff direction hm element).mp he).1
  have hrequire : plan.catalog.require m.name = .ok m :=
    Catalog.require_of_mem (hp.catalog_eq ▸ hm)
  have htexts := mapM_elementText hn direction hmem
  rw [hnames, orderedNames, hsome, Option.elim_some] at htexts
  refine ⟨⟨m, elements⟩, ⟨hp.catalog_eq ▸ hm, hmem, hnames⟩, rfl, ?_⟩
  rw [block, bind_eq_ok_iff]
  refine ⟨m, hrequire, ?_⟩
  simp only [hsome]
  rw [bind_eq_ok_iff]
  exact ⟨_, htexts, rfl⟩

theorem IsPlanOf.exists_layout (hp : plan.IsPlanOf catalog) (direction : Direction) :
    ∃ layout, plan.IsLayout direction layout ∧
      plan.blocks direction = .ok (layout.map (·.block direction)) := by
  obtain ⟨layout, hall⟩ := exists_forall₂ fun name hname => hp.exists_group direction hname
  refine ⟨layout, ⟨?_, ?_⟩, ?_⟩
  · simpa using (map_eq_map_of_forall₂ (f := id) hall fun _ _ h => h.2.1).symm
  · intro group hgroup
    obtain ⟨_, _, hemits, _⟩ := exists_of_forall₂_of_mem hall.flip hgroup
    exact hemits
  · rw [blocks, mapM_eq_ok_iff, List.forall₂_map_right_iff]
    exact hall.imp fun _ _ h => h.2.2

theorem emit_of_blocks {direction : Direction} {blocks : List Block}
    (h : plan.blocks direction = .ok blocks) :
    plan.emit direction = (plan.placeholders.resolve (blocks.flatMap (·.texts))).map
      fun resolved => frame blocks (plan.version.stampAll resolved) := by
  unfold emit
  rw [h]
  change (plan.placeholders.resolve (blocks.flatMap (·.texts)) >>= _) = _
  cases plan.placeholders.resolve (blocks.flatMap (·.texts)) <;> rfl

theorem mem_texts_iff (layout : List Group) (direction : Direction) (text : String) :
    text ∈ (layout.map (·.block direction)).flatMap (·.texts) ↔
      ∃ group ∈ layout, ∃ element ∈ group.elements, element.commands.text direction = text := by
  simp [Group.block]

theorem emit_of_resolved {direction : Direction} {layout : List Group}
    (hblocks : plan.blocks direction = .ok (layout.map (·.block direction)))
    (hall : ∀ group ∈ layout, ∀ element ∈ group.elements,
      plan.resolvedText? direction element ≠ none) :
    plan.emit direction = .ok (layout.flatMap (plan.framed direction)) := by
  let resolved (text : String) : String := (plan.placeholders.resolveText? text).getD ""
  have hsome {group : Group} (hgroup : group ∈ layout) {element : Element}
      (he : element ∈ group.elements) : plan.resolvedText? direction element =
        some (resolved (element.commands.text direction)) := by
    obtain ⟨text, htext⟩ := Option.ne_none_iff_exists'.mp (hall group hgroup element he)
    have hresolve : plan.placeholders.resolveText? (element.commands.text direction) = some text :=
      htext
    simp only [htext, resolved, hresolve, Option.getD_some]
  have hlines : plan.placeholders.resolve ((layout.map (·.block direction)).flatMap (·.texts)) =
      .ok (((layout.map (·.block direction)).flatMap (·.texts)).map resolved) := by
    apply PlaceholderTable.resolve_eq_ok_of_forall
    intro text htext
    obtain ⟨group, hgroup, element, he, rfl⟩ := (mem_texts_iff ..).mp htext
    exact hsome hgroup he
  rw [emit_of_blocks hblocks, hlines, Except.map, Version.stampAll_eq_map, List.map_map,
    frame_map_eq_flatMap, List.flatMap_map]
  congr 1
  apply List.flatMap_congr
  intro group hgroup
  have hcommands : ((group.block direction).texts.map (plan.version.stamp ∘ resolved)).flatMap
      commandLines = group.elements.flatMap (plan.commands direction) := by
    rw [Group.block, List.map_map, List.flatMap_map]
    apply List.flatMap_congr
    intro element he
    simp only [commands, hsome hgroup he, Function.comp_apply]
  rw [hcommands]
  rfl

theorem emit_eq_framed {schedule : Schedule} {width : Nat} {catalog : Catalog} {plan : Plan}
    (built : (buildBy schedule width catalog).result = .ok plan) (direction : Direction) :
    ∃ layout, plan.IsLayout direction layout ∧
      ((∃ markers, plan.emit direction =
          .error (.unresolvedPlaceholders markers PlaceholderTable.passBudget)) ↔
        ∃ group ∈ layout, ∃ element ∈ group.elements,
          plan.resolvedText? direction element = none) ∧
      ((∀ group ∈ layout, ∀ element ∈ group.elements,
          plan.resolvedText? direction element ≠ none) →
        plan.emit direction = .ok (layout.flatMap (plan.framed direction))) := by
  obtain ⟨layout, hlayout, hblocks⟩ := (isPlanOf_of_buildBy built).exists_layout direction
  refine ⟨layout, hlayout, ⟨?_, ?_⟩, emit_of_resolved hblocks⟩
  · rintro ⟨markers, herror⟩
    by_contra hall
    push Not at hall
    rw [emit_of_resolved hblocks hall] at herror
    cases herror
  · rintro ⟨group, hgroup, element, he, hnone⟩
    have hmem := (mem_texts_iff layout direction _).mpr ⟨group, hgroup, element, he, rfl⟩
    obtain ⟨markers, herror⟩ := plan.placeholders.resolve_eq_error_of_mem hmem hnone
    refine ⟨markers, ?_⟩
    rw [emit_of_blocks hblocks, herror]
    rfl

end Plan

namespace Sample

def installLines : List String :=
  [Banner.rule, "# BEGIN MODULE: Core", Banner.rule, "enable modeCL0201", "add ip 10.0.0.1",
    Banner.rule, "# END MODULE: Core", Banner.rule, Banner.rule, "# BEGIN MODULE: Network",
    Banner.rule, Banner.rule, "# END MODULE: Network", Banner.rule]

theorem emit_install : plan.emit .install = .ok installLines := by rfl

theorem resolvedText?_ne_none : ∀ m ∈ plan.catalog.modules, ∀ element ∈ m.elements,
    plan.resolvedText? .install element ≠ none := by
  decide

end Sample

namespace Plan

theorem sample_install_framed :
    (buildBy [1] 2 Sample.catalog).result = .ok Sample.plan ∧
      ∃ layout, Sample.plan.IsLayout .install layout ∧
        (∀ group ∈ layout, ∀ element ∈ group.elements,
          Sample.plan.resolvedText? .install element ≠ none) ∧
        Sample.plan.emit .install = .ok (layout.flatMap (Sample.plan.framed .install)) ∧
        layout.flatMap (Sample.plan.framed .install) = Sample.installLines := by
  obtain ⟨layout, hlayout, _, hframed⟩ := emit_eq_framed Sample.built .install
  have hresolved : ∀ group ∈ layout, ∀ element ∈ group.elements,
      Sample.plan.resolvedText? .install element ≠ none := by
    intro group hgroup element he
    obtain ⟨howner, helements, _⟩ := hlayout.emits group hgroup
    exact Sample.resolvedText?_ne_none group.owner howner element (helements element he)
  have hemit := hframed hresolved
  exact ⟨Sample.built, layout, hlayout, hresolved, hemit,
    Except.ok.inj (hemit.symm.trans Sample.emit_install)⟩

end Plan

end ApplianceScript
