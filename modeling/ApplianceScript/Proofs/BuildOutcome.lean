import ApplianceScript.Proofs.PlaceholderNames
import ApplianceScript.Proofs.SequentialOrders
import ApplianceScript.Proofs.UnresolvedNames

namespace ApplianceScript

namespace Catalog

def HasVersion (catalog : Catalog) : Prop :=
  ∃ core ∈ catalog.modules, core.name = coreName ∧ core.version ≠ none

def KnownDependencies (catalog : Catalog) : Prop :=
  ∀ m ∈ catalog.modules, ∀ dependency ∈ m.dependencies, dependency ∈ catalog.names

/-- What an element depends on is defined by its module or an earlier one. Nothing is asked of an
element that an earlier module has already defined. -/
def InReach (catalog : Catalog) (order : List String) (m : ConfigModule) : Prop :=
  ∀ element ∈ m.elements, ¬ catalog.DefinedEarlier order m.name element.name →
    ∀ dependency ∈ element.dependencies,
      dependency ∈ m.elementNames ∨ catalog.DefinedEarlier order m.name dependency

def Orderable (catalog : Catalog) (order : List String) (m : ConfigModule) : Prop :=
  m.elementNames.Nodup ∧ catalog.InReach order m

structure Sound (catalog : Catalog) : Prop where
  version : catalog.HasVersion
  placeholders : DistinctNames catalog.definitions
  dependencies : catalog.KnownDependencies

inductive BuildFault (catalog : Catalog) : CompileError → Prop
  | noCore (h : coreName ∉ catalog.names) : BuildFault catalog .missingCoreModule
  | noVersion {core : ConfigModule} (hc : core ∈ catalog.modules) (hn : core.name = coreName)
    (hv : core.version = none) : BuildFault catalog .missingCoreVersion
  | placeholder (hv : catalog.HasVersion) {before after : List Definition}
    {definition : Definition} {error : CompileError}
    (hs : catalog.definitions = before ++ definition :: after) (hb : DistinctNames before)
    (hr : definition.Refused before error) : BuildFault catalog error
  | unknownModule (hv : catalog.HasVersion) (hp : DistinctNames catalog.definitions)
    {m : ConfigModule} (hm : m ∈ catalog.modules) {dependency : String}
    (hd : dependency ∈ m.dependencies) (hu : dependency ∉ catalog.names) :
    BuildFault catalog (.unresolvedDependency scopeLabel m.name dependency)
  | repeatedElement (hs : catalog.Sound) {order : List String}
    (ho : catalog.installOrder.result = .ok order) {m : ConfigModule} (hm : m ∈ catalog.modules)
    (he : ∀ earlier ∈ catalog.modules, order.idxOf earlier.name < order.idxOf m.name →
      catalog.Orderable order earlier)
    {element : String} (hr : 2 ≤ m.elementNames.count element) :
    BuildFault catalog (.duplicateElement m.name element)
  | unknownElement (hs : catalog.Sound) {order : List String}
    (ho : catalog.installOrder.result = .ok order) {m : ConfigModule} (hm : m ∈ catalog.modules)
    (he : ∀ earlier ∈ catalog.modules, order.idxOf earlier.name < order.idxOf m.name →
      catalog.Orderable order earlier)
    (hn : m.elementNames.Nodup) {element : Element} (hel : element ∈ m.elements)
    (hf : ¬ catalog.DefinedEarlier order m.name element.name) {dependency : String}
    (hd : dependency ∈ element.dependencies) (hu : dependency ∉ m.elementNames)
    (hud : ¬ catalog.DefinedEarlier order m.name dependency) :
    BuildFault catalog (.unresolvedDependency m.scopeLabel element.name dependency)

end Catalog

theorem count_of_firstRepeated {seen names : List String} {name : String}
    (h : firstRepeated seen names = some name) :
    name ∈ names ∧ (name ∈ seen ∨ 2 ≤ names.count name) := by
  induction names generalizing seen with
  | nil => cases h
  | cons a rest ih =>
    unfold firstRepeated at h
    split at h <;> rename_i hseen
    · obtain rfl := Option.some.inj h
      exact ⟨List.mem_cons_self, .inl hseen⟩
    · obtain ⟨hmem, hcount⟩ := ih h
      refine ⟨List.mem_cons_of_mem a hmem, ?_⟩
      rcases hcount with hname | hcount
      · rcases List.mem_cons.mp hname with rfl | hname
        · have hpos := List.count_pos_iff.mpr hmem
          rw [List.count_cons_self]
          exact .inr (by omega)
        · exact .inl hname
      · exact .inr (hcount.trans List.count_le_count_cons)

theorem two_le_count_of_firstRepeated {names : List String} {name : String}
    (h : firstRepeated [] names = some name) : 2 ≤ names.count name := by
  simpa using (count_of_firstRepeated h).2

namespace Catalog

variable {catalog : Catalog}

theorem get?_eq_none_iff (name : String) : catalog.get? name = none ↔ name ∉ catalog.names := by
  rw [get?, List.find?_eq_none]
  simp [names]

theorem coreVersion_eq_ok_iff (version : Version) : catalog.coreVersion = .ok version ↔
    ∃ core ∈ catalog.modules, core.name = coreName ∧ core.version = some version := by
  unfold coreVersion
  constructor
  · intro h
    split at h
    · cases h
    · rename_i core hget
      obtain ⟨hc, hn⟩ := (get?_eq_some_iff ..).mp hget
      split at h
      · cases h
      · rename_i found hv
        exact ⟨core, hc, hn, hv.trans (congrArg some (Except.ok.inj h))⟩
  · rintro ⟨core, hc, hn, hv⟩
    simp only [(get?_eq_some_iff ..).mpr ⟨hc, hn⟩, hv]

theorem exists_coreVersion_eq_ok_iff :
    (∃ version, catalog.coreVersion = .ok version) ↔ catalog.HasVersion := by
  simp only [coreVersion_eq_ok_iff, HasVersion, Option.ne_none_iff_exists']
  constructor
  · rintro ⟨version, core, hc, hn, hv⟩
    exact ⟨core, hc, hn, version, hv⟩
  · rintro ⟨core, hc, hn, version, hv⟩
    exact ⟨version, core, hc, hn, hv⟩

theorem fault_of_coreVersion {error : CompileError} (h : catalog.coreVersion = .error error) :
    catalog.BuildFault error := by
  unfold coreVersion at h
  split at h
  · rename_i hget
    cases h
    exact .noCore ((get?_eq_none_iff coreName).mp hget)
  · rename_i core hget
    obtain ⟨hc, hn⟩ := (get?_eq_some_iff ..).mp hget
    split at h
    · rename_i hv
      cases h
      exact .noVersion hc hn hv
    · cases h

theorem unresolved_scope_iff (name dependency : String) :
    catalog.scope.Unresolved name dependency ↔
      ∃ m ∈ catalog.modules, m.name = name ∧ dependency ∈ m.dependencies ∧
        dependency ∉ catalog.names := by
  have hn : (catalog.scope.items.map (·.name)).Nodup := by
    simpa [scope, ConfigModule.item, Function.comp_def] using catalog.distinct
  have hnames : dependency ∈ catalog.scope.names ↔ dependency ∈ catalog.names := by
    simp [Scope.mem_names_iff, scope, names, ConfigModule.item]
  simp only [Scope.Unresolved, Scope.item?, findRev?_key_eq_some_iff hn, hnames]
  constructor
  · rintro ⟨item, ⟨hitem, rfl⟩, _, hd, _, hu⟩
    obtain ⟨m, hm, rfl⟩ := List.mem_map.mp hitem
    exact ⟨m, hm, rfl, hd, hu⟩
  · rintro ⟨m, hm, rfl, hd, hu⟩
    exact ⟨m.item, ⟨List.mem_map_of_mem hm, rfl⟩, rfl, hd, rfl, hu⟩

theorem exists_installOrder_eq_ok_iff :
    (∃ order, catalog.installOrder.result = .ok order) ↔ catalog.KnownDependencies := by
  have hweigh : (∃ order, catalog.installOrder.result = .ok order) ↔
      ∃ table, (catalog.scope.weigh scopeLabel).result = .ok table := by
    unfold installOrder
    simp only [Warned.result_map_eq_ok_iff]
    constructor
    · rintro ⟨_, table, h, _⟩
      exact ⟨table, h⟩
    · rintro ⟨table, h⟩
      exact ⟨_, table, h, rfl⟩
  rw [hweigh, Scope.exists_weigh_eq_ok_iff]
  simp only [unresolved_scope_iff, KnownDependencies]
  constructor
  · intro h m hm dependency hd
    by_contra hu
    exact h m.name dependency ⟨m, hm, rfl, hd, hu⟩
  · rintro h name dependency ⟨m, hm, _, hd, hu⟩
    exact hu (h m hm dependency hd)

theorem fault_of_installOrder (hv : catalog.HasVersion)
    (hp : DistinctNames catalog.definitions) {error : CompileError}
    (h : catalog.installOrder.result = .error error) : catalog.BuildFault error := by
  obtain ⟨name, dependency, hu, rfl⟩ :=
    Scope.unresolved_of_weigh_eq_error (Warned.result_map_eq_error_iff.mp h)
  obtain ⟨m, hm, rfl, hd, hunknown⟩ := (unresolved_scope_iff ..).mp hu
  exact .unknownModule hv hp hm hd hunknown

theorem exists_ownership {names : List String} (hnames : ∀ name ∈ names, name ∈ catalog.names)
    (ownership : Ownership) (position : Nat) :
    ∃ result, Ownership.extend catalog ownership position names = .ok result := by
  induction names generalizing ownership position with
  | nil => exact ⟨ownership, rfl⟩
  | cons name rest ih =>
    obtain ⟨hname, hrest⟩ := List.forall_mem_cons.mp hnames
    obtain ⟨m, hm, rfl⟩ := List.mem_map.mp hname
    simp only [Ownership.extend, require_of_mem hm]
    exact ih hrest _ _

section Elements

variable {order : List String} {ownership : Ownership} {m : ConfigModule}

theorem exists_ofInstallOrder (horder : catalog.installOrder.result = .ok order) :
    ∃ ownership, Ownership.ofInstallOrder catalog order = .ok ownership :=
  exists_ownership (fun name => (mem_installOrder_iff horder name).mp) .empty 0

variable (horder : catalog.installOrder.result = .ok order)
  (hownership : Ownership.ofInstallOrder catalog order = .ok ownership)

include horder hownership

theorem unresolved_elements_iff (hn : m.elementNames.Nodup) (name dependency : String) :
    (m.scope (ownership.settledBefore (order.idxOf m.name))).Unresolved name dependency ↔
      ∃ element ∈ m.elements, element.name = name ∧
        ¬ catalog.DefinedEarlier order m.name name ∧ dependency ∈ element.dependencies ∧
        ¬ catalog.DefinedEarlier order m.name dependency ∧ dependency ∉ m.elementNames := by
  have hfree (element : String) :
      (m.scope (ownership.settledBefore (order.idxOf m.name))).frozen element = false ↔
        ¬ catalog.DefinedEarlier order m.name element := by
    rw [← settledBefore_idxOf_iff horder hownership, Bool.not_eq_true]
    rfl
  simp only [Scope.Unresolved, ConfigModule.item?_scope_eq_some_iff hn, hfree,
    m.mem_names_scope_iff]
  constructor
  · rintro ⟨_, ⟨element, he, rfl, hname⟩, hf, hd, hfd, hu⟩
    exact ⟨element, he, hname, hf, hd, hfd, hu⟩
  · rintro ⟨element, he, hname, hf, hd, hfd, hu⟩
    exact ⟨element.item, ⟨element, he, rfl, hname⟩, hf, hd, hfd, hu⟩

theorem exists_outcome_eq_ok_iff :
    (∃ elements, Plan.outcome order ownership m = .ok elements) ↔ catalog.Orderable order m := by
  have hweigh : (∃ elements, Plan.outcome order ownership m = .ok elements) ↔
      m.elementNames.Nodup ∧ ∃ table, ((m.scope (ownership.settledBefore
        (order.idxOf m.name))).weigh m.scopeLabel).result = .ok table := by
    simp only [Plan.outcome, ConfigModule.elementOrder_eq_ok_iff]
    constructor
    · rintro ⟨_, hn, table, h, _⟩
      exact ⟨hn, table, h⟩
    · rintro ⟨hn, table, h⟩
      exact ⟨_, hn, table, h, rfl⟩
  rw [hweigh, Orderable]
  apply and_congr_right
  intro hn
  rw [Scope.exists_weigh_eq_ok_iff]
  simp only [unresolved_elements_iff horder hownership hn, InReach]
  constructor
  · intro h element he hf dependency hd
    by_contra hu
    rw [not_or] at hu
    exact h element.name dependency ⟨element, he, rfl, hf, hd, hu.2, hu.1⟩
  · rintro h _ dependency ⟨element, he, rfl, hf, hd, hfd, hu⟩
    exact (h element he hf dependency hd).elim hu hfd

theorem fault_of_outcome (hs : catalog.Sound) (hm : m ∈ catalog.modules)
    (he : ∀ earlier ∈ catalog.modules, order.idxOf earlier.name < order.idxOf m.name →
      catalog.Orderable order earlier)
    {error : CompileError} (h : Plan.outcome order ownership m = .error error) :
    catalog.BuildFault error := by
  unfold Plan.outcome ConfigModule.elementOrder at h
  split at h
  · rename_i element hrepeated
    cases h
    exact .repeatedElement hs horder hm he (two_le_count_of_firstRepeated hrepeated)
  · rename_i hrepeated
    have hn := ((firstRepeated_eq_none_iff [] m.elementNames).mp hrepeated).1
    obtain ⟨name, dependency, hu, rfl⟩ :=
      Scope.unresolved_of_weigh_eq_error (Warned.result_map_eq_error_iff.mp h)
    obtain ⟨element, hel, rfl, hf, hd, hfd, hunknown⟩ :=
      (unresolved_elements_iff horder hownership hn ..).mp hu
    exact .unknownElement hs horder hm he hn hel hf hd hunknown hfd

end Elements

end Catalog

namespace Plan

variable (schedule : Schedule) (width : Nat) (catalog : Catalog)

theorem exists_orderElements_eq_ok_iff {catalog : Catalog} {order : List String}
    {ownership : Ownership} (horder : catalog.installOrder.result = .ok order)
    (hownership : Ownership.ofInstallOrder catalog order = .ok ownership) :
    (∃ entries, (orderElements schedule width catalog order ownership).result = .ok entries) ↔
      ∀ m ∈ catalog.modules, catalog.Orderable order m := by
  rw [result_orderElements, mapM_task_eq_orderInTurn]
  rw [exists_orderInTurn_eq_ok_iff horder]
  apply forall₂_congr
  intro m _
  exact Catalog.exists_outcome_eq_ok_iff horder hownership

theorem exists_buildBy_eq_ok_iff :
    (∃ plan, (buildBy schedule width catalog).result = .ok plan) ↔
      catalog.HasVersion ∧ DistinctNames catalog.definitions ∧ catalog.KnownDependencies ∧
        ∃ order, catalog.installOrder.result = .ok order ∧
          ∀ m ∈ catalog.modules, catalog.Orderable order m := by
  constructor
  · rintro ⟨plan, h⟩
    obtain ⟨version, hversion, h⟩ := Warned.result_bind_eq_ok_iff.mp h
    obtain ⟨table, htable, h⟩ := Warned.result_bind_eq_ok_iff.mp h
    obtain ⟨order, horder, h⟩ := Warned.result_bind_eq_ok_iff.mp h
    obtain ⟨ownership, hownership, h⟩ := Warned.result_bind_eq_ok_iff.mp h
    obtain ⟨entries, hentries, _⟩ := Warned.result_bind_eq_ok_iff.mp h
    exact ⟨Catalog.exists_coreVersion_eq_ok_iff.mp ⟨version, hversion⟩,
      (PlaceholderTable.exists_merge_eq_ok_iff catalog).mp ⟨table, htable⟩,
      Catalog.exists_installOrder_eq_ok_iff.mp ⟨order, horder⟩, order, horder,
      (exists_orderElements_eq_ok_iff schedule width horder hownership).mp ⟨entries, hentries⟩⟩
  · rintro ⟨hversion, hplaceholders, _, order, horder, hall⟩
    obtain ⟨version, hversion⟩ := Catalog.exists_coreVersion_eq_ok_iff.mpr hversion
    obtain ⟨table, htable⟩ := (PlaceholderTable.exists_merge_eq_ok_iff catalog).mpr hplaceholders
    obtain ⟨ownership, hownership⟩ := Catalog.exists_ofInstallOrder horder
    obtain ⟨entries, hentries⟩ :=
      (exists_orderElements_eq_ok_iff schedule width horder hownership).mpr hall
    refine ⟨⟨catalog, order, entries, table, version⟩, ?_⟩
    refine Warned.result_bind_eq_ok_iff.mpr ⟨version, hversion, ?_⟩
    refine Warned.result_bind_eq_ok_iff.mpr ⟨table, htable, ?_⟩
    refine Warned.result_bind_eq_ok_iff.mpr ⟨order, horder, ?_⟩
    refine Warned.result_bind_eq_ok_iff.mpr ⟨ownership, hownership, ?_⟩
    exact Warned.result_bind_eq_ok_iff.mpr ⟨entries, hentries, rfl⟩

theorem fault_of_buildBy {error : CompileError}
    (h : (buildBy schedule width catalog).result = .error error) : catalog.BuildFault error := by
  rcases Warned.result_bind_eq_error_iff.mp h with h | ⟨version, hversion, h⟩
  · exact Catalog.fault_of_coreVersion h
  have hv := Catalog.exists_coreVersion_eq_ok_iff.mp ⟨version, hversion⟩
  rcases Warned.result_bind_eq_error_iff.mp h with h | ⟨table, htable, h⟩
  · obtain ⟨before, definition, after, heq, hd, hr⟩ :=
      PlaceholderTable.refused_of_merge_eq_error catalog h
    exact .placeholder hv heq hd hr
  have hp := (PlaceholderTable.exists_merge_eq_ok_iff catalog).mp ⟨table, htable⟩
  rcases Warned.result_bind_eq_error_iff.mp h with h | ⟨order, horder, h⟩
  · exact Catalog.fault_of_installOrder hv hp h
  have hs : catalog.Sound :=
    ⟨hv, hp, Catalog.exists_installOrder_eq_ok_iff.mp ⟨order, horder⟩⟩
  rcases Warned.result_bind_eq_error_iff.mp h with h | ⟨ownership, hownership, h⟩
  · -- The install order names only modules of the catalog, so ownership never fails.
    obtain ⟨ownership, hownership⟩ := Catalog.exists_ofInstallOrder horder
    cases hownership.symm.trans h
  rcases Warned.result_bind_eq_error_iff.mp h with h | ⟨entries, _, h⟩
  · rw [result_orderElements, mapM_task_eq_orderInTurn, orderInTurn_eq_error_iff horder] at h
    obtain ⟨m, hm, houtcome, hearlier⟩ := h
    refine Catalog.fault_of_outcome horder hownership hs hm ?_ houtcome
    intro earlier he hlt
    exact (Catalog.exists_outcome_eq_ok_iff horder hownership).mp (hearlier earlier he hlt)
  · cases h

theorem buildBy_result_cases :
    ((∃ plan, (buildBy schedule width catalog).result = .ok plan) ↔
        catalog.HasVersion ∧ DistinctNames catalog.definitions ∧ catalog.KnownDependencies ∧
          ∃ order, catalog.installOrder.result = .ok order ∧
            ∀ m ∈ catalog.modules, catalog.Orderable order m) ∧
      ∀ error, (buildBy schedule width catalog).result = .error error →
        catalog.BuildFault error :=
  ⟨exists_buildBy_eq_ok_iff schedule width catalog,
    fun _ => fault_of_buildBy schedule width catalog⟩

theorem sample_faulty_rejected :
    (buildBy [1] 2 Sample.faulty).result =
        .error (.unresolvedDependency "module 'Late'" "x" "ghost") ∧
      Sample.faulty.BuildFault (.unresolvedDependency "module 'Late'" "x" "ghost") := by
  have hrejected : (buildBy [1] 2 Sample.faulty).result =
      .error (.unresolvedDependency "module 'Late'" "x" "ghost") := by cbv
  exact ⟨hrejected, (buildBy_result_cases [1] 2 Sample.faulty).2 _ hrejected⟩

end Plan

end ApplianceScript
