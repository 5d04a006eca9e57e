import ApplianceScript.Proofs.Completion
import ApplianceScript.Proofs.Ownership
import ApplianceScript.Proofs.Traversal
import ApplianceScript.Proofs.WeightOrder

namespace ApplianceScript

theorem Warned.result_bind_eq_ok_iff {α β : Type} {first : Warned α} {next : α → Warned β} {b : β} :
    (first >>= next).result = .ok b ↔
      ∃ a, first.result = .ok a ∧ (next a).result = .ok b := by
  change (Warned.bind first next).result = .ok b ↔ _
  unfold Warned.bind
  cases hfirst : first.result <;> simp

theorem Warned.result_bind_eq_error_iff {α β : Type} {first : Warned α} {next : α → Warned β}
    {error : CompileError} :
    (first >>= next).result = .error error ↔
      first.result = .error error ∨
        ∃ a, first.result = .ok a ∧ (next a).result = .error error := by
  change (Warned.bind first next).result = .error error ↔ _
  unfold Warned.bind
  cases hfirst : first.result <;> simp

theorem Warned.result_map_eq_ok_iff {α β : Type} {f : α → β} {first : Warned α} {b : β} :
    (first.map f).result = .ok b ↔ ∃ a, first.result = .ok a ∧ f a = b := by
  unfold Warned.map
  cases hfirst : first.result <;> simp [Except.map]

theorem Warned.result_map_eq_error_iff {α β : Type} {f : α → β} {first : Warned α}
    {error : CompileError} :
    (first.map f).result = .error error ↔ first.result = .error error := by
  unfold Warned.map
  cases hfirst : first.result <;> simp [Except.map]

theorem Warned.map_map {α β γ : Type} (f : α → β) (g : β → γ) (first : Warned α) :
    (first.map f).map g = first.map (g ∘ f) := by
  unfold Warned.map
  cases first.result <;> rfl

namespace Catalog

theorem get?_eq_some_iff (catalog : Catalog) (name : String) (m : ConfigModule) :
    catalog.get? name = some m ↔ m ∈ catalog.modules ∧ m.name = name :=
  find?_key_eq_some_iff catalog.distinct name m

theorem require_eq_ok_iff (catalog : Catalog) (name : String) (m : ConfigModule) :
    catalog.require name = .ok m ↔ catalog.get? name = some m := by
  unfold require
  cases catalog.get? name <;> simp

theorem require_of_mem {catalog : Catalog} {m : ConfigModule} (hm : m ∈ catalog.modules) :
    catalog.require m.name = .ok m := by
  rw [require_eq_ok_iff, get?_eq_some_iff]
  exact ⟨hm, rfl⟩

theorem defines_iff (catalog : Catalog) (element moduleName : String) :
    catalog.defines element moduleName = true ↔
      ∃ m ∈ catalog.modules, m.name = moduleName ∧ element ∈ m.elementNames := by
  simp only [defines, Option.any_eq_true, decide_eq_true_eq, get?_eq_some_iff, and_assoc]

theorem nodup_names (catalog : Catalog) : catalog.names.Nodup := catalog.distinct

theorem names_scope (catalog : Catalog) : catalog.scope.names = catalog.names := by
  simp only [Scope.names, scope, List.map_map]
  exact eraseDups_eq_self_of_nodup catalog.nodup_names

theorem installOrder_perm {catalog : Catalog} {order : List String}
    (h : catalog.installOrder.result = .ok order) : order.Perm catalog.names := by
  obtain ⟨table, hw, rfl⟩ := Warned.result_map_eq_ok_iff.mp h
  exact catalog.names_scope ▸ Scope.descending_perm_names hw

section InstallOrder

variable {catalog : Catalog} {order : List String}
  (horder : catalog.installOrder.result = .ok order)

include horder

theorem nodup_installOrder : order.Nodup :=
  (installOrder_perm horder).nodup_iff.mpr catalog.nodup_names

theorem mem_installOrder_iff (name : String) : name ∈ order ↔ name ∈ catalog.names :=
  (installOrder_perm horder).mem_iff

theorem name_mem_installOrder {m : ConfigModule} (hm : m ∈ catalog.modules) : m.name ∈ order :=
  (mem_installOrder_iff horder m.name).mpr (List.mem_map_of_mem hm)

theorem settledBefore_idxOf_iff {ownership : Ownership}
    (hownership : Ownership.ofInstallOrder catalog order = .ok ownership)
    (moduleName element : String) :
    ownership.settledBefore (order.idxOf moduleName) element = true ↔
      catalog.DefinedEarlier order moduleName element := by
  rw [Ownership.settledBefore_iff hownership]
  constructor
  · rintro ⟨owner, htake, hd⟩
    exact ⟨owner, hd, (List.mem_take_iff_idxOf_lt (List.mem_of_mem_take htake)).mp htake⟩
  · rintro ⟨owner, hd, hbefore⟩
    obtain ⟨m, hm, rfl, _⟩ := (catalog.defines_iff ..).mp hd
    have howner := name_mem_installOrder horder hm
    exact ⟨m.name, (List.mem_take_iff_idxOf_lt howner).mpr hbefore, hd⟩

end InstallOrder

end Catalog

theorem firstRepeated_eq_none_iff (seen names : List String) :
    firstRepeated seen names = none ↔ names.Nodup ∧ ∀ name ∈ names, name ∉ seen := by
  induction names generalizing seen with
  | nil => simp [firstRepeated]
  | cons a rest ih =>
    unfold firstRepeated
    split <;> rename_i hseen
    · simp [hseen]
    · rw [ih, List.nodup_cons]
      constructor
      · rintro ⟨hrest, hfresh⟩
        refine ⟨⟨?_, hrest⟩, ?_⟩
        · intro ha
          exact hfresh a ha List.mem_cons_self
        · intro name hname
          rcases List.mem_cons.mp hname with rfl | hname
          · exact hseen
          · exact fun h => hfresh name hname (List.mem_cons_of_mem a h)
      · rintro ⟨⟨ha, hrest⟩, hfresh⟩
        refine ⟨hrest, ?_⟩
        intro name hname h
        rcases List.mem_cons.mp h with rfl | h
        · exact ha hname
        · exact hfresh name (List.mem_cons_of_mem a hname) h

namespace ConfigModule

theorem element?_eq_some_iff {m : ConfigModule} (hn : m.elementNames.Nodup) (name : String)
    (element : Element) :
    m.element? name = some element ↔ element ∈ m.elements ∧ element.name = name :=
  find?_key_eq_some_iff hn name element

theorem mem_names_scope_iff (m : ConfigModule) (settled : String → Bool) (name : String) :
    name ∈ (m.scope settled).names ↔ name ∈ m.elementNames := by
  simp [Scope.mem_names_iff, scope, elementNames, Element.item]

theorem item?_scope_eq_some_iff {m : ConfigModule} (hn : m.elementNames.Nodup)
    (settled : String → Bool) (name : String) (item : Item) :
    (m.scope settled).item? name = some item ↔
      ∃ element ∈ m.elements, element.item = item ∧ element.name = name := by
  constructor
  · intro h
    obtain ⟨hm, rfl⟩ := Scope.name_of_item? h
    obtain ⟨element, he, rfl⟩ := List.mem_map.mp hm
    exact ⟨element, he, rfl, rfl⟩
  · rintro ⟨element, he, rfl, rfl⟩
    have hmem : element.name ∈ (m.scope settled).names :=
      (m.mem_names_scope_iff settled element.name).mpr (List.mem_map_of_mem he)
    obtain ⟨item, hi⟩ := (Scope.exists_item?_iff _ _).mpr hmem
    obtain ⟨hm, hname⟩ := Scope.name_of_item? hi
    obtain ⟨other, ho, rfl⟩ := List.mem_map.mp hm
    rw [hi, List.inj_on_of_nodup_map hn ho he hname]

theorem elementOrder_eq_ok_iff (m : ConfigModule) (position : Nat)
    (ownership : Ownership) (order : ElementOrder) :
    (m.elementOrder position ownership).result = .ok order ↔
      m.elementNames.Nodup ∧ ∃ table,
        ((m.scope (ownership.settledBefore position)).weigh m.scopeLabel).result = .ok table ∧
          ⟨table.descending.filter (!ownership.settledBefore position ·)⟩ = order := by
  unfold elementOrder
  cases hrepeated : firstRepeated [] m.elementNames with
  | some name =>
    have hn : ¬ m.elementNames.Nodup := by
      intro hn
      rw [(firstRepeated_eq_none_iff [] m.elementNames).mpr ⟨hn, by simp⟩] at hrepeated
      cases hrepeated
    simp [Warned.error, hn]
  | none =>
    have hn := ((firstRepeated_eq_none_iff [] m.elementNames).mp hrepeated).1
    rw [Warned.result_map_eq_ok_iff]
    exact (and_iff_right hn).symm

end ConfigModule

namespace Plan

theorem result_task_eq_ok_iff (catalog : Catalog) (ownership : Ownership) (position : Nat)
    (name : String) (entry : String × ElementOrder) :
    (task catalog ownership position name).2.result = .ok entry ↔
      ∃ m order, catalog.get? name = some m ∧
        (m.elementOrder position ownership).result = .ok order ∧ (name, order) = entry := by
  unfold task
  cases hm : catalog.require name with
  | error error =>
    have hnone : catalog.get? name = none := by
      rw [Option.eq_none_iff_forall_ne_some]
      intro m hget
      rw [(catalog.require_eq_ok_iff name m).mpr hget] at hm
      cases hm
    simp [hnone]
  | ok m =>
    rw [(catalog.require_eq_ok_iff name m).mp hm]
    cases hr : (m.elementOrder position ownership).result <;> simp [hr, Except.map]

structure IsPlanOf (plan : Plan) (catalog : Catalog) : Prop where
  catalog_eq : plan.catalog = catalog
  version : catalog.coreVersion = .ok plan.version
  placeholders : PlaceholderTable.merge catalog = .ok plan.placeholders
  installOrder : catalog.installOrder.result = .ok plan.installOrder
  elementOrders : ∃ ownership,
    Ownership.ofInstallOrder catalog plan.installOrder = .ok ownership ∧
      List.Forall₂ (fun (name, position) entry => ∃ m order, catalog.get? name = some m ∧
        (m.elementOrder position ownership).result = .ok order ∧ (name, order) = entry)
        plan.installOrder.zipIdx plan.elementOrders

theorem isPlanOf_of_buildBy {schedule : Schedule} {width : Nat} {catalog : Catalog} {plan : Plan}
    (h : (buildBy schedule width catalog).result = .ok plan) : plan.IsPlanOf catalog := by
  obtain ⟨version, hversion, h⟩ := Warned.result_bind_eq_ok_iff.mp h
  obtain ⟨placeholders, hplaceholders, h⟩ := Warned.result_bind_eq_ok_iff.mp h
  obtain ⟨installOrder, horder, h⟩ := Warned.result_bind_eq_ok_iff.mp h
  obtain ⟨ownership, hownership, h⟩ := Warned.result_bind_eq_ok_iff.mp h
  obtain ⟨elementOrders, helements, h⟩ := Warned.result_bind_eq_ok_iff.mp h
  cases Except.ok.inj h
  rw [result_orderElements, mapM_eq_ok_iff] at helements
  refine ⟨rfl, hversion, hplaceholders, horder, ownership, hownership, ?_⟩
  apply helements.imp
  rintro ⟨name, position⟩ entry hentry
  exact (result_task_eq_ok_iff ..).mp hentry

end Plan

end ApplianceScript
