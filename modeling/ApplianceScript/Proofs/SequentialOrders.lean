import ApplianceScript.Proofs.BuiltPlan
import Mathlib

namespace ApplianceScript

namespace Plan

def orderInTurn (catalog : Catalog) (ownership : Ownership) :
    Nat → List String → Except CompileError (List (String × ElementOrder))
  | _, [] => .ok []
  | position, name :: rest =>
    match catalog.require name with
    | .error error => .error error
    | .ok m =>
      match (m.elementOrder position ownership).result with
      | .error error => .error error
      | .ok elements =>
        (orderInTurn catalog ownership (position + 1) rest).map ((name, elements) :: ·)

def outcome (order : List String) (ownership : Ownership) (m : ConfigModule) :
    Except CompileError ElementOrder :=
  (m.elementOrder (order.idxOf m.name) ownership).result

variable {catalog : Catalog} {order : List String} {ownership : Ownership}

theorem mapM_task_eq_orderInTurn (position : Nat) (names : List String) :
    ((names.zipIdx position).mapM fun (name, position) =>
      (task catalog ownership position name).2.result) =
        orderInTurn catalog ownership position names := by
  induction names generalizing position with
  | nil => rfl
  | cons name rest ih =>
    rw [List.zipIdx_cons, List.mapM_cons, ih, orderInTurn]
    change ((task catalog ownership position name).2.result >>= _) = _
    unfold task
    cases catalog.require name with
    | error error => rfl
    | ok m =>
      dsimp only
      cases (m.elementOrder position ownership).result with
      | error error => rfl
      | ok elements =>
        cases orderInTurn catalog ownership (position + 1) rest <;> rfl

theorem result_task {m : ConfigModule} (hm : m ∈ catalog.modules) :
    (task catalog ownership (order.idxOf m.name) m.name).2.result =
      (outcome order ownership m).map ((m.name, ·)) := by
  unfold task
  rw [Catalog.require_of_mem hm]
  rfl

theorem exists_result_task_eq_ok_iff {m : ConfigModule} (hm : m ∈ catalog.modules) :
    (∃ entry, (task catalog ownership (order.idxOf m.name) m.name).2.result = .ok entry) ↔
      ∃ elements, outcome order ownership m = .ok elements := by
  rw [result_task hm]
  cases outcome order ownership m <;> simp [Except.map]

theorem result_task_eq_error_iff {m : ConfigModule} (hm : m ∈ catalog.modules)
    (error : CompileError) :
    (task catalog ownership (order.idxOf m.name) m.name).2.result = .error error ↔
      outcome order ownership m = .error error := by
  rw [result_task hm]
  cases outcome order ownership m <;> simp [Except.map]

section InstallOrder

variable (horder : catalog.installOrder.result = .ok order)

include horder

theorem exists_module_of_mem_order {name : String} (hname : name ∈ order) :
    ∃ m ∈ catalog.modules, m.name = name :=
  List.mem_map.mp ((Catalog.mem_installOrder_iff horder name).mp hname)

theorem orderInTurn_eq_mapM : orderInTurn catalog ownership 0 order =
    order.mapM fun name => (task catalog ownership (order.idxOf name) name).2.result := by
  rw [← mapM_task_eq_orderInTurn, zipIdx_eq_map_idxOf (Catalog.nodup_installOrder horder),
    List.mapM_map]
  rfl

theorem orderInTurn_eq_ok_iff (entries : List (String × ElementOrder)) :
    orderInTurn catalog ownership 0 order = .ok entries ↔
      entries.map (·.1) = order ∧ ∀ m ∈ catalog.modules, ∃ elements,
        outcome order ownership m = .ok elements ∧ entries.lookup m.name = some elements := by
  have hn := Catalog.nodup_installOrder horder
  rw [orderInTurn_eq_mapM horder, mapM_eq_ok_iff]
  constructor
  · intro hall
    have hkeys : entries.map (·.1) = order := by
      symm
      simpa using map_eq_map_of_forall₂ (f := id) (g := Prod.fst) hall (by
        intro name entry hentry
        obtain ⟨_, _, _, _, rfl⟩ := (result_task_eq_ok_iff ..).mp hentry
        rfl)
    refine ⟨hkeys, ?_⟩
    intro m hm
    obtain ⟨entry, hmem, hentry⟩ :=
      exists_of_forall₂_of_mem hall (Catalog.name_mem_installOrder horder hm)
    rw [result_task hm] at hentry
    cases houtcome : outcome order ownership m with
    | error error => simp [houtcome, Except.map] at hentry
    | ok elements =>
      rw [houtcome] at hentry
      obtain rfl := Except.ok.inj hentry
      exact ⟨elements, rfl, (lookup_eq_some_iff (hkeys ▸ hn) ..).mpr hmem⟩
  · rintro ⟨rfl, hall⟩
    rw [List.forall₂_map_left_iff, List.forall₂_same]
    rintro ⟨name, elements⟩ hmem
    obtain ⟨m, hm, rfl⟩ := exists_module_of_mem_order horder (List.mem_map_of_mem hmem)
    obtain ⟨found, houtcome, hlookup⟩ := hall m hm
    rw [result_task hm, houtcome]
    rw [(lookup_eq_some_iff hn ..).mpr hmem] at hlookup
    rw [Option.some.inj hlookup]
    rfl

theorem exists_orderInTurn_eq_ok_iff :
    (∃ entries, orderInTurn catalog ownership 0 order = .ok entries) ↔
      ∀ m ∈ catalog.modules, ∃ elements, outcome order ownership m = .ok elements := by
  constructor
  · rintro ⟨entries, h⟩ m hm
    obtain ⟨elements, houtcome, _⟩ := ((orderInTurn_eq_ok_iff horder entries).mp h).2 m hm
    exact ⟨elements, houtcome⟩
  · intro hall
    simp only [orderInTurn_eq_mapM horder, mapM_eq_ok_iff]
    apply exists_forall₂
    intro name hname
    obtain ⟨m, hm, rfl⟩ := exists_module_of_mem_order horder hname
    exact (exists_result_task_eq_ok_iff hm).mpr (hall m hm)

theorem orderInTurn_eq_error_iff (error : CompileError) :
    orderInTurn catalog ownership 0 order = .error error ↔
      ∃ m ∈ catalog.modules, outcome order ownership m = .error error ∧
        ∀ earlier ∈ catalog.modules, order.idxOf earlier.name < order.idxOf m.name →
          ∃ elements, outcome order ownership earlier = .ok elements := by
  have hn := Catalog.nodup_installOrder horder
  rw [orderInTurn_eq_mapM horder, mapM_eq_error_iff]
  constructor
  · rintro ⟨before, name, after, heq, hbefore, hname⟩
    have hmem : name ∈ order := heq ▸ List.mem_append_right before List.mem_cons_self
    obtain ⟨m, hm, rfl⟩ := exists_module_of_mem_order horder hmem
    refine ⟨m, hm, (result_task_eq_error_iff hm error).mp hname, ?_⟩
    -- Positions are distinct, so the modules with a smaller one are those before it.
    intro earlier hearlier hlt
    rw [heq, idxOf_lt_idxOf_iff (heq ▸ hn)] at hlt
    exact (exists_result_task_eq_ok_iff hearlier).mp (hbefore earlier.name hlt)
  · rintro ⟨m, hm, houtcome, hearlier⟩
    obtain ⟨before, after, heq⟩ :=
      List.append_of_mem (Catalog.name_mem_installOrder horder hm)
    refine ⟨before, m.name, after, heq, ?_, (result_task_eq_error_iff hm error).mpr houtcome⟩
    intro name hname
    have hmem : name ∈ order := heq ▸ List.mem_append_left _ hname
    obtain ⟨earlier, he, rfl⟩ := exists_module_of_mem_order horder hmem
    apply (exists_result_task_eq_ok_iff he).mpr (hearlier earlier he _)
    rw [heq, idxOf_lt_idxOf_iff (heq ▸ hn)]
    exact hname

theorem orderElements_eq_orderInTurn (ownership : Ownership) :
    (∀ schedule width, (orderElements schedule width catalog order ownership).result =
        orderInTurn catalog ownership 0 order) ∧
      (∀ completed, List.Perm completed (tasks catalog order ownership) →
        collect (completed.map (·.2)) = orderInTurn catalog ownership 0 order) ∧
      (∀ entries : List (String × ElementOrder),
        orderInTurn catalog ownership 0 order = .ok entries ↔
          entries.map (·.1) = order ∧ ∀ m ∈ catalog.modules, ∃ elements,
            outcome order ownership m = .ok elements ∧ entries.lookup m.name = some elements) ∧
      ∀ error, orderInTurn catalog ownership 0 order = .error error ↔
        ∃ m ∈ catalog.modules, outcome order ownership m = .error error ∧
          ∀ earlier ∈ catalog.modules, order.idxOf earlier.name < order.idxOf m.name →
            ∃ elements, outcome order ownership earlier = .ok elements := by
  refine ⟨?_, ?_, orderInTurn_eq_ok_iff horder, orderInTurn_eq_error_iff horder⟩
  · intro schedule width
    rw [result_orderElements, mapM_task_eq_orderInTurn]
  · intro completed hp
    rw [collect_eq_of_perm _ _ _ hp, mapM_task_eq_orderInTurn]

end InstallOrder

end Plan

namespace Sample

def faulty : Catalog where
  modules := [
    { name := "Late"
      sections := [{ name := "s", elements := [{ name := "x", dependencies := ["ghost"] }] }] },
    { name := "Core"
      version := some ⟨1, 0⟩
      sections := [{ name := "s", elements := [{ name := "y", dependencies := ["spirit"] }] }] }]
  distinct := by decide

end Sample

namespace Plan

theorem sample_first_fault_reported :
    Sample.faulty.installOrder.result = .ok ["Late", "Core"] ∧
      Ownership.ofInstallOrder Sample.faulty ["Late", "Core"] = .ok ⟨[("x", 0), ("y", 1)]⟩ ∧
      (orderElements [1] 2 Sample.faulty ["Late", "Core"] ⟨[("x", 0), ("y", 1)]⟩).result =
        .error (.unresolvedDependency "module 'Late'" "x" "ghost") := by
  have horder : Sample.faulty.installOrder.result = .ok ["Late", "Core"] := by cbv
  obtain ⟨hschedule, _, _, herror⟩ := orderElements_eq_orderInTurn horder ⟨[("x", 0), ("y", 1)]⟩
  refine ⟨horder, by cbv, (hschedule [1] 2).trans ((herror _).mpr ?_)⟩
  have hlate : ["Late", "Core"].idxOf "Late" = 0 := by decide
  refine ⟨_, List.mem_cons_self, by cbv, ?_⟩
  intro earlier _ hlt
  rw [hlate] at hlt
  cases hlt

end Plan

end ApplianceScript
