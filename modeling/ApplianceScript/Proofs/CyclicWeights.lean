import ApplianceScript.Proofs.RouteCounts
import Mathlib.Algebra.BigOperators.Group.Finset.Piecewise

/-!
Weights on cycles.

Walks follow an item each time they arrive at it, except where the arrival closes a cycle. So an
item weighs one more than there are entries that name it on the lists that are followed, each
counted as often as it is followed. What closes a cycle is weight that an item does not hand on:
it can outweigh what it depends on, but by less than the number of cycles recorded from it.
-/

namespace ApplianceScript

theorem head?_closing {path : List String} {name : String} (h : name ∈ path) :
    (closing path name).head? = some name := by
  unfold closing
  induction path with
  | nil => cases h
  | cons other path ih =>
    by_cases hne : other = name
    · subst hne
      simp
    · rw [List.dropWhile_cons_of_pos (by simpa using hne)]
      exact ih ((List.mem_cons.mp h).resolve_left fun heq => hne heq.symm)

namespace WeightTable

/-- The number of recorded cycles that start, and end, with the name. -/
def returns (table : WeightTable) (name : String) : Nat :=
  table.cycles.countP (·.head? == some name)

def followed (table : WeightTable) (name : String) : Nat :=
  (table.weight? name).getD 0 - table.returns name

end WeightTable

namespace Scope

def returns (name : String) (steps : List Step) : Nat :=
  (steps.filterMap Step.cycle?).countP (·.head? == some name)

def listings (scope : Scope) (name target : String) : Nat :=
  (scope.item? name).elim 0 (·.dependencies.count target)

def passed (scope : Scope) (target : String) (visits : String → Nat) : Nat :=
  ∑ name ∈ scope.names.toFinset, scope.listings name target * visits name

def Balanced (scope : Scope) (target : String) (outside : Nat) (steps : List Step) : Prop :=
  steps.count (.reach target) + scope.passed target (returns · steps) =
    outside + scope.passed target fun name => steps.count (.reach name)

variable {scope : Scope} {target : String}

theorem returns_append (name : String) (steps more : List Step) :
    returns name (steps ++ more) = returns name steps + returns name more := by
  simp only [returns, List.filterMap_append, List.countP_append]

theorem returns_reach_cons (name other : String) (steps : List Step) :
    returns name (.reach other :: steps) = returns name steps := rfl

theorem returns_flatMap (name : String) (names : List String) (part : String → List Step) :
    returns name (names.flatMap part) = (names.map (returns name ∘ part)).sum := by
  induction names with
  | nil => rfl
  | cons other names ih =>
    rw [List.flatMap_cons, returns_append, ih, List.map_cons, List.sum_cons, Function.comp_apply]

theorem returns_closed {path : List String} {next : String} (hp : next ∈ path) (name : String) :
    returns name [.reach next, .close (closing path next)] = if name = next then 1 else 0 := by
  have hcycles : [Step.reach next, .close (closing path next)].filterMap Step.cycle? =
      [closing path next] := rfl
  rw [returns, hcycles, List.countP_singleton, head?_closing hp]
  simp only [beq_iff_eq, Option.some.injEq, @eq_comm _ next]

theorem passed_add (scope : Scope) (target : String) (visits more : String → Nat) :
    scope.passed target (fun name => visits name + more name) =
      scope.passed target visits + scope.passed target more := by
  simp only [passed, Nat.mul_add, Finset.sum_add_distrib]

theorem passed_zero (scope : Scope) (target : String) :
    scope.passed target (fun _ => 0) = 0 := by
  simp only [passed, Nat.mul_zero, Finset.sum_const_zero]

theorem passed_single {name : String} (hn : name ∈ scope.names) :
    scope.passed target (fun other => if other = name then 1 else 0) =
      scope.listings name target := by
  simp [passed, hn]

theorem passed_reach_cons {name : String} (hn : name ∈ scope.names) (steps : List Step) :
    scope.passed target (fun other => (Step.reach name :: steps).count (.reach other)) =
      scope.listings name target +
        scope.passed target fun other => steps.count (.reach other) := by
  rw [← passed_single hn, Nat.add_comm, ← passed_add]
  congr 1
  funext other
  rw [List.count_cons]
  simp only [beq_iff_eq, Step.reach.injEq, @eq_comm _ name]

namespace Balanced

variable {outside more : Nat} {steps rest : List Step}

theorem nil : scope.Balanced target 0 [] := by
  simp [Balanced, returns, passed_zero]

theorem missing (name dependency : String) :
    scope.Balanced target 0 [.missing name dependency] := by
  have hreturns (other : String) : returns other [.missing name dependency] = 0 := rfl
  simp only [Balanced, hreturns, List.count_singleton, beq_iff_eq, reduceCtorEq, ↓reduceIte,
    passed_zero]

theorem closed {path : List String} {name : String} (hn : name ∈ scope.names) (hp : name ∈ path) :
    scope.Balanced target (if name = target then 1 else 0)
      [.reach name, .close (closing path name)] := by
  unfold Balanced
  simp only [returns_closed hp]
  rw [passed_single hn, passed_reach_cons hn, List.count_cons]
  simp [passed_zero]

theorem append (hs : scope.Balanced target outside steps) (hr : scope.Balanced target more rest) :
    scope.Balanced target (outside + more) (steps ++ rest) := by
  unfold Balanced at *
  simp only [returns_append, List.count_append, passed_add]
  omega

theorem flatMap {names : List String} {count : String → Nat} {part : String → List Step}
    (h : ∀ name ∈ names, scope.Balanced target (count name) (part name)) :
    scope.Balanced target (names.map count).sum (names.flatMap part) := by
  induction names with
  | nil => exact nil
  | cons name names ih =>
    rw [List.map_cons, List.sum_cons, List.flatMap_cons]
    apply append (h name List.mem_cons_self)
    exact ih fun other hother => h other (List.mem_cons_of_mem name hother)

theorem reach_cons {item : Item} (hi : scope.item? item.name = some item)
    (h : scope.Balanced target (item.dependencies.count target) steps) :
    scope.Balanced target (if item.name = target then 1 else 0)
      (.reach item.name :: steps) := by
  have hn := (scope.exists_item?_iff item.name).mp ⟨item, hi⟩
  have hlistings : scope.listings item.name target = item.dependencies.count target := by
    rw [listings, hi, Option.elim_some]
  unfold Balanced at *
  simp only [returns_reach_cons]
  rw [passed_reach_cons hn, hlistings, List.count_cons]
  simp only [beq_iff_eq, Step.reach.injEq]
  omega

end Balanced

theorem sum_map_if_eq_count (names : List String) (target : String) :
    (names.map fun name => if name = target then 1 else 0).sum = names.count target := by
  induction names with
  | nil => rfl
  | cons name names ih =>
    rw [List.map_cons, List.sum_cons, ih, List.count_cons, Nat.add_comm]
    simp

theorem balanced_follow (hf : scope.Free target) (path : List String) (item : Item) :
    scope.Balanced target (item.dependencies.count target) (scope.follow path item) := by
  obtain ⟨hname, hfrozen⟩ := (scope.free_iff target).mp hf
  induction path, item using follow.induct scope with
  | case1 path item ih =>
    rw [follow_eq, ← sum_map_if_eq_count]
    apply Balanced.flatMap
    intro b _
    rcases scope.branch_cases path item b with
      ⟨hb, heq⟩ | ⟨_, hb, heq⟩ | ⟨_, hb, hp, heq⟩ | ⟨next, rfl, hi, _, hp, heq⟩
    · have hne : b ≠ target := by
        rintro rfl
        rw [hb] at hfrozen
        cases hfrozen
      rw [heq, if_neg hne]
      exact .nil
    · have hne : b ≠ target := by
        rintro rfl
        exact hb hname
      rw [heq, if_neg hne]
      exact .missing item.name b
    · rw [heq]
      exact .closed hb hp
    · rw [heq]
      exact .reach_cons hi (ih next.name next hi hp)

theorem balanced_walk (hf : scope.Free target) : scope.Balanced target 1 scope.walk := by
  have hcount := List.count_eq_one_of_mem scope.nodup_names ((scope.free_iff target).mp hf).1
  rw [walk_eq_follow, ← hcount]
  exact balanced_follow hf [] ⟨"", scope.names⟩

theorem returns_follow_le (name : String) (path : List String) (item : Item) :
    returns name (scope.follow path item) ≤ (scope.follow path item).count (.reach name) := by
  induction path, item using follow.induct scope with
  | case1 path item ih =>
    rw [follow_eq, returns_flatMap, List.count_flatMap]
    apply List.sum_le_sum
    intro b _
    simp only [Function.comp_apply]
    rcases scope.branch_cases path item b with
      ⟨_, heq⟩ | ⟨_, _, heq⟩ | ⟨_, _, hp, heq⟩ | ⟨next, rfl, hi, _, hp, heq⟩
    · simp [heq, returns]
    · simp [heq, returns, Step.cycle?]
    · rw [heq, returns_closed hp, List.count_cons]
      simp [@eq_comm _ name]
    · rw [heq, returns_reach_cons]
      exact (ih next.name next hi hp).trans List.count_le_count_cons

theorem returns_walk_le (scope : Scope) (name : String) :
    returns name scope.walk ≤ scope.walk.count (.reach name) := by
  rw [walk_eq_follow]
  exact returns_follow_le name [] ⟨"", scope.names⟩

section Weighed

variable {label : String} {table : WeightTable} (hw : (scope.weigh label).result = .ok table)

include hw

theorem returns_of_weigh (name : String) : table.returns name = returns name scope.walk := by
  obtain ⟨_, rfl⟩ := (scope.weigh_eq_ok_iff label table).mp hw
  rfl

theorem weight?_eq_followed_add {name : String} (hn : name ∈ scope.names) :
    table.weight? name = some (table.followed name + table.returns name) := by
  rw [WeightTable.followed, weight?_of_weigh hw hn, Option.getD_some, returns_of_weigh hw,
    Nat.sub_add_cancel (scope.returns_walk_le name)]

theorem weight?_eq_succ_passed (hf : scope.Free target) :
    table.weight? target = some (1 + scope.passed target table.followed) := by
  have hbalanced := balanced_walk hf
  rw [weight?_of_weigh hw ((scope.free_iff target).mp hf).1]
  congr 1
  have hvisits : scope.passed target (fun name => scope.walk.count (.reach name)) =
      scope.passed target table.followed + scope.passed target (returns · scope.walk) := by
    rw [← passed_add]
    apply Finset.sum_congr rfl
    intro name hname
    have hn := List.mem_toFinset.mp hname
    have hweight := weight?_eq_followed_add hw hn
    rw [weight?_of_weigh hw hn, returns_of_weigh hw] at hweight
    dsimp only
    rw [Option.some.inj hweight]
  unfold Balanced at hbalanced
  omega

end Weighed

end Scope

namespace Catalog

variable {catalog : Catalog} {table : WeightTable}

theorem free_scope (catalog : Catalog) {name : String} (hn : name ∈ catalog.names) :
    catalog.scope.Free name :=
  (Scope.free_iff ..).mpr ⟨catalog.names_scope ▸ hn, rfl⟩

theorem passed_scope (catalog : Catalog) (target : String) (visits : String → Nat) :
    catalog.scope.passed target visits =
      (catalog.modules.map fun m => m.dependencies.count target * visits m.name).sum := by
  rw [Scope.passed, names_scope, List.sum_toFinset _ catalog.nodup_names, names, List.map_map]
  congr 1
  apply List.map_congr_left
  intro m hm
  simp only [Function.comp_apply, Scope.listings, item?_scope hm, Option.elim_some]
  rfl

theorem followed_le_passed {m : ConfigModule} (hm : m ∈ catalog.modules) {dependency : String}
    (hd : dependency ∈ m.dependencies) (visits : String → Nat) :
    visits m.name ≤ catalog.scope.passed dependency visits := by
  rw [passed_scope]
  have hone := Nat.mul_le_mul_right (visits m.name) (List.count_pos_iff.mpr hd)
  rw [Nat.one_mul] at hone
  apply hone.trans
  exact List.single_le_sum (by simp) _ (List.mem_map_of_mem hm)

/-- A module weighs one more than the entries that name it on the lists that are followed. So what
it depends on may weigh less, but by less than the number of cycles recorded from it, and is
installed first unless it does or the weights tie. -/
theorem dependencies_nearly_outweigh
    (hw : (catalog.scope.weigh scopeLabel).result = .ok table) :
    catalog.installOrder.result = .ok table.descending ∧
      (∀ name ∈ catalog.names, table.weight? name = some (1 +
        (catalog.modules.map fun m => m.dependencies.count name * table.followed m.name).sum)) ∧
      ∀ m ∈ catalog.modules, ∀ dependency ∈ m.dependencies, ∃ own other,
        table.weight? m.name = some own ∧ table.weight? dependency = some other ∧
          own = table.followed m.name + table.returns m.name ∧
          own < other + table.returns m.name ∧
          (table.returns m.name ≤ 1 → own ≤ other) ∧
          (own ≤ other → own = other ∨ List.Sublist [dependency, m.name] table.descending) := by
  have horder : catalog.installOrder.result = .ok table.descending :=
    Warned.result_map_eq_ok_iff.mpr ⟨table, hw, rfl⟩
  refine ⟨horder, ?_, ?_⟩
  · intro name hn
    rw [Scope.weight?_eq_succ_passed hw (catalog.free_scope hn), passed_scope]
  · intro m hm dependency hd
    have hn := mem_names_of_mem_dependencies horder hm hd
    have hown : m.name ∈ catalog.scope.names := catalog.names_scope ▸ List.mem_map_of_mem hm
    have hpassed := followed_le_passed hm hd table.followed
    have hfirst := Scope.weight?_eq_followed_add hw hown
    have hsecond := Scope.weight?_eq_succ_passed hw (catalog.free_scope hn)
    refine ⟨_, _, hfirst, hsecond, rfl, by omega, by omega, ?_⟩
    intro hle
    rcases Nat.lt_or_eq_of_le hle with hlt | heq
    · exact .inr (Scope.pair_sublist_of_lighter hw hfirst hsecond hlt)
    · exact .inl heq

end Catalog

namespace Sample

def entwined : Catalog where
  modules := [{ name := "Core" }, { name := "Network", dependencies := ["Core", "Routing"] },
    { name := "Routing", dependencies := ["Network"] },
    { name := "Access", dependencies := ["Network"] }]
  distinct := by decide

def entwinedTable : WeightTable where
  entries := [("Core", 4), ("Network", 5), ("Routing", 4), ("Access", 1)]
  cycles := [["Network", "Routing", "Network"], ["Routing", "Network", "Routing"],
    ["Network", "Routing", "Network"]]

theorem weigh_entwined :
    (entwined.scope.weigh Catalog.scopeLabel).result = .ok entwinedTable := by cbv

end Sample

namespace Catalog

theorem sample_network_before_access :
    (Sample.entwined.scope.weigh scopeLabel).result = .ok Sample.entwinedTable ∧
      Sample.entwined.installOrder.result = .ok ["Network", "Core", "Routing", "Access"] ∧
      List.Sublist ["Network", "Access"] Sample.entwinedTable.descending := by
  obtain ⟨horder, _, hheavier⟩ := dependencies_nearly_outweigh Sample.weigh_entwined
  have hdescending : Sample.entwinedTable.descending = ["Network", "Core", "Routing", "Access"] := by
    cbv
  refine ⟨Sample.weigh_entwined, hdescending ▸ horder, ?_⟩
  obtain ⟨own, other, hown, hother, _, _, hle, hbefore⟩ :=
    hheavier { name := "Access", dependencies := ["Network"] } (by decide) "Network" (by decide)
  have hreturns : Sample.entwinedTable.returns "Access" ≤ 1 := by decide
  have hlight : Sample.entwinedTable.weight? "Access" = some 1 := by decide
  have hheavy : Sample.entwinedTable.weight? "Network" = some 5 := by decide
  obtain rfl := Option.some.inj (hlight.symm.trans hown)
  obtain rfl := Option.some.inj (hheavy.symm.trans hother)
  exact (hbefore (hle hreturns)).resolve_left (by decide)

theorem not_dependencies_outweigh :
    ¬ ∀ (catalog : Catalog) (table : WeightTable),
      (catalog.scope.weigh scopeLabel).result = .ok table →
        ∀ m ∈ catalog.modules, ∀ dependency ∈ m.dependencies, ∃ own other,
          table.weight? m.name = some own ∧ table.weight? dependency = some other ∧ own ≤ other ∧
            (own = other ∨ List.Sublist [dependency, m.name] table.descending) := by
  intro h
  obtain ⟨own, other, hown, hother, hle, _⟩ := h Sample.entwined Sample.entwinedTable
    Sample.weigh_entwined { name := "Network", dependencies := ["Core", "Routing"] } (by decide)
    "Core" (by decide)
  have hheavy : Sample.entwinedTable.weight? "Network" = some 5 := by decide
  have hlight : Sample.entwinedTable.weight? "Core" = some 4 := by decide
  obtain rfl := Option.some.inj (hheavy.symm.trans hown)
  obtain rfl := Option.some.inj (hlight.symm.trans hother)
  omega

end Catalog

end ApplianceScript
