import ApplianceScript.Proofs.Lists
import ApplianceScript.Weights.Table
import Mathlib.Data.List.TakeWhile
import Mathlib.Logic.Relation

namespace ApplianceScript

open Relation

namespace Scope

/-- A free item lists a free item among its dependencies. -/
def Needs (scope : Scope) (a b : String) : Prop :=
  ∃ item, scope.item? a = some item ∧ scope.frozen a = false ∧
    b ∈ item.dependencies ∧ scope.frozen b = false ∧ b ∈ scope.names

def OnCycle (scope : Scope) (a : String) : Prop := TransGen scope.Needs a a

def Unresolved (scope : Scope) (name dependency : String) : Prop :=
  ∃ item, scope.item? name = some item ∧ scope.frozen name = false ∧
    dependency ∈ item.dependencies ∧ scope.frozen dependency = false ∧ dependency ∉ scope.names

def Complete (scope : Scope) : Prop := ∀ step ∈ scope.walk, step.isMissing = false

theorem mem_names_iff (scope : Scope) (name : String) :
    name ∈ scope.names ↔ ∃ item ∈ scope.items, item.name = name := by
  simp only [names, List.mem_eraseDups, List.mem_map]

theorem item?_eq_none_iff (scope : Scope) (name : String) :
    scope.item? name = none ↔ name ∉ scope.names := by
  rw [mem_names_iff, item?, List.findRev?_eq_find?_reverse, List.find?_eq_none]
  simp

theorem exists_item?_iff (scope : Scope) (name : String) :
    (∃ item, scope.item? name = some item) ↔ name ∈ scope.names := by
  rw [← Option.isSome_iff_exists, ← Option.ne_none_iff_isSome, Ne, item?_eq_none_iff, not_not]

theorem nodup_names (scope : Scope) : scope.names.Nodup :=
  nodup_eraseDups _

def branch (scope : Scope) (path : List String) (item : Item) (dependency : String) : List Step :=
  if scope.frozen dependency then []
  else
    match scope.item? dependency with
    | none => [.missing item.name dependency]
    | some next =>
      if dependency ∈ path then [.reach dependency, .close (closing path dependency)]
      else .reach dependency :: scope.follow (path ++ [dependency]) next

theorem follow_eq (scope : Scope) (path : List String) (item : Item) :
    scope.follow path item = item.dependencies.flatMap (scope.branch path item) := by
  rw [follow]
  congr 1
  funext dependency
  unfold branch
  split
  · rfl
  · split <;> rename_i h <;> simp only [h]
    split <;> rfl

theorem branch_frozen (scope : Scope) (path : List String) (item : Item) {b : String}
    (hf : scope.frozen b = true) : scope.branch path item b = [] := by
  simp only [branch, hf, ↓reduceIte]

theorem branch_closed (scope : Scope) (path : List String) (item : Item) {b : String}
    (hf : scope.frozen b = false) (hb : b ∈ scope.names) (hp : b ∈ path) :
    scope.branch path item b = [.reach b, .close (closing path b)] := by
  obtain ⟨next, hn⟩ := (scope.exists_item?_iff b).mpr hb
  simp only [branch, hf, hn, hp, Bool.false_eq_true, ↓reduceIte]

theorem branch_open (scope : Scope) (path : List String) (item : Item) {b : String} {next : Item}
    (hf : scope.frozen b = false) (hn : scope.item? b = some next) (hp : b ∉ path) :
    scope.branch path item b = .reach b :: scope.follow (path ++ [b]) next := by
  simp only [branch, hf, hn, hp, Bool.false_eq_true, ↓reduceIte]

theorem branch_missing (scope : Scope) (path : List String) (item : Item) {b : String}
    (hf : scope.frozen b = false) (hb : b ∉ scope.names) :
    scope.branch path item b = [.missing item.name b] := by
  have hn := (scope.item?_eq_none_iff b).mpr hb
  simp only [branch, hf, hn, Bool.false_eq_true, ↓reduceIte]

theorem branch_cases (scope : Scope) (path : List String) (item : Item) (b : String) :
    (scope.frozen b = true ∧ scope.branch path item b = []) ∨
    (scope.frozen b = false ∧ b ∉ scope.names ∧
      scope.branch path item b = [.missing item.name b]) ∨
    (scope.frozen b = false ∧ b ∈ scope.names ∧ b ∈ path ∧
      scope.branch path item b = [.reach b, .close (closing path b)]) ∨
    ∃ next, b = next.name ∧ scope.item? next.name = some next ∧ scope.frozen next.name = false ∧
      next.name ∉ path ∧
      scope.branch path item next.name =
        .reach next.name :: scope.follow (path ++ [next.name]) next := by
  cases hf : scope.frozen b with
  | true => exact .inl ⟨rfl, scope.branch_frozen path item hf⟩
  | false =>
    by_cases hn : b ∈ scope.names
    · by_cases hp : b ∈ path
      · exact .inr (.inr (.inl ⟨rfl, hn, hp, scope.branch_closed path item hf hn hp⟩))
      · obtain ⟨next, hi⟩ := (scope.exists_item?_iff b).mpr hn
        obtain rfl := (name_of_item? hi).2
        exact .inr (.inr (.inr ⟨next, rfl, hi, hf, hp, scope.branch_open path item hf hi hp⟩))
    · exact .inr (.inl ⟨rfl, hn, scope.branch_missing path item hf hn⟩)

theorem needs_of_mem {scope : Scope} {item : Item} {b : String}
    (hi : scope.item? item.name = some item) (hf : scope.frozen item.name = false)
    (hb : b ∈ item.dependencies) (hfb : scope.frozen b = false) (hn : b ∈ scope.names) :
    scope.Needs item.name b := ⟨item, hi, hf, hb, hfb, hn⟩

theorem transGen_of_reach_mem_follow {scope : Scope} {path : List String} {item : Item}
    (hi : scope.item? item.name = some item) (hf : scope.frozen item.name = false) {n : String}
    (hn : .reach n ∈ scope.follow path item) : TransGen scope.Needs item.name n := by
  induction path, item using follow.induct scope with
  | case1 path item ih =>
    rw [follow_eq, List.mem_flatMap] at hn
    obtain ⟨b, hb, hn⟩ := hn
    rcases scope.branch_cases path item b with
      ⟨_, heq⟩ | ⟨_, _, heq⟩ | ⟨hfb, hbn, _, heq⟩ | ⟨next, rfl, hnext, hfb, hp, heq⟩
    · simp [heq] at hn
    · simp [heq] at hn
    · simp only [heq, List.mem_cons, Step.reach.injEq, List.not_mem_nil, or_false,
        reduceCtorEq] at hn
      exact hn ▸ .single (needs_of_mem hi hf hb hfb hbn)
    · have hneed := needs_of_mem hi hf hb hfb ((scope.exists_item?_iff _).mp ⟨next, hnext⟩)
      rw [heq, List.mem_cons, Step.reach.injEq] at hn
      rcases hn with rfl | hn
      · exact .single hneed
      · exact .head hneed (ih next.name next hnext hp hnext hfb hn)

theorem reach_mem_follow {scope : Scope} (path : List String) {item : Item} {b : String}
    (hb : b ∈ item.dependencies) (hfb : scope.frozen b = false) (hn : b ∈ scope.names) :
    .reach b ∈ scope.follow path item := by
  rw [follow_eq, List.mem_flatMap]
  refine ⟨b, hb, ?_⟩
  by_cases hp : b ∈ path
  · rw [branch_closed scope path item hfb hn hp]
    exact List.mem_cons_self
  · obtain ⟨next, hnext⟩ := (scope.exists_item?_iff b).mpr hn
    rw [branch_open scope path item hfb hnext hp]
    exact List.mem_cons_self

theorem walkFrom_eq {scope : Scope} {item : Item} (hi : scope.item? item.name = some item)
    (hf : scope.frozen item.name = false) :
    scope.walkFrom item.name = .reach item.name :: scope.follow [item.name] item := by
  simp only [walkFrom, hi, hf, Bool.false_eq_true, ↓reduceIte]

theorem walkFrom_frozen (scope : Scope) {name : String} (hf : scope.frozen name = true) :
    scope.walkFrom name = [] := by
  unfold walkFrom
  split
  · rw [if_pos hf]
  · rfl

theorem walk_eq_follow (scope : Scope) : scope.walk = scope.follow [] ⟨"", scope.names⟩ := by
  rw [walk, follow_eq]
  apply List.flatMap_congr
  intro name hn
  cases hf : scope.frozen name with
  | true => rw [walkFrom_frozen scope hf, branch_frozen scope _ _ hf]
  | false =>
    obtain ⟨item, hi⟩ := (scope.exists_item?_iff name).mpr hn
    obtain rfl := (name_of_item? hi).2
    rw [walkFrom_eq hi hf, branch_open scope _ _ hf hi List.not_mem_nil, List.nil_append]

theorem missing_mem_walk {scope : Scope} {name dependency : String}
    (hu : scope.Unresolved name dependency) : .missing name dependency ∈ scope.walk := by
  obtain ⟨item, hi, hf, hd, hfd, hdn⟩ := hu
  obtain rfl := (name_of_item? hi).2
  rw [walk, List.mem_flatMap]
  refine ⟨item.name, (scope.exists_item?_iff _).mp ⟨item, hi⟩, ?_⟩
  rw [walkFrom_eq hi hf, follow_eq]
  apply List.mem_cons_of_mem
  rw [List.mem_flatMap]
  exact ⟨dependency, hd, by rw [branch_missing scope _ item hfd hdn]; exact List.mem_cons_self⟩

theorem Complete.mem_names {scope : Scope} (hc : scope.Complete) {item : Item} {b : String}
    (hi : scope.item? item.name = some item) (hf : scope.frozen item.name = false)
    (hb : b ∈ item.dependencies) (hfb : scope.frozen b = false) : b ∈ scope.names := by
  by_contra hbn
  simpa [Step.isMissing] using hc _ (missing_mem_walk ⟨item, hi, hf, hb, hfb, hbn⟩)

theorem fault?_eq_none_iff (label : String) (step : Step) :
    step.fault? label = none ↔ step.isMissing = false := by
  cases step <;> simp [Step.fault?, Step.isMissing]

theorem weigh_eq_ok_iff (scope : Scope) (label : String) (table : WeightTable) :
    (scope.weigh label).result = .ok table ↔
      scope.Complete ∧ WeightTable.ofSteps scope.names scope.walk = table := by
  unfold weigh Complete
  dsimp only
  split <;> rename_i hfault
  · obtain ⟨step, hs, he⟩ := List.exists_of_findSome?_eq_some hfault
    simp only [reduceCtorEq, false_iff, not_and]
    intro hc
    rw [(fault?_eq_none_iff label step).mpr (hc step hs)] at he
    cases he
  · have hc : ∀ step ∈ scope.walk, step.isMissing = false := by
      intro step hs
      exact (fault?_eq_none_iff label step).mp (List.findSome?_eq_none_iff.mp hfault step hs)
    have hall : scope.walk.takeWhile (!·.isMissing) = scope.walk := by
      rw [List.takeWhile_eq_self_iff]
      intro step hs
      rw [hc step hs, Bool.not_false]
    simp only [hall, Except.ok.injEq]
    exact ⟨fun h => ⟨hc, h⟩, fun h => h.2⟩

end Scope

end ApplianceScript
