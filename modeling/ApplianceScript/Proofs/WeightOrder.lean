import ApplianceScript.Proofs.Dependence
import Mathlib.Algebra.Order.BigOperators.Group.List
import Mathlib.Algebra.Order.Group.Nat

namespace ApplianceScript.Scope

open Relation

variable {scope : Scope} {a b : String}

theorem ne_of_needs (hcycle : ¬ scope.OnCycle a) (hab : scope.Needs a b) : b ≠ a := by
  rintro rfl
  exact hcycle (.single hab)

theorem Needs.source {scope : Scope} {a b : String} (hab : scope.Needs a b) :
    ∃ item, scope.item? item.name = some item ∧ scope.frozen item.name = false ∧ item.name = a ∧
      b ∈ item.dependencies ∧ scope.frozen b = false ∧ b ∈ scope.names := by
  obtain ⟨item, hi, hf, hb, hfb, hn⟩ := hab
  have hname := (name_of_item? hi).2
  exact ⟨item, hname ▸ hi, hname ▸ hf, hname, hb, hfb, hn⟩

theorem count_follow_of_needs (hcycle : ¬ scope.OnCycle a) (hab : scope.Needs a b)
    (path : List String) {item : Item} (hi : scope.item? a = some item) :
    (scope.follow path item).count (.reach a) = 0 ∧
      0 < (scope.follow path item).count (.reach b) := by
  obtain ⟨source, hs, hf, hname, hb, hfb, hn⟩ := hab.source
  subst hname
  obtain rfl : source = item := Option.some.inj (hs.symm.trans hi)
  constructor
  · rw [List.count_eq_zero]
    intro hmem
    exact hcycle (transGen_of_reach_mem_follow hi hf hmem)
  · exact List.count_pos_iff.mpr (reach_mem_follow path hb hfb hn)

theorem count_follow_le (hcycle : ¬ scope.OnCycle a) (hab : scope.Needs a b) (path : List String)
    (item : Item) (hi : scope.item? item.name = some item) (hf : scope.frozen item.name = false)
    (hpath : ∀ name ∈ path, ReflTransGen scope.Needs name item.name) :
    (scope.follow path item).count (.reach a) ≤ (scope.follow path item).count (.reach b) := by
  induction path, item using follow.induct scope with
  | case1 path item ih =>
    rw [follow_eq, List.count_flatMap, List.count_flatMap]
    apply List.sum_le_sum
    intro c hc
    simp only [Function.comp_apply]
    rcases scope.branch_cases path item c with
      ⟨_, heq⟩ | ⟨_, _, heq⟩ | ⟨hfc, hcn, hp, heq⟩ | ⟨next, rfl, hnext, hfc, hp, heq⟩
    · simp [heq]
    · simp [heq]
    · have hca : c ≠ a := by
        rintro rfl
        exact hcycle (.tail' (hpath c hp) (needs_of_mem hi hf hc hfc hcn))
      simp [heq, hca]
    · have hneed := needs_of_mem hi hf hc hfc ((scope.exists_item?_iff _).mp ⟨next, hnext⟩)
      rw [heq]
      by_cases hca : next.name = a
      · subst hca
        obtain ⟨hzero, hpos⟩ := count_follow_of_needs hcycle hab (path ++ [next.name]) hnext
        simp only [List.count_cons_self, hzero, Nat.zero_add]
        exact hpos.trans_le List.count_le_count_cons
      · have hle := ih next.name next hnext hp hnext hfc (by
          intro name hmem
          rcases List.mem_append.mp hmem with hmem | hmem
          · exact (hpath name hmem).tail hneed
          · rw [List.mem_singleton.mp hmem])
        rw [List.count_cons_of_ne (by simpa using hca)]
        exact hle.trans List.count_le_count_cons

theorem count_walkFrom_le (hcycle : ¬ scope.OnCycle a) (hab : scope.Needs a b) (name : String) :
    (scope.walkFrom name).count (.reach a) ≤ (scope.walkFrom name).count (.reach b) := by
  cases hf : scope.frozen name with
  | true => simp [walkFrom_frozen scope hf]
  | false =>
    cases hi : scope.item? name with
    | none => simp [walkFrom, hi]
    | some item =>
      obtain rfl := (name_of_item? hi).2
      rw [walkFrom_eq hi hf]
      by_cases hna : item.name = a
      · subst hna
        obtain ⟨hzero, hpos⟩ := count_follow_of_needs hcycle hab [item.name] hi
        rw [List.count_cons_self, hzero]
        exact hpos.trans_le List.count_le_count_cons
      · have hle := count_follow_le hcycle hab [item.name] item hi hf (by
          intro start hmem
          rw [List.mem_singleton.mp hmem])
        rw [List.count_cons_of_ne (by simpa using hna)]
        exact hle.trans List.count_le_count_cons

theorem count_walkFrom_lt (hcycle : ¬ scope.OnCycle a) (hab : scope.Needs a b) :
    (scope.walkFrom b).count (.reach a) < (scope.walkFrom b).count (.reach b) := by
  have hba := ne_of_needs hcycle hab
  have ⟨_, _, _, _, hfb, hn⟩ := hab
  obtain ⟨item, hi⟩ := (scope.exists_item?_iff b).mpr hn
  obtain rfl := (name_of_item? hi).2
  have hle := count_follow_le hcycle hab [item.name] item hi hfb (by
    intro start hmem
    rw [List.mem_singleton.mp hmem])
  rw [walkFrom_eq hi hfb, List.count_cons_self, List.count_cons_of_ne (by simpa using hba)]
  exact Nat.lt_succ_of_le hle

theorem count_walk_lt (hcycle : ¬ scope.OnCycle a) (hab : scope.Needs a b) :
    scope.walk.count (.reach a) < scope.walk.count (.reach b) := by
  have hn : b ∈ scope.names := hab.choose_spec.2.2.2.2
  rw [walk, List.count_flatMap, List.count_flatMap]
  apply List.sum_lt_sum
  · intro name _
    exact count_walkFrom_le hcycle hab name
  · exact ⟨b, hn, count_walkFrom_lt hcycle hab⟩

end ApplianceScript.Scope

namespace ApplianceScript

namespace WeightTable

theorem heavier_trans (a b c : String × Nat) (hab : decide (b.2 ≤ a.2) = true)
    (hbc : decide (c.2 ≤ b.2) = true) : decide (c.2 ≤ a.2) = true := by
  rw [decide_eq_true_eq] at *
  exact hbc.trans hab

theorem heavier_total (a b : String × Nat) :
    (decide (b.2 ≤ a.2) || decide (a.2 ≤ b.2)) = true := by
  rw [Bool.or_eq_true, decide_eq_true_eq, decide_eq_true_eq]
  exact le_total b.2 a.2

theorem descending_perm (table : WeightTable) :
    table.descending.Perm (table.entries.map (·.1)) :=
  (List.mergeSort_perm ..).map _

theorem descending_ofSteps_perm (names : List String) (steps : List Step) :
    (ofSteps names steps).descending.Perm names := by
  have hnames : (ofSteps names steps).entries.map (·.1) = names := by
    simp only [ofSteps, List.map_map, Function.comp_def, List.map_id']
  exact (descending_perm _).trans (.of_eq hnames)

theorem descending_ofSteps_pairwise (names : List String) (steps : List Step) :
    (ofSteps names steps).descending.Pairwise fun a b =>
      steps.count (.reach b) ≤ steps.count (.reach a) := by
  have hsorted : ((ofSteps names steps).entries.mergeSort fun a b => b.2 ≤ a.2).Pairwise
      fun a b => decide (b.2 ≤ a.2) = true :=
    List.pairwise_mergeSort heavier_trans heavier_total _
  rw [descending, List.pairwise_map]
  apply hsorted.imp_of_mem
  intro a b ha hb hab
  rw [List.mem_mergeSort, ofSteps, List.mem_map] at ha hb
  obtain ⟨_, _, rfl⟩ := ha
  obtain ⟨_, _, rfl⟩ := hb
  simpa only [decide_eq_true_eq] using hab

end WeightTable

namespace Scope

variable {scope : Scope} {label : String} {table : WeightTable}

theorem descending_perm_names (hw : (scope.weigh label).result = .ok table) :
    table.descending.Perm scope.names := by
  obtain ⟨_, rfl⟩ := (scope.weigh_eq_ok_iff label table).mp hw
  exact WeightTable.descending_ofSteps_perm _ _

theorem pair_sublist_descending (hw : (scope.weigh label).result = .ok table) {a b : String}
    (hcycle : ¬ scope.OnCycle a) (hab : scope.Needs a b) :
    List.Sublist [b, a] table.descending := by
  have hperm := descending_perm_names hw
  obtain ⟨_, rfl⟩ := (scope.weigh_eq_ok_iff label table).mp hw
  have ⟨item, hi, _, _, _, hb⟩ := hab
  have ha : a ∈ scope.names := (scope.exists_item?_iff a).mp ⟨item, hi⟩
  have hlt := count_walk_lt hcycle hab
  apply pair_sublist_of_pairwise (WeightTable.descending_ofSteps_pairwise _ _)
  · exact hperm.mem_iff.mpr ha
  · exact hperm.mem_iff.mpr hb
  · exact (ne_of_needs hcycle hab).symm
  · omega

end Scope

end ApplianceScript
