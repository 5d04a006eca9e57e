import ApplianceScript.Proofs.RouteCounts

namespace ApplianceScript.Scope

variable {scope : Scope} {name dependency : String}

theorem unresolved_of_missing_mem_follow {path : List String} {item : Item}
    (hi : scope.item? item.name = some item) (hf : scope.frozen item.name = false)
    (hmem : .missing name dependency ∈ scope.follow path item) :
    scope.Unresolved name dependency := by
  -- Wherever the walk arrives, the item there is free and is the one its name finds.
  induction path, item using follow.induct scope with
  | case1 path item ih =>
    rw [follow_eq, List.mem_flatMap] at hmem
    obtain ⟨b, hb, hmem⟩ := hmem
    rcases scope.branch_cases path item b with
      ⟨_, heq⟩ | ⟨hfb, hbn, heq⟩ | ⟨_, _, _, heq⟩ | ⟨next, rfl, hnext, hfb, hp, heq⟩
    · simp [heq] at hmem
    · rw [heq, List.mem_singleton, Step.missing.injEq] at hmem
      obtain ⟨rfl, rfl⟩ := hmem
      exact ⟨item, hi, hf, hb, hfb, hbn⟩
    · simp [heq] at hmem
    · rw [heq, List.mem_cons] at hmem
      exact ih next.name next hnext hp hnext hfb (hmem.resolve_left (by simp))

theorem missing_mem_walk_iff (name dependency : String) :
    .missing name dependency ∈ scope.walk ↔ scope.Unresolved name dependency := by
  rw [walk, List.mem_flatMap]
  constructor
  · rintro ⟨start, hstart, hmem⟩
    obtain ⟨item, hi⟩ := (scope.exists_item?_iff start).mpr hstart
    obtain rfl := (name_of_item? hi).2
    cases hf : scope.frozen item.name with
    | true => simp [walkFrom_frozen scope hf] at hmem
    | false =>
      rw [walkFrom_eq hi hf, List.mem_cons] at hmem
      rcases hmem with hmem | hmem
      · cases hmem
      · exact unresolved_of_missing_mem_follow hi hf hmem
  · intro hu
    exact List.mem_flatMap.mp (missing_mem_walk hu)

theorem complete_iff (scope : Scope) :
    scope.Complete ↔ ∀ name dependency, ¬ scope.Unresolved name dependency := by
  constructor
  · intro hc name dependency hu
    simpa [Step.isMissing] using hc _ (missing_mem_walk hu)
  · intro h step hstep
    cases step with
    | missing name dependency =>
      exact absurd ((missing_mem_walk_iff name dependency).mp hstep) (h name dependency)
    | reach _ => rfl
    | close _ => rfl

theorem unresolved_of_weigh_eq_error {label : String} {error : CompileError}
    (h : (scope.weigh label).result = .error error) :
    ∃ name dependency, scope.Unresolved name dependency ∧
      error = .unresolvedDependency label name dependency := by
  unfold weigh at h
  dsimp only at h
  split at h <;> rename_i hfault
  · obtain ⟨step, hstep, hs⟩ := List.exists_of_findSome?_eq_some hfault
    cases step with
    | missing name dependency =>
      refine ⟨name, dependency, (missing_mem_walk_iff name dependency).mp hstep, ?_⟩
      rw [← Except.error.inj h]
      exact (Option.some.inj hs).symm
    | reach _ => cases hs
    | close _ => cases hs
  · cases h

theorem exists_weigh_eq_ok_iff (scope : Scope) (label : String) :
    (∃ table, (scope.weigh label).result = .ok table) ↔
      ∀ name dependency, ¬ scope.Unresolved name dependency := by
  simp only [weigh_eq_ok_iff, exists_and_left, complete_iff, exists_eq', and_true]

structure Offends (scope : Scope) (item : Item) (dependency : String) : Prop where
  counts : scope.Defines item.name item
  free : scope.frozen item.name = false
  listed : dependency ∈ item.dependencies
  wanted : scope.frozen dependency = false
  unknown : ∀ other ∈ scope.items, other.name ≠ dependency

theorem unresolved_iff (scope : Scope) (name dependency : String) :
    scope.Unresolved name dependency ↔ ∃ item, item.name = name ∧ scope.Offends item dependency := by
  constructor
  · rintro ⟨item, hi, hf, hd, hfd, hdn⟩
    obtain rfl := (name_of_item? hi).2
    refine ⟨item, rfl, (scope.defines_iff _ item).mpr hi, hf, hd, hfd, ?_⟩
    intro other hother heq
    exact hdn ((scope.mem_names_iff dependency).mpr ⟨other, hother, heq⟩)
  · rintro ⟨item, rfl, ho⟩
    refine ⟨item, (scope.defines_iff _ item).mp ho.counts, ho.free, ho.listed, ho.wanted, ?_⟩
    intro hdn
    obtain ⟨other, hother, heq⟩ := (scope.mem_names_iff dependency).mp hdn
    exact ho.unknown other hother heq

theorem weigh_fails_iff (scope : Scope) (label : String) :
    ((∃ error, (scope.weigh label).result = .error error) ↔
        ∃ item dependency, scope.Offends item dependency) ∧
      ∀ error, (scope.weigh label).result = .error error →
        ∃ item dependency, scope.Offends item dependency ∧
          error = .unresolvedDependency label item.name dependency := by
  have hnamed : ∀ error, (scope.weigh label).result = .error error →
      ∃ item dependency, scope.Offends item dependency ∧
        error = .unresolvedDependency label item.name dependency := by
    intro error h
    obtain ⟨name, dependency, hu, heq⟩ := unresolved_of_weigh_eq_error h
    obtain ⟨item, rfl, ho⟩ := (scope.unresolved_iff name dependency).mp hu
    exact ⟨item, dependency, ho, heq⟩
  refine ⟨⟨?_, ?_⟩, hnamed⟩
  · rintro ⟨error, h⟩
    obtain ⟨item, dependency, ho, _⟩ := hnamed error h
    exact ⟨item, dependency, ho⟩
  · rintro ⟨item, dependency, ho⟩
    cases hresult : (scope.weigh label).result with
    | error error => exact ⟨error, rfl⟩
    | ok table =>
      have hu := (scope.unresolved_iff item.name dependency).mpr ⟨item, rfl, ho⟩
      exact absurd hu ((scope.exists_weigh_eq_ok_iff label).mp ⟨table, hresult⟩ _ _)

example : (weigh ⟨[⟨"vlan", ["tag"]⟩, ⟨"port", ["vlan"]⟩, ⟨"vlan", ["port"]⟩], fun _ => false⟩
    "elements").result =
      .ok ⟨[("vlan", 3), ("port", 3)], [["vlan", "port", "vlan"], ["port", "vlan", "port"]]⟩ := by
  cbv

end ApplianceScript.Scope
