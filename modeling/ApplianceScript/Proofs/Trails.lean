import ApplianceScript.Proofs.RouteCounts
import Mathlib.Data.List.Chain

namespace ApplianceScript.Scope

open Relation

/-- A path of free items, each needed by the one before it, and the item it has come to. -/
inductive Trail (scope : Scope) : List String → String → Prop
  | start {name : String} (hf : scope.Free name) : Trail scope [name] name
  | move {path : List String} {name next : String} (h : Trail scope path name)
    (hn : scope.Needs name next) (hp : next ∉ path) : Trail scope (path ++ [next]) next

variable {scope : Scope} {path : List String} {name next : String}

theorem Needs.free_left (h : scope.Needs name next) : scope.Free name := by
  obtain ⟨item, hi, hf, _⟩ := h
  exact (scope.free_iff name).mpr ⟨(scope.exists_item?_iff name).mp ⟨item, hi⟩, hf⟩

theorem Needs.free_right (h : scope.Needs name next) : scope.Free next := by
  obtain ⟨_, _, _, _, hf, hn⟩ := h
  exact (scope.free_iff next).mpr ⟨hn, hf⟩

namespace Trail

theorem free (h : scope.Trail path name) : ∀ passed ∈ path, scope.Free passed := by
  induction h with
  | start hf => simpa using hf
  | move _ hn _ ih =>
    intro passed hp
    rcases List.mem_append.mp hp with hp | hp
    · exact ih passed hp
    · rw [List.mem_singleton.mp hp]
      exact hn.free_right

theorem free_last (h : scope.Trail path name) : scope.Free name := by
  cases h with
  | start hf => exact hf
  | move _ hn _ => exact hn.free_right

theorem nodup (h : scope.Trail path name) : path.Nodup := by
  induction h with
  | start => exact List.nodup_singleton _
  | move _ _ hp ih => exact List.nodup_append.mpr ⟨ih, List.nodup_singleton _, by
      rintro passed hpassed _ hnext rfl
      exact hp (List.mem_singleton.mp hnext ▸ hpassed)⟩

theorem exists_eq_concat (h : scope.Trail path name) : ∃ before, path = before ++ [name] := by
  cases h with
  | start => exact ⟨[], rfl⟩
  | @move path _ _ _ _ => exact ⟨path, rfl⟩

theorem dropLast (h : scope.Trail path name) :
    path.dropLast = [] ∨ ∃ last, scope.Trail path.dropLast last := by
  cases h with
  | start => exact .inl rfl
  | move h => exact .inr ⟨_, by rwa [List.dropLast_concat]⟩

theorem isChain (h : scope.Trail path name) : path.IsChain scope.Needs := by
  induction h with
  | start => exact .singleton _
  | move h hn _ ih =>
    obtain ⟨before, rfl⟩ := h.exists_eq_concat
    rw [List.append_assoc, List.singleton_append, List.isChain_append_cons_cons]
    exact ⟨ih, hn, .singleton _⟩

theorem reflTransGen (h : scope.Trail path name) :
    ∀ passed ∈ path, ReflTransGen scope.Needs passed name := by
  induction h with
  | start =>
    intro passed hp
    rw [List.mem_singleton.mp hp]
  | move _ hn _ ih =>
    intro passed hp
    rcases List.mem_append.mp hp with hp | hp
    · exact (ih passed hp).tail hn
    · rw [List.mem_singleton.mp hp]

theorem of_isChain {start : String} {rest : List String} (hf : scope.Free start)
    (hn : (start :: rest).Nodup) (hc : (start :: rest).IsChain scope.Needs) :
    ∃ last, scope.Trail (start :: rest) last := by
  induction rest using List.reverseRecOn with
  | nil => exact ⟨start, .start hf⟩
  | append_singleton rest next ih =>
    rw [← List.cons_append] at hn hc
    obtain ⟨hrest, _, hdisjoint⟩ := List.nodup_append.mp hn
    obtain ⟨last, h⟩ := ih hrest hc.left_of_append
    obtain ⟨before, hbefore⟩ := h.exists_eq_concat
    have hneeds : scope.Needs last next := by
      rw [hbefore, List.append_assoc, List.singleton_append, List.isChain_append_cons_cons] at hc
      exact hc.2.1
    exact ⟨next, h.move hneeds fun hmem => hdisjoint next hmem next (by simp) rfl⟩

theorem follow_subset_walk (h : scope.Trail path name) {item : Item}
    (hi : scope.item? name = some item) : scope.follow path item ⊆ scope.walk := by
  induction h generalizing item with
  | @start name hf =>
    obtain ⟨hn, hfrozen⟩ := (scope.free_iff name).mp hf
    obtain rfl := (name_of_item? hi).2
    intro step hs
    rw [walk, List.mem_flatMap]
    refine ⟨item.name, hn, ?_⟩
    rw [walkFrom_eq hi hfrozen]
    exact List.mem_cons_of_mem _ hs
  | @move path name next h hn hp ih =>
    obtain ⟨source, hsource, _, hd, hf, _⟩ := hn
    intro step hs
    apply ih hsource
    rw [follow_eq, List.mem_flatMap]
    refine ⟨next, hd, ?_⟩
    rw [branch_open scope path source hf hi hp]
    exact List.mem_cons_of_mem _ hs

end Trail

theorem exists_trail_of_close_mem_follow {item : Item} (h : scope.Trail path item.name)
    (hi : scope.item? item.name = some item) (hf : scope.frozen item.name = false)
    {cycle : List String} (hc : .close cycle ∈ scope.follow path item) :
    ∃ path name next, scope.Trail path name ∧ scope.Needs name next ∧ next ∈ path ∧
      closing path next = cycle := by
  induction path, item using follow.induct scope with
  | case1 path item ih =>
    rw [follow_eq, List.mem_flatMap] at hc
    obtain ⟨b, hb, hc⟩ := hc
    rcases scope.branch_cases path item b with
      ⟨_, heq⟩ | ⟨_, _, heq⟩ | ⟨hfb, hn, hp, heq⟩ | ⟨next, rfl, hnext, hfb, hp, heq⟩
    · simp [heq] at hc
    · simp [heq] at hc
    · simp only [heq, List.mem_cons, reduceCtorEq, Step.close.injEq, List.not_mem_nil, or_false,
        false_or] at hc
      exact ⟨path, item.name, b, h, needs_of_mem hi hf hb hfb hn, hp, hc.symm⟩
    · have hneed := needs_of_mem hi hf hb hfb ((scope.exists_item?_iff _).mp ⟨next, hnext⟩)
      rw [heq, List.mem_cons] at hc
      exact ih next.name next hnext hp (h.move hneed hp) hnext hfb (hc.resolve_left (by simp))

theorem close_mem_walk_iff (cycle : List String) :
    .close cycle ∈ scope.walk ↔ ∃ path name next, scope.Trail path name ∧
      scope.Needs name next ∧ next ∈ path ∧ closing path next = cycle := by
  constructor
  · intro hc
    rw [walk, List.mem_flatMap] at hc
    obtain ⟨name, hn, hc⟩ := hc
    cases hf : scope.frozen name with
    | true => simp [walkFrom_frozen scope hf] at hc
    | false =>
      obtain ⟨item, hi⟩ := (scope.exists_item?_iff name).mpr hn
      obtain rfl := (name_of_item? hi).2
      rw [walkFrom_eq hi hf, List.mem_cons] at hc
      have hfree := (scope.free_iff item.name).mpr ⟨hn, hf⟩
      exact exists_trail_of_close_mem_follow (.start hfree) hi hf (hc.resolve_left (by simp))
  · rintro ⟨path, name, next, h, ⟨item, hi, _, hd, hf, hn⟩, hp, rfl⟩
    apply h.follow_subset_walk hi
    rw [follow_eq, List.mem_flatMap]
    refine ⟨next, hd, ?_⟩
    rw [branch_closed scope path item hf hn hp]
    simp

end ApplianceScript.Scope
