import ApplianceScript.Placeholders
import Mathlib.Data.List.Nodup

namespace ApplianceScript

def DistinctNames (definitions : List Definition) : Prop :=
  (∀ definition ∈ definitions, definition.placeholder.name ≠ "") ∧
    (definitions.map (·.placeholder.name)).Nodup

inductive Definition.Refused (earlier : List Definition) (definition : Definition) :
    CompileError → Prop
  | unnamed (h : definition.placeholder.name = "") :
    Refused earlier definition (.invalidPlaceholder definition.owner "placeholder name is empty")
  | repeated {first : Definition} (hn : definition.placeholder.name ≠ "") (hf : first ∈ earlier)
    (hs : first.placeholder.name = definition.placeholder.name) :
    Refused earlier definition
      (.duplicatePlaceholder definition.placeholder.name first.owner definition.owner)

theorem distinctNames_nil : DistinctNames [] := by
  simp [DistinctNames]

theorem distinctNames_concat_iff {earlier : List Definition} (he : DistinctNames earlier)
    (definition : Definition) :
    DistinctNames (earlier ++ [definition]) ↔ definition.placeholder.name ≠ "" ∧
      ∀ first ∈ earlier, first.placeholder.name ≠ definition.placeholder.name := by
  obtain ⟨hnonempty, hnodup⟩ := he
  unfold DistinctNames
  rw [List.map_append, List.nodup_append]
  constructor
  · rintro ⟨hall, _, _, hdisjoint⟩
    refine ⟨hall definition (by simp), ?_⟩
    intro first hf
    exact hdisjoint _ (List.mem_map_of_mem hf) _ (by simp)
  · rintro ⟨hn, hfresh⟩
    refine ⟨?_, hnodup, by simp, ?_⟩
    · intro other hother
      rcases List.mem_append.mp hother with hother | hother
      · exact hnonempty other hother
      · rwa [List.mem_singleton.mp hother]
    · intro a ha b hb
      obtain ⟨first, hf, rfl⟩ := List.mem_map.mp ha
      obtain rfl : b = definition.placeholder.name := by simpa using hb
      exact hfresh first hf

theorem DistinctNames.left {first second : List Definition} (h : DistinctNames (first ++ second)) :
    DistinctNames first := by
  obtain ⟨hall, hnodup⟩ := h
  refine ⟨fun definition hd => hall definition (List.mem_append_left second hd), ?_⟩
  rw [List.map_append] at hnodup
  exact (List.nodup_append.mp hnodup).1

namespace PlaceholderTable

theorem extend_cases (table : PlaceholderTable) {earlier : List Definition}
    (he : DistinctNames earlier) (definitions : List Definition) :
    (DistinctNames (earlier ++ definitions) ∧
        ∃ result, table.extend earlier definitions = .ok result) ∨
      ∃ before definition after error, definitions = before ++ definition :: after ∧
        DistinctNames (earlier ++ before) ∧ definition.Refused (earlier ++ before) error ∧
        table.extend earlier definitions = .error error := by
  -- What was taken so far is distinct, and the next definition may or may not join it.
  induction definitions generalizing table earlier with
  | nil => exact .inl ⟨by simpa using he, table, rfl⟩
  | cons definition rest ih =>
    rw [extend]
    by_cases hn : definition.placeholder.name = ""
    · refine .inr ⟨[], definition, rest, _, rfl, by simpa using he, .unnamed hn, ?_⟩
      simp [hn]
    · have hempty : definition.placeholder.name.isEmpty = false := by simpa using hn
      simp only [hempty, Bool.false_eq_true, if_false]
      cases hfound : earlier.find? (·.placeholder.name == definition.placeholder.name) with
      | some first =>
        refine .inr ⟨[], definition, rest, _, rfl, by simpa using he, .repeated hn ?_ ?_, rfl⟩
        · simpa using List.mem_of_find?_eq_some hfound
        · simpa using List.find?_some hfound
      | none =>
        have hdistinct : DistinctNames (earlier ++ [definition]) := by
          refine (distinctNames_concat_iff he definition).mpr ⟨hn, ?_⟩
          intro first hf
          simpa using List.find?_eq_none.mp hfound first hf
        rcases ih (table.insert definition.placeholder) hdistinct with hok | hrefused
        · exact .inl (by simpa using hok)
        · obtain ⟨before, refused, after, error, rfl, hbefore, hr, hresult⟩ := hrefused
          exact .inr ⟨definition :: before, refused, after, error, rfl, by simpa using hbefore,
            by simpa using hr, hresult⟩

theorem not_distinctNames_of_refused {earlier after : List Definition} {definition : Definition}
    {error : CompileError} (hr : definition.Refused earlier error) :
    ¬ DistinctNames (earlier ++ definition :: after) := by
  intro hd
  rw [← List.singleton_append, ← List.append_assoc] at hd
  obtain ⟨hn, hfresh⟩ := (distinctNames_concat_iff hd.left.left definition).mp hd.left
  cases hr with
  | unnamed hempty => exact hn hempty
  | repeated _ hf hs => exact hfresh _ hf hs

variable (catalog : Catalog)

theorem exists_merge_eq_ok_iff :
    (∃ table, merge catalog = .ok table) ↔ DistinctNames catalog.definitions := by
  rcases extend_cases empty distinctNames_nil catalog.definitions with ⟨hd, hok⟩ | hrefused
  · exact iff_of_true hok hd
  · obtain ⟨before, definition, after, error, heq, _, hr, hresult⟩ := hrefused
    apply iff_of_false
    · rintro ⟨table, hok⟩
      rw [merge, hresult] at hok
      cases hok
    · rw [heq]
      exact not_distinctNames_of_refused hr

theorem refused_of_merge_eq_error {error : CompileError} (h : merge catalog = .error error) :
    ∃ before definition after, catalog.definitions = before ++ definition :: after ∧
      DistinctNames before ∧ definition.Refused before error := by
  rcases extend_cases empty distinctNames_nil catalog.definitions with ⟨_, table, hok⟩ | hrefused
  · rw [merge, hok] at h
    cases h
  · obtain ⟨before, definition, after, refusal, heq, hd, hr, hresult⟩ := hrefused
    rw [merge, hresult] at h
    cases h
    exact ⟨before, definition, after, heq, hd, hr⟩

end PlaceholderTable

end ApplianceScript
