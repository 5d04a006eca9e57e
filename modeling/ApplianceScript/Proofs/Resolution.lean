import ApplianceScript.Placeholders
import Mathlib.Data.List.Basic

namespace ApplianceScript.PlaceholderTable

def settleLine (table : PlaceholderTable) : Nat → String → String
  | 0, line => line
  | passes + 1, line =>
    if table.hasMarker line then table.settleLine passes (table.pass line) else line

def resolveText? (table : PlaceholderTable) (text : String) : Option String :=
  match table.resolve [text] with
  | .ok [resolved] => some resolved
  | _ => none

variable (table : PlaceholderTable) (passes : Nat)

theorem settleLine_of_not_hasMarker {line : String} (hm : table.hasMarker line = false) :
    table.settleLine passes line = line := by
  cases passes with
  | zero => rfl
  | succ passes => simp [settleLine, hm]

theorem settleLine_succ (line : String) :
    table.settleLine passes (if table.hasMarker line then table.pass line else line) =
      table.settleLine (passes + 1) line := by
  cases hm : table.hasMarker line with
  | true => simp [settleLine, hm]
  | false =>
    rw [table.settleLine_of_not_hasMarker (passes + 1) hm]
    simpa using table.settleLine_of_not_hasMarker passes hm

theorem settle_eq_map (lines : List String) :
    table.settle passes lines = lines.map (table.settleLine passes) := by
  induction passes generalizing lines with
  | zero => simp [settle, settleLine]
  | succ passes ih =>
    rw [settle]
    split <;> rename_i hany
    · rw [ih, passAll, List.map_map]
      apply List.map_congr_left
      intro line _
      exact table.settleLine_succ passes line
    · have hclean : ∀ line ∈ lines, table.hasMarker line = false := by
        intro line hline
        rw [← Bool.not_eq_true]
        exact fun hm => hany (List.any_eq_true.mpr ⟨line, hline, hm⟩)
      have hid : lines.map (table.settleLine (passes + 1)) = lines.map id := by
        apply List.map_congr_left
        intro line hline
        exact table.settleLine_of_not_hasMarker (passes + 1) (hclean line hline)
      rw [hid, List.map_id]

theorem remaining_eq_nil_iff (lines : List String) :
    table.remaining lines = [] ↔ ∀ line ∈ lines, table.hasMarker line = false := by
  simp only [remaining, hasMarker, List.filter_eq_nil_iff, List.any_eq_false, List.any_eq_true,
    not_exists, not_and]
  constructor
  · intro h line hline name hname
    exact h name hname line hline
  · intro h name hname line hline
    exact h line hline name hname

theorem resolveWithin_eq_ok_iff (lines resolved : List String) :
    table.resolveWithin passes lines = .ok resolved ↔
      (∀ line ∈ lines, table.hasMarker (table.settleLine passes line) = false) ∧
        resolved = lines.map (table.settleLine passes) := by
  rw [← List.forall_mem_map (P := fun text => table.hasMarker text = false),
    ← remaining_eq_nil_iff, resolveWithin]
  simp only [settle_eq_map]
  split <;> rename_i hmarkers
  · rw [Except.ok.injEq, eq_comm]
    exact (and_iff_right hmarkers).symm
  · simp only [reduceCtorEq, false_iff, not_and]
    exact fun h => absurd h hmarkers

theorem resolveWithin_eq_error_iff (lines : List String) (error : CompileError) :
    table.resolveWithin passes lines = .error error ↔
      (∃ line ∈ lines, table.hasMarker (table.settleLine passes line) = true) ∧
        error = .unresolvedPlaceholders
          (table.remaining (lines.map (table.settleLine passes))) passes := by
  have hne : table.remaining (lines.map (table.settleLine passes)) ≠ [] ↔
      ∃ line ∈ lines, table.hasMarker (table.settleLine passes line) = true := by
    simp only [Ne, remaining_eq_nil_iff, List.forall_mem_map, not_forall, exists_prop,
      Bool.not_eq_false]
  rw [← hne, resolveWithin]
  simp only [settle_eq_map]
  split <;> rename_i hmarkers
  · simp only [reduceCtorEq, false_iff, not_and]
    exact fun h => absurd hmarkers h
  · rw [Except.error.injEq, eq_comm]
    exact (and_iff_right hmarkers).symm

theorem resolve_eq_ok (lines : List String)
    (hm : ∀ line ∈ lines, table.hasMarker (table.settleLine passBudget line) = false) :
    table.resolve lines = .ok (lines.map (table.settleLine passBudget)) :=
  (table.resolveWithin_eq_ok_iff passBudget lines _).mpr ⟨hm, rfl⟩

theorem resolve_eq_error (lines : List String) {line : String} (hline : line ∈ lines)
    (hm : table.hasMarker (table.settleLine passBudget line) = true) :
    ∃ markers, table.resolve lines = .error (.unresolvedPlaceholders markers passBudget) :=
  ⟨_, (table.resolveWithin_eq_error_iff passBudget lines _).mpr ⟨⟨line, hline, hm⟩, rfl⟩⟩

theorem resolveText?_eq (text : String) :
    table.resolveText? text =
      if table.hasMarker (table.settleLine passBudget text) then none
      else some (table.settleLine passBudget text) := by
  unfold resolveText?
  cases hm : table.hasMarker (table.settleLine passBudget text) with
  | true =>
    obtain ⟨markers, he⟩ := table.resolve_eq_error [text] (List.mem_singleton_self text) hm
    rw [he]
    rfl
  | false =>
    rw [table.resolve_eq_ok [text] (by simpa using hm)]
    rfl

theorem resolveText?_of_not_hasMarker {text : String} (h : table.hasMarker text = false) :
    table.resolveText? text = some text := by
  rw [resolveText?_eq, table.settleLine_of_not_hasMarker passBudget h, h]
  rfl

theorem resolve_eq_ok_of_forall {lines : List String} {resolved : String → String}
    (h : ∀ line ∈ lines, table.resolveText? line = some (resolved line)) :
    table.resolve lines = .ok (lines.map resolved) := by
  have hline (line : String) (hline : line ∈ lines) :
      table.hasMarker (table.settleLine passBudget line) = false ∧
        table.settleLine passBudget line = resolved line := by
    have hl := h line hline
    rw [resolveText?_eq] at hl
    cases hm : table.hasMarker (table.settleLine passBudget line) with
    | true => simp [hm] at hl
    | false => exact ⟨rfl, by simpa [hm] using hl⟩
  rw [table.resolve_eq_ok lines fun line hl => (hline line hl).1]
  congr 1
  exact List.map_congr_left fun line hl => (hline line hl).2

theorem resolve_eq_error_of_mem {lines : List String} {line : String} (hline : line ∈ lines)
    (h : table.resolveText? line = none) :
    ∃ markers, table.resolve lines = .error (.unresolvedPlaceholders markers passBudget) := by
  rw [resolveText?_eq] at h
  cases hm : table.hasMarker (table.settleLine passBudget line) with
  | true => exact table.resolve_eq_error lines hline hm
  | false => simp [hm] at h

theorem resolveText?_ne_none_of_resolve {lines resolved : List String} {line : String}
    (hline : line ∈ lines) (h : table.resolve lines = .ok resolved) :
    table.resolveText? line ≠ none := by
  intro hnone
  obtain ⟨markers, herror⟩ := table.resolve_eq_error_of_mem hline hnone
  rw [h] at herror
  cases herror

theorem not_hasMarker_of_resolveText? {text resolved : String}
    (h : table.resolveText? text = some resolved) : table.hasMarker resolved = false := by
  rw [resolveText?_eq] at h
  cases hm : table.hasMarker (table.settleLine passBudget text) with
  | true => simp [hm] at h
  | false =>
    simp only [hm, Bool.false_eq_true, if_false, Option.some.injEq] at h
    exact h ▸ hm

theorem not_hasMarker_of_part {part text : String} (hi : part.toList <:+: text.toList)
    (h : table.hasMarker text = false) : table.hasMarker part = false := by
  simp only [hasMarker, List.any_eq_false, Text.occurs_iff] at h ⊢
  intro name hname hp
  exact h name hname (hp.trans hi)

end ApplianceScript.PlaceholderTable
