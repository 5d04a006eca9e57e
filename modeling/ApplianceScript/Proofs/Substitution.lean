import ApplianceScript.Text.Lines
import ApplianceScript.Text.Occurrence
import Mathlib.Data.List.Infix

/-!
What a text looks like once a marker has been replaced.

The result is read along with the text: a character is kept where no marker begins, and otherwise
the replacement is written for the whole marker. So whatever the result has and the text has not
reaches into a replacement, and the marker itself is gone if it shares no character with the
replacement.
-/

namespace ApplianceScript.Text

/-- The second text is the first with every marker replaced, from the left. -/
inductive Replaced (marker replacement : List Char) : List Char → List Char → Prop
  | nil : Replaced marker replacement [] []
  | keep {c : Char} {rest result : List Char} (hk : ¬ marker <+: c :: rest)
    (h : Replaced marker replacement rest result) :
    Replaced marker replacement (c :: rest) (c :: result)
  | write {rest result : List Char} (h : Replaced marker replacement rest result) :
    Replaced marker replacement (marker ++ rest) (replacement ++ result)

variable {marker replacement text result : List Char}

theorem replaceFrom_eq_drop (skip : Nat) (text : List Char) :
    replaceFrom marker replacement skip text =
      replaceFrom marker replacement 0 (text.drop skip) := by
  induction text generalizing skip with
  | nil => simp [replaceFrom]
  | cons c rest ih =>
    cases skip with
    | zero => rfl
    | succ skip =>
      rw [replaceFrom, List.drop_succ_cons]
      exact ih skip

section Marker

variable (hm : marker ≠ [])

include hm

theorem replaceIn_eq_replaceFrom (text : List Char) :
    replaceIn marker replacement text = replaceFrom marker replacement 0 text := by
  rw [replaceIn, List.isEmpty_eq_false_iff.mpr hm]
  rfl

theorem replaceIn_cons {c : Char} {rest : List Char} (hk : ¬ marker <+: c :: rest) :
    replaceIn marker replacement (c :: rest) = c :: replaceIn marker replacement rest := by
  rw [replaceIn_eq_replaceFrom hm, replaceIn_eq_replaceFrom hm, replaceFrom]
  simp [List.isPrefixOf_iff_prefix, hk]

theorem replaceIn_append (rest : List Char) :
    replaceIn marker replacement (marker ++ rest) =
      replacement ++ replaceIn marker replacement rest := by
  obtain ⟨c, tail, rfl⟩ := List.exists_cons_of_ne_nil hm
  rw [replaceIn_eq_replaceFrom hm, replaceIn_eq_replaceFrom hm, List.cons_append, replaceFrom,
    replaceFrom_eq_drop]
  simp

theorem replaced_replaceIn (text : List Char) :
    Replaced marker replacement text (replaceIn marker replacement text) := by
  induction hn : text.length using Nat.strongRecOn generalizing text with
  | _ n ih =>
    cases text with
    | nil =>
      rw [replaceIn_eq_replaceFrom hm]
      exact .nil
    | cons c rest =>
      rw [List.length_cons] at hn
      by_cases hp : marker <+: c :: rest
      · obtain ⟨after, heq⟩ := hp
        have hlength := congrArg List.length heq
        have hpos := List.length_pos_iff.mpr hm
        rw [List.length_append, List.length_cons] at hlength
        rw [← heq, replaceIn_append hm]
        exact .write (ih after.length (by omega) after rfl)
      · rw [replaceIn_cons hm hp]
        exact .keep hp (ih rest.length (by omega) rest rfl)

theorem Replaced.replaceIn_eq (h : Replaced marker replacement text result) :
    replaceIn marker replacement text = result := by
  induction h with
  | nil => rw [replaceIn_eq_replaceFrom hm, replaceFrom]
  | keep hk _ ih => rw [replaceIn_cons hm hk, ih]
  | write _ ih => rw [replaceIn_append hm, ih]

end Marker

section Texts

variable {marker replacement text result : String} (hm : marker ≠ "")

include hm

theorem replaced_replace (replacement text : String) :
    Replaced marker.toList replacement.toList text.toList
      (replace marker replacement text).toList := by
  rw [replace, String.toList_ofList]
  exact replaced_replaceIn (mt String.toList_eq_nil_iff.mp hm) text.toList

theorem Replaced.replace_eq
    (h : Replaced marker.toList replacement.toList text.toList result.toList) :
    replace marker replacement text = result := by
  rw [replace, h.replaceIn_eq (mt String.toList_eq_nil_iff.mp hm), String.ofList_toList]

end Texts

theorem infix_of_infix_append {word front rest : List Char} (hw : word ≠ [])
    (hd : ∀ c ∈ word, c ∉ front) (h : word <:+: front ++ rest) : word <:+: rest := by
  induction front with
  | nil => exact h
  | cons a front ih =>
    rcases List.infix_cons_iff.mp h with hp | hi
    · obtain ⟨c, tail, rfl⟩ := List.exists_cons_of_ne_nil hw
      obtain ⟨rfl, _⟩ := List.cons_prefix_cons.mp hp
      exact absurd List.mem_cons_self (hd c List.mem_cons_self)
    · exact ih (fun c hc hf => hd c hc (List.mem_cons_of_mem a hf)) hi

/-- A replacement was written at this position of the result. -/
def WrittenAt (marker replacement text result : List Char) (start : Nat) : Prop :=
  ∃ left right leftResult rightResult, text = left ++ marker ++ right ∧
    result = leftResult ++ replacement ++ rightResult ∧
    Replaced marker replacement left leftResult ∧
    Replaced marker replacement right rightResult ∧ leftResult.length = start

namespace WrittenAt

theorem here (h : Replaced marker replacement text result) :
    WrittenAt marker replacement (marker ++ text) (replacement ++ result) 0 :=
  ⟨[], text, [], result, rfl, rfl, .nil, h, rfl⟩

variable {start : Nat} (h : WrittenAt marker replacement text result start)

include h

theorem after_kept {c : Char} (hk : ¬ marker <+: c :: text) :
    WrittenAt marker replacement (c :: text) (c :: result) (start + 1) := by
  obtain ⟨left, right, leftResult, rightResult, rfl, rfl, hleft, hright, rfl⟩ := h
  refine ⟨c :: left, right, c :: leftResult, rightResult, rfl, rfl, .keep ?_ hleft, hright, rfl⟩
  intro hp
  apply hk
  rw [List.append_assoc, ← List.cons_append]
  exact hp.trans (List.prefix_append ..)

theorem after_written :
    WrittenAt marker replacement (marker ++ text) (replacement ++ result)
      (replacement.length + start) := by
  obtain ⟨left, right, leftResult, rightResult, rfl, rfl, hleft, hright, rfl⟩ := h
  exact ⟨marker ++ left, right, replacement ++ leftResult, rightResult, by simp, by simp,
    .write hleft, hright, List.length_append⟩

end WrittenAt

namespace Replaced

theorem mem_or_mem (h : Replaced marker replacement text result) {c : Char} (hc : c ∈ result) :
    c ∈ text ∨ c ∈ replacement := by
  induction h with
  | nil => exact .inl hc
  | keep _ _ ih =>
    rcases List.mem_cons.mp hc with rfl | hc
    · exact .inl List.mem_cons_self
    · exact (ih hc).imp_left (List.mem_cons_of_mem _)
  | write _ ih =>
    rcases List.mem_append.mp hc with hc | hc
    · exact .inr hc
    · exact (ih hc).imp_left (List.mem_append_right marker)

theorem all_eq {p : Char → Bool} (hm : marker.all p = false) (hr : replacement.all p = false)
    (h : Replaced marker replacement text result) : result.all p = text.all p := by
  induction h with
  | nil => rfl
  | keep _ _ ih => rw [List.all_cons, List.all_cons, ih]
  | write _ _ => simp only [List.all_append, hm, hr, Bool.false_and]

theorem eq_nil_iff (hm : marker ≠ []) (hr : replacement ≠ [])
    (h : Replaced marker replacement text result) : result = [] ↔ text = [] := by
  cases h with
  | nil => rfl
  | keep => simp
  | write => simp [hm, hr]

theorem getLast?_eq (hm : marker ≠ []) (hr : replacement ≠ [])
    (h : Replaced marker replacement text result) {c : Char} (hc : c ∉ replacement)
    (hl : result.getLast? = some c) : text.getLast? = some c := by
  induction h with
  | nil => exact hl
  | @keep b rest result _ h ih =>
    by_cases hrest : rest = []
    · rw [hrest, ← (h.eq_nil_iff hm hr).mpr hrest]
      exact hl
    · obtain ⟨a, tail, rfl⟩ := List.exists_cons_of_ne_nil hrest
      obtain ⟨d, more, rfl⟩ :=
        List.exists_cons_of_ne_nil fun hnil => hrest ((h.eq_nil_iff hm hr).mp hnil)
      rw [List.getLast?_cons_cons] at hl ⊢
      exact ih hl
  | @write rest result h ih =>
    by_cases hresult : result = []
    · rw [hresult, List.append_nil] at hl
      exact absurd (List.mem_of_getLast? hl) hc
    · rw [List.getLast?_append_of_ne_nil _ hresult] at hl
      rw [List.getLast?_append_of_ne_nil _ fun hnil => hresult ((h.eq_nil_iff hm hr).mpr hnil)]
      exact ih hl

theorem exists_written_at_start (h : Replaced marker replacement text result) {word : List Char}
    (hw : word <+: result) (hn : ¬ word <+: text) :
    ∃ start, WrittenAt marker replacement text result start ∧ start < word.length := by
  induction h generalizing word with
  | nil => exact absurd hw hn
  | keep hk _ ih =>
    cases word with
    | nil => exact absurd List.nil_prefix hn
    | cons d word =>
      obtain ⟨rfl, hrest⟩ := List.cons_prefix_cons.mp hw
      obtain ⟨start, hwritten, hlt⟩ :=
        ih hrest fun hp => hn (List.cons_prefix_cons.mpr ⟨rfl, hp⟩)
      exact ⟨start + 1, hwritten.after_kept hk, Nat.succ_lt_succ hlt⟩
  | write h _ =>
    refine ⟨0, .here h, List.length_pos_iff.mpr ?_⟩
    rintro rfl
    exact hn List.nil_prefix

theorem written_or_kept (h : Replaced marker replacement text result)
    {before word after : List Char} (hword : word ≠ []) (heq : result = before ++ word ++ after) :
    (∃ start, WrittenAt marker replacement text result start ∧
        start < before.length + word.length ∧ before.length < start + replacement.length) ∨
      ∃ left right, text = left ++ word ++ right ∧ ¬ marker <+: word ++ right := by
  have hpos := List.length_pos_iff.mpr hword
  induction h generalizing before with
  | nil =>
    have hlength := congrArg List.length heq
    simp only [List.length_nil, List.length_append] at hlength
    omega
  | @keep c rest result hk h ih =>
    cases before with
    | nil =>
      obtain ⟨d, word, rfl⟩ := List.exists_cons_of_ne_nil hword
      obtain ⟨rfl, hrest⟩ := List.cons.inj heq
      by_cases hp : word <+: rest
      · obtain ⟨right, rfl⟩ := hp
        exact .inr ⟨[], right, rfl, hk⟩
      · obtain ⟨start, hwritten, hlt⟩ :=
          h.exists_written_at_start (hrest ▸ List.prefix_append word after) hp
        refine .inl ⟨start + 1, hwritten.after_kept hk, ?_, ?_⟩
        · simp only [List.length_nil, List.length_cons]
          omega
        · simp only [List.length_nil]
          omega
    | cons d before =>
      obtain ⟨rfl, hrest⟩ := List.cons.inj heq
      rcases ih hrest with ⟨start, hwritten, hlt, hgt⟩ | ⟨left, right, rfl, hnot⟩
      · refine .inl ⟨start + 1, hwritten.after_kept hk, ?_, ?_⟩ <;>
          rw [List.length_cons] <;> omega
      · exact .inr ⟨c :: left, right, rfl, hnot⟩
  | @write rest result h ih =>
    -- The word begins in what was written here, or it is found in what follows.
    by_cases hlt : before.length < replacement.length
    · refine .inl ⟨0, .here h, ?_, ?_⟩ <;> omega
    · have hp : replacement <+: before := by
        refine List.prefix_of_prefix_length_le (List.prefix_append replacement result) ?_
          (Nat.le_of_not_lt hlt)
        rw [heq, List.append_assoc]
        exact List.prefix_append ..
      obtain ⟨before, rfl⟩ := hp
      have hrest : result = before ++ word ++ after := by simpa using heq
      rcases ih hrest with ⟨start, hwritten, hlt, hgt⟩ | ⟨left, right, rfl, hnot⟩
      · refine .inl ⟨replacement.length + start, hwritten.after_written, ?_, ?_⟩ <;>
          rw [List.length_append] <;> omega
      · exact .inr ⟨marker ++ left, right, by simp, hnot⟩

theorem exists_written (h : Replaced marker replacement text result)
    {before word after : List Char} (heq : result = before ++ word ++ after)
    (hn : ¬ word <:+: text) :
    ∃ start, WrittenAt marker replacement text result start ∧
      start < before.length + word.length ∧ before.length < start + replacement.length := by
  have hword : word ≠ [] := by
    rintro rfl
    exact hn List.nil_infix
  rcases h.written_or_kept hword heq with hwritten | ⟨left, right, rfl, _⟩
  · exact hwritten
  · exact absurd ⟨left, right, rfl⟩ hn

theorem prefix_of_disjoint (hr : replacement ≠ []) (h : Replaced marker replacement text result)
    {word : List Char} (hd : ∀ c ∈ word, c ∉ replacement) (hw : word <+: result) :
    word <+: text := by
  by_contra hn
  obtain ⟨_, ⟨_, _, leftResult, rightResult, _, rfl, _, _, rfl⟩, hlt⟩ :=
    h.exists_written_at_start hw hn
  rw [List.append_assoc] at hw
  obtain ⟨more, rfl⟩ := List.prefix_of_prefix_length_le (List.prefix_append ..) hw hlt.le
  obtain ⟨c, tail, rfl⟩ := List.exists_cons_of_ne_nil hr
  cases more with
  | nil => simp at hlt
  | cons d more =>
    obtain ⟨rfl, _⟩ := List.cons_prefix_cons.mp ((List.prefix_append_right_inj leftResult).mp hw)
    exact hd d (by simp) List.mem_cons_self

theorem no_marker_left (hm : marker ≠ []) (hr : replacement ≠ [])
    (hd : ∀ c ∈ marker, c ∉ replacement) (h : Replaced marker replacement text result) :
    ¬ marker <:+: result := by
  induction h with
  | nil => exact fun hi => hm (List.infix_nil.mp hi)
  | keep hk h ih =>
    intro hi
    rcases List.infix_cons_iff.mp hi with hp | hi
    · exact hk ((Replaced.keep hk h).prefix_of_disjoint hr hd hp)
    · exact ih hi
  | write _ ih => exact fun hi => ih (infix_of_infix_append hm hd hi)

end Replaced

end ApplianceScript.Text
