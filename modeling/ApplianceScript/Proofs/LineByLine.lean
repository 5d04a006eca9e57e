import ApplianceScript.Proofs.Substitution

namespace ApplianceScript.Text

theorem cut_induction {motive : List Char → Prop} (whole : ∀ line, '\n' ∉ line → motive line)
    (cut : ∀ line rest, '\n' ∉ line → motive rest → motive (line ++ '\n' :: rest))
    (text : List Char) : motive text := by
  induction hn : text.length using Nat.strongRecOn generalizing text with
  | _ n ih =>
    by_cases hmem : '\n' ∈ text
    · obtain ⟨line, rest, rfl, hline⟩ := List.eq_append_cons_of_mem hmem
      rw [List.length_append, List.length_cons] at hn
      exact cut line rest hline (ih rest.length (by omega) rest rfl)
    · exact whole text hmem

theorem pieces_eq_splitOn (text : List Char) : pieces text = text.splitOn '\n' := by
  induction text with
  | nil => rfl
  | cons c rest ih =>
    rw [pieces, List.splitOn_cons_eq_if_modifyHead, ih]
    by_cases hc : c = '\n'
    · simp [hc]
    · cases hrest : rest.splitOn '\n' with
      | nil => exact absurd hrest (List.splitOn_ne_nil _ _)
      | cons first more => simp [hc]

theorem pieces_of_not_mem {line : List Char} (h : '\n' ∉ line) : pieces line = [line] := by
  rw [pieces_eq_splitOn, List.splitOn_eq_singleton h]

theorem pieces_append_cons {line : List Char} (h : '\n' ∉ line) (rest : List Char) :
    pieces (line ++ '\n' :: rest) = line :: pieces rest := by
  rw [pieces_eq_splitOn, pieces_eq_splitOn, List.splitOn_append_cons_self_of_not_mem h]

theorem infix_of_mem_pieces {text piece : List Char} (h : piece ∈ pieces text) :
    piece <:+: text := by
  induction text using cut_induction with
  | whole line hline =>
    rw [pieces_of_not_mem hline, List.mem_singleton] at h
    exact h ▸ List.infix_rfl
  | cut line rest hline ih =>
    rw [pieces_append_cons hline] at h
    rcases List.mem_cons.mp h with rfl | h
    · exact (List.prefix_append ..).isInfix
    · exact (ih h).trans ⟨line ++ ['\n'], [], by simp⟩

theorem dropReturn_prefix (line : List Char) : dropReturn line <+: line := by
  unfold dropReturn
  split
  · exact List.dropLast_prefix line
  · exact List.prefix_rfl

theorem exists_piece_of_mem {cut : List (List Char)} {line : List Char}
    (h : line ∈ linesOfPieces cut) : ∃ piece ∈ cut, line <+: piece := by
  induction cut using linesOfPieces.induct with
  | case1 => cases h
  | case2 last hempty =>
    rw [linesOfPieces, if_pos hempty] at h
    cases h
  | case3 last hempty =>
    rw [linesOfPieces, if_neg hempty] at h
    exact ⟨last, List.mem_singleton_self last, List.mem_singleton.mp h ▸ List.prefix_rfl⟩
  | case4 piece next more ih =>
    rw [linesOfPieces] at h
    rcases List.mem_cons.mp h with rfl | h
    · exact ⟨piece, List.mem_cons_self, dropReturn_prefix piece⟩
    · obtain ⟨found, hfound, hp⟩ := ih h
      exact ⟨found, List.mem_cons_of_mem piece hfound, hp⟩

theorem infix_of_mem_lines {text line : String} (h : line ∈ lines text) :
    line.toList <:+: text.toList := by
  obtain ⟨cut, hcut, rfl⟩ := List.mem_map.mp h
  obtain ⟨piece, hpiece, hp⟩ := exists_piece_of_mem hcut
  rw [String.toList_ofList]
  exact hp.isInfix.trans (infix_of_mem_pieces hpiece)

theorem prefix_of_prefix_append_cons {c : Char} {marker : List Char} (hc : c ∉ marker)
    {text rest : List Char} (h : marker <+: text ++ c :: rest) : marker <+: text := by
  have hseparator : text ++ [c] <+: text ++ c :: rest := ⟨rest, by simp⟩
  rcases List.prefix_or_prefix_of_prefix h hseparator with hp | hp
  · rcases List.prefix_concat_iff.mp hp with heq | hp
    · exact absurd (heq ▸ List.mem_append_right text (List.mem_singleton_self c)) hc
    · exact hp
  · exact absurd (hp.subset (List.mem_append_right text (List.mem_singleton_self c))) hc

section Separator

variable {marker replacement : List Char} (hm : marker ≠ [])

include hm

theorem Replaced.append_cons {c : Char} (hc : c ∉ marker) {text result rest restResult : List Char}
    (h : Replaced marker replacement text result)
    (hrest : Replaced marker replacement rest restResult) :
    Replaced marker replacement (text ++ c :: rest) (result ++ c :: restResult) := by
  induction h with
  | nil =>
    exact .keep (fun hp => hm (List.prefix_nil.mp (prefix_of_prefix_append_cons hc hp))) hrest
  | keep hk _ ih => exact .keep (fun hp => hk (prefix_of_prefix_append_cons hc hp)) ih
  | write _ ih =>
    rw [List.append_assoc, List.append_assoc]
    exact .write ih

theorem replaceIn_append_cons {c : Char} (hc : c ∉ marker) (text rest : List Char) :
    replaceIn marker replacement (text ++ c :: rest) =
      replaceIn marker replacement text ++ c :: replaceIn marker replacement rest :=
  ((replaced_replaceIn hm text).append_cons hm hc (replaced_replaceIn hm rest)).replaceIn_eq hm

end Separator

structure WithinLines (marker replacement : List Char) : Prop where
  marker_ne_nil : marker ≠ []
  replacement_ne_nil : replacement ≠ []
  feed_not_mem_marker : '\n' ∉ marker
  feed_not_mem_replacement : '\n' ∉ replacement
  return_not_mem_marker : '\r' ∉ marker
  return_not_mem_replacement : '\r' ∉ replacement

namespace WithinLines

variable {marker replacement : List Char} (hw : WithinLines marker replacement)

include hw

theorem not_mem_replaceIn {text : List Char} (h : '\n' ∉ text) :
    '\n' ∉ replaceIn marker replacement text := by
  intro hmem
  rcases (replaced_replaceIn hw.marker_ne_nil text).mem_or_mem hmem with htext | hreplacement
  · exact h htext
  · exact hw.feed_not_mem_replacement hreplacement

theorem pieces_replaceIn (text : List Char) :
    pieces (replaceIn marker replacement text) =
      (pieces text).map (replaceIn marker replacement) := by
  induction text using cut_induction with
  | whole line hline =>
    rw [pieces_of_not_mem hline, pieces_of_not_mem (hw.not_mem_replaceIn hline)]
    rfl
  | cut line rest hline ih =>
    rw [replaceIn_append_cons hw.marker_ne_nil hw.feed_not_mem_marker,
      pieces_append_cons (hw.not_mem_replaceIn hline), pieces_append_cons hline, ih]
    rfl

theorem isEmpty_replaceIn (text : List Char) :
    (replaceIn marker replacement text).isEmpty = text.isEmpty := by
  have hnil := (replaced_replaceIn hw.marker_ne_nil text).eq_nil_iff hw.marker_ne_nil
    hw.replacement_ne_nil
  rw [Bool.eq_iff_iff, List.isEmpty_iff, List.isEmpty_iff]
  exact hnil

theorem dropReturn_replaceIn (line : List Char) :
    dropReturn (replaceIn marker replacement line) =
      replaceIn marker replacement (dropReturn line) := by
  have hreplaced : Replaced marker replacement line (replaceIn marker replacement line) :=
    replaced_replaceIn hw.marker_ne_nil line
  by_cases hl : line.getLast? = some '\r'
  · obtain ⟨text, rfl⟩ := List.getLast?_eq_some_iff.mp hl
    rw [replaceIn_append_cons hw.marker_ne_nil hw.return_not_mem_marker]
    have hnil : replaceIn marker replacement [] = [] := Replaced.nil.replaceIn_eq hw.marker_ne_nil
    simp [dropReturn, hnil]
  · -- No replacement ends with a carriage return either.
    have hresult : (replaceIn marker replacement line).getLast? ≠ some '\r' := fun h =>
      hl (hreplaced.getLast?_eq hw.marker_ne_nil hw.replacement_ne_nil
        hw.return_not_mem_replacement h)
    rw [dropReturn, dropReturn, if_neg hl, if_neg hresult]

theorem linesOfPieces_map (cut : List (List Char)) :
    linesOfPieces (cut.map (replaceIn marker replacement)) =
      (linesOfPieces cut).map (replaceIn marker replacement) := by
  induction cut using linesOfPieces.induct with
  | case1 => rfl
  | case2 last hempty =>
    simp only [List.map_cons, List.map_nil, linesOfPieces, hw.isEmpty_replaceIn, hempty, if_true]
  | case3 last hempty =>
    simp only [List.map_cons, List.map_nil, linesOfPieces, hw.isEmpty_replaceIn, hempty]
    rfl
  | case4 piece next more ih =>
    simp only [List.map_cons, linesOfPieces, hw.dropReturn_replaceIn]
    rw [← List.map_cons, ih]

end WithinLines

theorem lines_replace {marker replacement : String}
    (hw : WithinLines marker.toList replacement.toList) (text : String) :
    lines (replace marker replacement text) = (lines text).map (replace marker replacement) := by
  unfold lines replace
  rw [String.toList_ofList, hw.pieces_replaceIn, hw.linesOfPieces_map, List.map_map, List.map_map]
  simp only [Function.comp_def, String.toList_ofList]

end ApplianceScript.Text
