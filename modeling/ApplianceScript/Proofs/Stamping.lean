import ApplianceScript.Proofs.LineByLine
import ApplianceScript.Script

namespace ApplianceScript

namespace Version

def TagWithin (version : Version) (source : String) (start stop : Nat) : Prop :=
  ∃ left right, source = left ++ marker ++ right ∧
    version.stamp source = version.stamp left ++ version.tag ++ version.stamp right ∧
    (version.stamp left).length < stop ∧
    start < (version.stamp left).length + version.tag.length

theorem isDigit_of_mem_twoDigits {n : Nat} {c : Char} (h : c ∈ (twoDigits n).toList) :
    c.isDigit = true := by
  have hdigits : c ∈ (toString n).toList → c.isDigit = true := by
    rw [Nat.toString_eq_ofList_toDigits, String.toList_ofList]
    exact Nat.isDigit_of_mem_toDigits (by decide) (by decide)
  unfold twoDigits at h
  split at h
  · rw [String.toList_append] at h
    rcases List.mem_append.mp h with h | h
    · rw [List.mem_singleton.mp h]
      rfl
    · exact hdigits h
  · exact hdigits h

variable (version : Version)

theorem tag_eq : version.tag.toList = 'C' :: 'L' ::
    ((twoDigits version.major.toNat).toList ++ (twoDigits version.minor.toNat).toList) := by
  simp [tag, tagHead]

theorem eq_or_isDigit_of_mem_tag {c : Char} (h : c ∈ version.tag.toList) :
    c = 'C' ∨ c = 'L' ∨ c.isDigit = true := by
  rw [tag_eq, List.mem_cons, List.mem_cons, List.mem_append] at h
  rcases h with h | h | h | h
  · exact .inl h
  · exact .inr (.inl h)
  · exact .inr (.inr (isDigit_of_mem_twoDigits h))
  · exact .inr (.inr (isDigit_of_mem_twoDigits h))

theorem not_mem_tag {c : Char} (hc : c ≠ 'C') (hl : c ≠ 'L') (hd : c.isDigit = false) :
    c ∉ version.tag.toList := by
  intro h
  rcases version.eq_or_isDigit_of_mem_tag h with h | h | h
  · exact hc h
  · exact hl h
  · rw [hd] at h
    cases h

theorem tag_ne_nil : version.tag.toList ≠ [] := by
  rw [tag_eq]
  exact List.cons_ne_nil _ _

theorem marker_disjoint_tag : ∀ c ∈ marker.toList, c ∉ version.tag.toList := by
  have hmarker : marker.toList = ['_', 'V', '_'] := by decide
  rw [hmarker]
  intro c hc
  simp only [List.mem_cons, List.not_mem_nil, or_false] at hc
  rcases hc with rfl | rfl | rfl <;> exact version.not_mem_tag (by decide) (by decide) (by decide)

theorem withinLines : Text.WithinLines marker.toList version.tag.toList where
  marker_ne_nil := by decide
  replacement_ne_nil := version.tag_ne_nil
  feed_not_mem_marker := by decide
  feed_not_mem_replacement := version.not_mem_tag (by decide) (by decide) (by decide)
  return_not_mem_marker := by decide
  return_not_mem_replacement := version.not_mem_tag (by decide) (by decide) (by decide)

theorem replaced_stamp (text : String) :
    Text.Replaced marker.toList version.tag.toList text.toList (version.stamp text).toList :=
  Text.replaced_replace (by decide) version.tag text

theorem stamp_ofList {text result : List Char}
    (h : Text.Replaced marker.toList version.tag.toList text result) :
    version.stamp (String.ofList text) = String.ofList result := by
  rw [stamp, Text.replace, String.toList_ofList, h.replaceIn_eq version.withinLines.marker_ne_nil]

theorem occurs_marker_stamp (text : String) :
    Text.occurs marker (version.stamp text) = false := by
  rw [← Bool.not_eq_true, Text.occurs_iff]
  exact (version.replaced_stamp text).no_marker_left version.withinLines.marker_ne_nil
    version.tag_ne_nil version.marker_disjoint_tag

theorem tagWithin_of_occurs {source before word after : String}
    (hs : version.stamp source = before ++ word ++ after)
    (hn : Text.occurs word source = false) :
    version.TagWithin source before.length (before.length + word.length) := by
  have heq : (version.stamp source).toList = before.toList ++ word.toList ++ after.toList := by
    rw [hs, String.toList_append, String.toList_append]
  have hinfix : ¬ word.toList <:+: source.toList := by
    rw [← Text.occurs_iff, hn]
    exact Bool.false_ne_true
  obtain ⟨_, ⟨left, right, leftResult, rightResult, htext, hresult, hleft, hright, rfl⟩, hlt, hgt⟩ :=
    (version.replaced_stamp source).exists_written heq hinfix
  simp only [String.length_toList] at hlt hgt
  refine ⟨String.ofList left, String.ofList right, ?_, ?_, ?_, ?_⟩
  · rw [← String.toList_inj, htext]
    simp
  · rw [version.stamp_ofList hleft, version.stamp_ofList hright, ← String.toList_inj, hresult]
    simp
  · rw [version.stamp_ofList hleft]
    simpa using hlt
  · rw [version.stamp_ofList hleft]
    simpa using hgt

theorem stamp_eq_self_iff {version : Version} {text : String} :
    version.stamp text = text ↔ Text.occurs marker text = false :=
  ⟨fun h => h ▸ version.occurs_marker_stamp text, version.stamp_of_not_occurs⟩

theorem stamp_stamp (version other : Version) (text : String) :
    other.stamp (version.stamp text) = version.stamp text :=
  stamp_eq_self_iff.mpr (version.occurs_marker_stamp text)

theorem isBlank_stamp (text : String) :
    Text.isBlank (version.stamp text) = Text.isBlank text := by
  refine (version.replaced_stamp text).all_eq (by decide) ?_
  have hletter : Text.isWhiteSpace 'C' = false := by decide
  rw [tag_eq, List.all_cons, hletter, Bool.false_and]

theorem commandLines_stamp (text : String) :
    commandLines (version.stamp text) = (commandLines text).map version.stamp := by
  have hlines : Text.lines (version.stamp text) = (Text.lines text).map version.stamp :=
    Text.lines_replace version.withinLines text
  unfold commandLines
  rw [hlines, List.filter_map]
  simp only [Function.comp_def, version.isBlank_stamp]

theorem stamped_for_good (version other : Version) (text : String) (commands : List String) :
    Text.Replaced marker.toList version.tag.toList text.toList (version.stamp text).toList ∧
      Text.occurs marker (version.stamp text) = false ∧
      (version.stamp text = text ↔ Text.occurs marker text = false) ∧
      other.stamp (version.stamp text) = version.stamp text ∧
      version.stampAll commands = commands.map version.stamp ∧
      other.stampAll (version.stampAll commands) = version.stampAll commands := by
  refine ⟨version.replaced_stamp text, version.occurs_marker_stamp text, stamp_eq_self_iff,
    stamp_stamp version other text, version.stampAll_eq_map commands, ?_⟩
  rw [other.stampAll_eq_map, version.stampAll_eq_map, List.map_map]
  apply List.map_congr_left
  intro command _
  exact stamp_stamp version other command

example : (⟨3, 7⟩ : Version).stamp "ps__V_V_" = "ps_CL0307V_" := by cbv

end Version

end ApplianceScript
