import ApplianceScript.Proofs.PlaceholderNames
import ApplianceScript.Proofs.Substitution
import Mathlib

/-!
Markers that extend one another.

Within a pass a marker has its turn before every marker that it extends. So the text that a pass
starts with loses the longer marker before the turn of the shorter one. But a marker between the two
may write the longer one anew, or the longer one may write itself. Its turn is over then, and the
shorter marker is replaced inside it.
-/

namespace ApplianceScript

namespace Text

def Extends (short long : String) : Prop := short.toList <+: long.toList ∧ short ≠ long

theorem lt_of_prefix {short long : List Char} (hp : short <+: long) (hne : short ≠ long) :
    short < long := by
  induction short generalizing long with
  | nil =>
    obtain ⟨c, rest, rfl⟩ := List.exists_cons_of_ne_nil hne.symm
    exact List.nil_lt_cons c rest
  | cons c short ih =>
    obtain ⟨after, rfl⟩ := hp
    rw [List.cons_append, List.cons_lt_cons_iff]
    refine .inr ⟨rfl, ih (List.prefix_append short after) ?_⟩
    rintro h
    exact hne (congrArg (c :: ·) h)

theorem prefix_of_between {short middle long : List Char} (hp : short <+: long)
    (hs : ¬ middle < short) (hl : ¬ long < middle) : short <+: middle := by
  induction short generalizing middle long with
  | nil => exact List.nil_prefix
  | cons c short ih =>
    obtain ⟨after, rfl⟩ := hp
    cases middle with
    | nil => exact absurd (List.nil_lt_cons c short) hs
    | cons d middle =>
      rw [List.cons_lt_cons_iff, not_or] at hs
      rw [List.cons_append, List.cons_lt_cons_iff, not_or] at hl
      obtain rfl : c = d := le_antisymm (not_lt.mp hs.1) (not_lt.mp hl.1)
      rw [List.cons_prefix_cons]
      refine ⟨rfl, ih (List.prefix_append short after) ?_ ?_⟩
      · exact fun h => hs.2 ⟨rfl, h⟩
      · exact fun h => hl.2 ⟨rfl, h⟩

theorem Extends.lt {short long : String} (h : Extends short long) : short < long := by
  rw [String.lt_iff_toList_lt]
  exact lt_of_prefix h.1 fun heq => h.2 (String.toList_inj.mp heq)

theorem Extends.of_between {short middle long : String} (h : Extends short long)
    (hs : short < middle) (hl : middle ≤ long) : Extends short middle := by
  refine ⟨?_, hs.ne⟩
  rw [← not_lt] at hl
  apply prefix_of_between h.1
  · rw [← String.lt_iff_toList_lt]
    exact not_lt_of_gt hs
  · rwa [← String.lt_iff_toList_lt]

/-- Replacing the marker in the text writes some of an occurrence of the word, or closes it up. -/
def Writes (marker replacement word text : String) : Prop :=
  ∃ before after start, (replace marker replacement text).toList = before ++ word.toList ++ after ∧
    WrittenAt marker.toList replacement.toList text.toList
      (replace marker replacement text).toList start ∧
    start < before.length + word.toList.length ∧
    before.length < start + replacement.toList.length

structure Apart (replacement word : String) : Prop where
  within : ¬ replacement.toList <:+: word.toList
  around : ¬ word.toList <:+: replacement.toList
  before : ∀ part ≠ [], part <:+ replacement.toList → ¬ part <+: word.toList
  after : ∀ part ≠ [], part <+: replacement.toList → ¬ part <:+ word.toList

variable {marker replacement word text : String}

theorem Apart.not_writes (ha : Apart replacement word) :
    ¬ Writes marker replacement word text := by
  rintro ⟨before, after, start, heq, ⟨_, _, left, right, _, hresult, _, _, rfl⟩, hlt, hgt⟩
  rw [hresult, List.append_assoc, List.append_assoc, List.append_eq_append_iff] at heq
  rcases heq with ⟨gap, rfl, heq⟩ | ⟨gap, rfl, heq⟩
  · -- The word begins in the replacement.
    rw [List.length_append] at hgt
    rcases List.append_eq_append_iff.mp heq with ⟨rest, rfl, _⟩ | ⟨rest, hrep, heq⟩
    · simp at hgt
    · have hne : rest ≠ [] := by
        rintro rfl
        rw [hrep] at hgt
        simp at hgt
      rcases List.append_eq_append_iff.mp heq with ⟨more, hrest, _⟩ | ⟨more, hword, _⟩
      · apply ha.around
        exact ⟨gap, more, by rw [hrep, hrest, List.append_assoc]⟩
      · apply ha.before rest hne
        · exact hrep ▸ List.suffix_append gap rest
        · exact hword ▸ List.prefix_append rest more
  · -- The replacement begins in the word.
    rw [List.length_append] at hlt
    rcases List.append_eq_append_iff.mp heq with ⟨rest, rfl, _⟩ | ⟨rest, hword, heq⟩
    · simp at hlt
    · have hne : rest ≠ [] := by
        rintro rfl
        rw [hword] at hlt
        simp at hlt
      rcases List.append_eq_append_iff.mp heq with ⟨more, hrest, _⟩ | ⟨more, hrep, _⟩
      · apply ha.within
        exact ⟨gap, more, by rw [hword, hrest, List.append_assoc]⟩
      · apply ha.after rest hne
        · exact hrep ▸ List.prefix_append rest more
        · exact hword ▸ List.suffix_append gap rest

theorem writes_or_occurs (hm : marker ≠ "") (hw : word ≠ "")
    (h : occurs word (replace marker replacement text) = true) :
    Writes marker replacement word text ∨ (occurs word text = true ∧ word ≠ marker) := by
  obtain ⟨before, after, heq⟩ := (occurs_iff ..).mp h
  rcases (replaced_replace hm replacement text).written_or_kept
    (mt String.toList_eq_nil_iff.mp hw) heq.symm with ⟨start, hwritten, hlt, hgt⟩ | hkept
  · exact .inl ⟨before, after, start, heq.symm, hwritten, hlt, hgt⟩
  · obtain ⟨left, right, htext, hnot⟩ := hkept
    refine .inr ⟨?_, ?_⟩
    · rw [occurs_iff, htext]
      exact ⟨left, right, rfl⟩
    · rintro rfl
      exact hnot (List.prefix_append ..)

end Text

namespace PlaceholderTable

theorem mem_insertEntry_iff (entry other : String × String) (entries : List (String × String)) :
    other ∈ insertEntry entry entries ↔ other = entry ∨ other ∈ entries := by
  induction entries with
  | nil => simp [insertEntry]
  | cons head rest ih =>
    unfold insertEntry
    split_ifs
    · simp
    · simp only [List.mem_cons, ih]
      tauto

theorem pairwise_insertEntry {entry : String × String} {entries : List (String × String)}
    (hs : entries.Pairwise fun a b => a.1 < b.1) (hn : ∀ other ∈ entries, other.1 ≠ entry.1) :
    (insertEntry entry entries).Pairwise fun a b => a.1 < b.1 := by
  induction entries with
  | nil => simp [insertEntry]
  | cons head rest ih =>
    obtain ⟨hhead, hrest⟩ := List.pairwise_cons.mp hs
    obtain ⟨hne, hnrest⟩ := List.forall_mem_cons.mp hn
    unfold insertEntry
    split_ifs with hlt
    · apply List.pairwise_cons.mpr
      refine ⟨?_, hs⟩
      intro other hother
      rcases List.mem_cons.mp hother with rfl | hother
      · exact hlt
      · exact hlt.trans (hhead other hother)
    · apply List.pairwise_cons.mpr
      refine ⟨?_, ih hrest hnrest⟩
      intro other hother
      rcases (mem_insertEntry_iff ..).mp hother with rfl | hother
      · exact lt_of_le_of_ne (not_lt.mp hlt) hne
      · exact hhead other hother

structure Ordered (table : PlaceholderTable) : Prop where
  ascending : table.entries.Pairwise fun a b => a.1 < b.1
  named : ∀ entry ∈ table.entries, entry.1 ≠ ""

theorem Ordered.insert {table : PlaceholderTable} (ho : table.Ordered) {placeholder : Placeholder}
    (hn : placeholder.name ≠ "") (hfresh : ∀ entry ∈ table.entries, entry.1 ≠ placeholder.name) :
    (table.insert placeholder).Ordered := by
  refine ⟨pairwise_insertEntry ho.ascending hfresh, ?_⟩
  intro entry hentry
  rcases (mem_insertEntry_iff ..).mp hentry with rfl | hentry
  · exact hn
  · exact ho.named entry hentry

theorem Ordered.extend {table result : PlaceholderTable} {earlier definitions : List Definition}
    (ho : table.Ordered)
    (he : ∀ entry ∈ table.entries, ∃ first ∈ earlier, first.placeholder.name = entry.1)
    (h : table.extend earlier definitions = .ok result) : result.Ordered := by
  induction definitions generalizing table earlier with
  | nil =>
    obtain rfl := Except.ok.inj h
    exact ho
  | cons definition rest ih =>
    unfold PlaceholderTable.extend at h
    split_ifs at h with hn
    split at h <;> rename_i hfound
    · cases h
    · refine ih (ho.insert (by simpa using hn) ?_) ?_ h
      · rintro entry hentry heq
        obtain ⟨first, hf, hfirst⟩ := he entry hentry
        have hnone := List.find?_eq_none.mp hfound first hf
        exact hnone (by simp [hfirst, heq])
      · intro entry hentry
        rcases (mem_insertEntry_iff ..).mp hentry with rfl | hentry
        · exact ⟨definition, by simp, rfl⟩
        · obtain ⟨first, hf, hfirst⟩ := he entry hentry
          exact ⟨first, List.mem_append_left _ hf, hfirst⟩

theorem ordered_of_merge {catalog : Catalog} {table : PlaceholderTable}
    (h : merge catalog = .ok table) : table.Ordered := by
  refine Ordered.extend ⟨List.Pairwise.nil, ?_⟩ ?_ h
  · exact fun entry hentry => absurd hentry List.not_mem_nil
  · exact fun entry hentry => absurd hentry List.not_mem_nil

def turn (front : List (String × String)) (text : String) : String :=
  front.foldl (fun text entry => Text.replace entry.1 entry.2 text) text

theorem pass_eq_turn (table : PlaceholderTable) (line : String) :
    table.pass line = turn table.applied line := rfl

theorem turn_concat (front : List (String × String)) (marker replacement text : String) :
    turn (front ++ [(marker, replacement)]) text =
      Text.replace marker replacement (turn front text) := by
  rw [turn, List.foldl_append]
  rfl

/-- The turn that the entries behind `front` begin with writes the word, and it stays in the text
through the turns of those that follow. -/
def WrittenOn (word text : String) (front : List (String × String)) (marker replacement : String)
    (middle : List (String × String)) : Prop :=
  Text.Writes marker replacement word (turn front text) ∧
    ∀ rest, rest <+: middle →
      Text.occurs word (turn (front ++ (marker, replacement) :: rest) text) = true

theorem WrittenOn.concat {word text marker replacement : String}
    {front middle : List (String × String)} {entry : String × String}
    (h : WrittenOn word text front marker replacement middle)
    (ho : Text.occurs word
      (turn (front ++ (marker, replacement) :: middle ++ [entry]) text) = true) :
    WrittenOn word text front marker replacement (middle ++ [entry]) := by
  refine ⟨h.1, ?_⟩
  intro rest hrest
  rcases List.prefix_concat_iff.mp hrest with rfl | hrest
  · simpa using ho
  · exact h.2 rest hrest

theorem exists_writtenOn {word replacement text : String} (hw : word ≠ "")
    {front middle : List (String × String)} (hn : ∀ entry ∈ middle, entry.1 ≠ "")
    (h : Text.occurs word (turn (front ++ (word, replacement) :: middle) text) = true) :
    ∃ first marker written last,
      (word, replacement) :: middle = first ++ (marker, written) :: last ∧
      WrittenOn word text (front ++ first) marker written last := by
  induction middle using List.reverseRecOn with
  | nil =>
    have hwrites : Text.Writes word replacement word (turn front text) := by
      rw [turn_concat] at h
      rcases Text.writes_or_occurs hw hw h with hwrites | ⟨_, hne⟩
      · exact hwrites
      · exact absurd rfl hne
    refine ⟨[], word, replacement, [], rfl, by simpa using hwrites, ?_⟩
    intro rest hrest
    rw [List.prefix_nil.mp hrest, List.append_nil]
    exact h
  | append_singleton middle entry ih =>
    obtain ⟨marker, written⟩ := entry
    have hmarker : marker ≠ "" := hn (marker, written) (by simp)
    have hsplit : front ++ (word, replacement) :: (middle ++ [(marker, written)]) =
        front ++ (word, replacement) :: middle ++ [(marker, written)] := by simp
    rw [hsplit] at h
    have hturn := h
    rw [turn_concat] at hturn
    rcases Text.writes_or_occurs hmarker hw hturn with hwrites | ⟨hkept, _⟩
    · refine ⟨(word, replacement) :: middle, marker, written, [], rfl, hwrites, ?_⟩
      intro rest hrest
      rw [List.prefix_nil.mp hrest]
      exact h
    · obtain ⟨first, other, text', last, heq, hon⟩ :=
        ih (fun entry hentry => hn entry (List.mem_append_left _ hentry)) hkept
      refine ⟨first, other, text', last ++ [(marker, written)], ?_, hon.concat ?_⟩
      · rw [← List.cons_append, heq]
        simp
      · rw [heq] at h
        simpa using h

section Applied

variable {table : PlaceholderTable} {short expression long : String}
  {before after : List (String × String)}
  (applied : table.applied = before ++ (short, expression) :: after)

include applied

theorem pass_of_applied (text : String) :
    table.pass text = turn after (Text.replace short expression (turn before text)) := by
  rw [pass_eq_turn, applied, turn, List.foldl_append]
  rfl

theorem Ordered.lt_of_mem_before (ho : table.Ordered) {entry : String × String}
    (he : entry ∈ before) : short < entry.1 := by
  have hs := List.pairwise_reverse.mpr ho.ascending
  rw [← PlaceholderTable.applied, applied] at hs
  exact (List.pairwise_append.mp hs).2.2 entry he _ List.mem_cons_self

theorem Ordered.exists_turn_before (ho : table.Ordered) (named : long ∈ table.names)
    (hlt : short < long) :
    ∃ front replacement middle, before = front ++ (long, replacement) :: middle ∧
      ∀ entry ∈ middle, entry.1 < long := by
  obtain ⟨⟨name, replacement⟩, hentry, rfl⟩ := List.mem_map.mp named
  have hs := List.pairwise_reverse.mpr ho.ascending
  have hmem : (name, replacement) ∈ table.applied := List.mem_reverse.mpr hentry
  rw [← PlaceholderTable.applied, applied] at hs
  rw [applied] at hmem
  rcases List.mem_append.mp hmem with hbefore | hrest
  · obtain ⟨front, middle, rfl⟩ := List.append_of_mem hbefore
    refine ⟨front, replacement, middle, rfl, ?_⟩
    intro entry he
    have hmiddle := (List.pairwise_append.mp (List.pairwise_append.mp hs).1).2.1
    exact (List.pairwise_cons.mp hmiddle).1 entry he
  · rcases List.mem_cons.mp hrest with heq | hafter
    · obtain ⟨rfl, _⟩ := Prod.mk.inj heq
      exact absurd hlt (lt_irrefl _)
    · have hback := (List.pairwise_cons.mp (List.pairwise_append.mp hs).2.1).1 _ hafter
      exact absurd hlt (not_lt_of_gt hback)

end Applied

theorem occurs_longer_iff {catalog : Catalog} {table : PlaceholderTable}
    (merged : merge catalog = .ok table) {short expression long : String}
    {before after : List (String × String)}
    (applied : table.applied = before ++ (short, expression) :: after)
    (named : long ∈ table.names) (extended : Text.Extends short long) (text : String) :
    table.pass text = turn after (Text.replace short expression (turn before text)) ∧
      (Text.occurs long (turn before text) = true ↔
        ∃ front marker written middle, before = front ++ (marker, written) :: middle ∧
          Text.Extends short marker ∧ marker ≤ long ∧
          WrittenOn long text front marker written middle) ∧
      ((∀ entry ∈ before, Text.Extends short entry.1 → entry.1 ≤ long →
          Text.Apart entry.2 long) →
        Text.occurs long (turn before text) = false) := by
  have ho := ordered_of_merge merged
  have hlong : long ≠ "" := by
    obtain ⟨entry, hentry, rfl⟩ := List.mem_map.mp named
    exact ho.named entry hentry
  have hiff : Text.occurs long (turn before text) = true ↔
      ∃ front marker written middle, before = front ++ (marker, written) :: middle ∧
        Text.Extends short marker ∧ marker ≤ long ∧
        WrittenOn long text front marker written middle := by
    constructor
    · intro h
      obtain ⟨front, replacement, middle, rfl, hmiddle⟩ :=
        ho.exists_turn_before applied named extended.lt
      have hnamed : ∀ entry ∈ middle, entry.1 ≠ "" := by
        intro entry he
        apply ho.named entry
        rw [← List.mem_reverse, ← PlaceholderTable.applied, applied]
        simp [he]
      obtain ⟨first, marker, written, last, heq, hon⟩ := exists_writtenOn hlong hnamed h
      have hmem : (marker, written) ∈ (long, replacement) :: middle := by
        rw [heq]
        simp
      have hle : marker ≤ long := by
        rcases List.mem_cons.mp hmem with hsame | hmem
        · obtain ⟨rfl, _⟩ := Prod.mk.inj hsame
          exact le_rfl
        · exact (hmiddle _ hmem).le
      have hlt : short < marker := ho.lt_of_mem_before applied (List.mem_append_right front hmem)
      refine ⟨front ++ first, marker, written, last, ?_, extended.of_between hlt hle, hle, hon⟩
      rw [heq, List.append_assoc]
    · rintro ⟨front, marker, written, middle, rfl, _, _, hon⟩
      exact hon.2 middle List.prefix_rfl
  refine ⟨pass_of_applied applied text, hiff, ?_⟩
  intro hapart
  rw [← Bool.not_eq_true, hiff]
  rintro ⟨front, marker, written, middle, rfl, hextends, hle, hon⟩
  exact (hapart (marker, written) (by simp) hextends hle).not_writes hon.1

end PlaceholderTable

namespace Sample

def nested : Catalog where
  modules := [{
    name := "Core"
    version := some ⟨1, 0⟩
    placeholders := [⟨"NS", "10.0.0.1"⟩, ⟨"NS_A", "NS_IP"⟩, ⟨"NS_IP", "10.0.0.2"⟩] }]
  distinct := by decide

def nestedTable : PlaceholderTable where
  entries := [("NS", "10.0.0.1"), ("NS_A", "NS_IP"), ("NS_IP", "10.0.0.2")]

theorem merge_nested : PlaceholderTable.merge nested = .ok nestedTable := by cbv

theorem extends_nested : Text.Extends "NS" "NS_IP" := by
  unfold Text.Extends
  decide

theorem occurs_nested : Text.occurs "NS_IP"
    (PlaceholderTable.turn [("NS_IP", "10.0.0.2"), ("NS_A", "NS_IP")] "add NS_A") = true := by
  cbv

end Sample

namespace PlaceholderTable

theorem sample_nested_written :
    merge Sample.nested = .ok Sample.nestedTable ∧
      Sample.nestedTable.applied =
        [("NS_IP", "10.0.0.2"), ("NS_A", "NS_IP")] ++ ("NS", "10.0.0.1") :: [] ∧
      "NS_IP" ∈ Sample.nestedTable.names ∧ Text.Extends "NS" "NS_IP" ∧
      ∃ front marker written middle,
        [("NS_IP", "10.0.0.2"), ("NS_A", "NS_IP")] = front ++ (marker, written) :: middle ∧
          Text.Extends "NS" marker ∧ marker ≤ "NS_IP" ∧
          WrittenOn "NS_IP" "add NS_A" front marker written middle := by
  have hnamed : "NS_IP" ∈ Sample.nestedTable.names := by decide
  exact ⟨Sample.merge_nested, rfl, hnamed, Sample.extends_nested,
    (occurs_longer_iff Sample.merge_nested rfl hnamed Sample.extends_nested "add NS_A").2.1.mp
      Sample.occurs_nested⟩

theorem not_longer_gone :
    (∀ (table : PlaceholderTable) (short expression : String)
      (before after : List (String × String)),
      table.applied = before ++ (short, expression) :: after →
      ∀ text, table.pass text = turn after (Text.replace short expression (turn before text))) ∧
    ¬ ∀ (catalog : Catalog) (table : PlaceholderTable) (short expression long : String)
      (before after : List (String × String)) (passes : Nat) (lines : List String),
      merge catalog = .ok table → table.applied = before ++ (short, expression) :: after →
      long ∈ table.names → Text.Extends short long →
      ∀ text ∈ table.settle passes lines, Text.occurs long (turn before text) = false := by
  refine ⟨fun _ _ _ _ _ applied => pass_of_applied applied, ?_⟩
  intro hall
  have hgone := hall Sample.nested Sample.nestedTable "NS" "10.0.0.1" "NS_IP"
    [("NS_IP", "10.0.0.2"), ("NS_A", "NS_IP")] [] 0 ["add NS_A"] Sample.merge_nested rfl (by decide)
    Sample.extends_nested "add NS_A" (List.mem_singleton_self _)
  rw [Sample.occurs_nested] at hgone
  cases hgone

example : Sample.nestedTable.resolve ["add NS_A"] = .ok ["add 10.0.0.1_IP"] := by rfl

end PlaceholderTable

end ApplianceScript
