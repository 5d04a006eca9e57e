import ApplianceScript.Proofs.LongerMarkers
import ApplianceScript.Proofs.PassBudgets

/-!
Chains of markers, each made by replacing the one before it.

A marker that is there after a pass was written in that pass, by the turn of a marker that was there
before it or was itself written in the pass. So the markers left after some passes stand at the end
of a chain that grew with every pass, and a budget as long as the longest chain is enough.

A chain may go through markers that no expression contains: what a turn writes can form a marker
together with the text beside it. Only where expressions contain markers in full or have nothing to
do with them are the chains those of the references between expressions.
-/

namespace ApplianceScript

open Relation

namespace Text

variable {marker replacement word text : String}

theorem Writes.occurs (h : Writes marker replacement word text) : occurs marker text = true := by
  obtain ⟨_, _, _, _, ⟨left, right, _, _, htext, _⟩, _⟩ := h
  rw [occurs_iff, htext]
  exact ⟨left, right, rfl⟩

theorem writes_of_occurs (hm : marker ≠ "") (hw : word ≠ "")
    (h : Text.occurs word replacement = true) : Writes marker replacement word marker := by
  have hpos := List.length_pos_iff.mpr (mt String.toList_eq_nil_iff.mp hw)
  obtain ⟨before, after, heq⟩ := (occurs_iff ..).mp h
  have hlength := congrArg List.length heq
  simp only [List.length_append] at hlength
  have hreplaced : Replaced marker.toList replacement.toList marker.toList replacement.toList := by
    simpa using Replaced.write .nil
  have hwritten : WrittenAt marker.toList replacement.toList marker.toList replacement.toList 0 := by
    simpa using WrittenAt.here .nil
  unfold Writes
  rw [hreplaced.replace_eq hm]
  exact ⟨before, after, 0, heq.symm, hwritten, by omega, by omega⟩

theorem apart_iff (replacement word : String) :
    Apart replacement word ↔
      ¬ replacement.toList <:+: word.toList ∧ ¬ word.toList <:+: replacement.toList ∧
        (∀ part ∈ replacement.toList.tails, part ≠ [] → ¬ part <+: word.toList) ∧
        ∀ part ∈ replacement.toList.inits, part ≠ [] → ¬ part <:+ word.toList := by
  simp only [List.mem_tails, List.mem_inits]
  constructor
  · rintro ⟨hwithin, haround, hbefore, hafter⟩
    exact ⟨hwithin, haround, fun part hp hn => hbefore part hn hp,
      fun part hp hn => hafter part hn hp⟩
  · rintro ⟨hwithin, haround, hbefore, hafter⟩
    exact ⟨hwithin, haround, fun part hn hp => hbefore part hp hn,
      fun part hn hp => hafter part hp hn⟩

instance (replacement word : String) : Decidable (Apart replacement word) :=
  decidable_of_iff _ (apart_iff replacement word).symm

end Text

section Chains

variable {α : Type} {r : α → α → Prop}

theorem nodup_of_isChain (acyclic : ∀ a, ¬ TransGen r a a) {chain : List α}
    (hc : chain.IsChain r) : chain.Nodup := by
  have hp : chain.Pairwise (TransGen r) :=
    List.isChain_iff_pairwise.mp (hc.imp fun _ _ => TransGen.single)
  apply hp.imp
  rintro a _ h rfl
  exact acyclic a h

theorem exists_longer_chain {a b : α} {rest : List α} (h : TransGen r a b)
    (hc : (b :: rest).IsChain r) :
    ∃ more, (a :: more).IsChain r ∧ rest.length < more.length := by
  induction h using TransGen.head_induction_on with
  | single hab => exact ⟨b :: rest, hc.cons_cons hab, Nat.lt_succ_self _⟩
  | @head a c hac _ ih =>
    obtain ⟨more, hmore, hlt⟩ := ih
    exact ⟨c :: more, hmore.cons_cons hac, Nat.lt_succ_of_lt hlt⟩

end Chains

namespace PlaceholderTable

def Refers (table : PlaceholderTable) (a b : String) : Prop :=
  ∃ expression, (a, expression) ∈ table.entries ∧ b ∈ table.names ∧
    Text.occurs b expression = true

def Makes (table : PlaceholderTable) (a b : String) : Prop :=
  ∃ expression text, (a, expression) ∈ table.entries ∧ b ∈ table.names ∧
    Text.Writes a expression b text

/-- The relation goes round no circle, and no chain of it has more markers than that. -/
structure Shallow (table : PlaceholderTable) (r : String → String → Prop) (depth : Nat) :
    Prop where
  acyclic : ∀ name, ¬ TransGen r name name
  short : ∀ chain : List String, chain ⊆ table.names → chain.Nodup → chain.IsChain r →
    chain.length ≤ depth

/-- An expression contains a marker in full, or it can have no part in an occurrence of it. -/
def Seamless (table : PlaceholderTable) : Prop :=
  ∀ entry ∈ table.entries, ∀ name ∈ table.names,
    Text.occurs name entry.2 = true ∨ Text.Apart entry.2 name

variable {table : PlaceholderTable} {a b : String}

theorem Makes.mem_right (h : table.Makes a b) : b ∈ table.names := by
  obtain ⟨_, _, _, hb, _⟩ := h
  exact hb

theorem subset_names_of_isChain {rest : List String} (ha : a ∈ table.names)
    (hc : (a :: rest).IsChain table.Makes) : a :: rest ⊆ table.names := by
  induction rest generalizing a with
  | nil => simpa using ha
  | cons b rest ih =>
    obtain ⟨hab, hrest⟩ := List.isChain_cons_cons.mp hc
    exact List.cons_subset.mpr ⟨ha, ih hab.mem_right hrest⟩

section Named

variable (named : ∀ name ∈ table.names, name ≠ "")

include named

theorem Refers.makes (h : table.Refers a b) : table.Makes a b := by
  obtain ⟨expression, hmem, hb, ho⟩ := h
  have ha : a ∈ table.names := List.mem_map.mpr ⟨(a, expression), hmem, rfl⟩
  exact ⟨expression, a, hmem, hb, Text.writes_of_occurs (named a ha) (named b hb) ho⟩

theorem exists_source_of_turn {front : List (String × String)} (hf : front ⊆ table.entries)
    {name text : String} (hn : name ∈ table.names)
    (h : Text.occurs name (turn front text) = true) :
    ∃ source ∈ table.names, Text.occurs source text = true ∧
      (source = name ∧ name ∉ front.map (·.1) ∨ TransGen table.Makes source name) := by
  induction front using List.reverseRecOn generalizing name with
  | nil => exact ⟨name, hn, h, .inl ⟨rfl, List.not_mem_nil⟩⟩
  | append_singleton front entry ih =>
    obtain ⟨marker, expression⟩ := entry
    have hfront : front ⊆ table.entries := fun _ he => hf (List.mem_append_left _ he)
    have hentry : (marker, expression) ∈ table.entries := hf (by simp)
    have hmarker : marker ∈ table.names := List.mem_map.mpr ⟨_, hentry, rfl⟩
    rw [turn_concat] at h
    -- The last turn wrote some of the marker, or the marker was there before it.
    rcases Text.writes_or_occurs (named marker hmarker) (named name hn) h with hw | ⟨ho, hne⟩
    · have hmakes : table.Makes marker name := ⟨expression, _, hentry, hn, hw⟩
      obtain ⟨source, hs, hsource, ⟨rfl, _⟩ | htrans⟩ := ih hfront hmarker hw.occurs
      · exact ⟨source, hs, hsource, .inr (.single hmakes)⟩
      · exact ⟨source, hs, hsource, .inr (htrans.tail hmakes)⟩
    · obtain ⟨source, hs, hsource, ⟨rfl, hnot⟩ | htrans⟩ := ih hfront hn ho
      · exact ⟨source, hs, hsource, .inl ⟨rfl, by simpa [hne] using hnot⟩⟩
      · exact ⟨source, hs, hsource, .inr htrans⟩

theorem exists_source_of_pass {name text : String} (hn : name ∈ table.names)
    (h : Text.occurs name (table.pass text) = true) :
    ∃ source ∈ table.names, Text.occurs source text = true ∧
      TransGen table.Makes source name := by
  have happlied : table.applied ⊆ table.entries := fun _ he => List.mem_reverse.mp he
  rw [pass_eq_turn] at h
  obtain ⟨source, hs, hsource, ⟨rfl, hnot⟩ | htrans⟩ := exists_source_of_turn named happlied hn h
  · rw [applied, List.map_reverse, List.mem_reverse] at hnot
    exact absurd hn hnot
  · exact ⟨source, hs, hsource, htrans⟩

theorem exists_chain_of_hasMarker {passes : Nat} {line : String}
    (h : table.hasMarker (table.settleLine passes line) = true) :
    ∃ source rest, source ∈ table.names ∧ Text.occurs source line = true ∧
      (source :: rest).IsChain table.Makes ∧ passes ≤ rest.length := by
  -- The first pass puts at least one more marker in front of the chain of the passes after it.
  induction passes generalizing line with
  | zero =>
    obtain ⟨name, hn, ho⟩ := List.any_eq_true.mp h
    exact ⟨name, [], hn, ho, .singleton name, Nat.zero_le _⟩
  | succ passes ih =>
    cases hm : table.hasMarker line with
    | true =>
      rw [settleLine_of_hasMarker passes hm] at h
      obtain ⟨next, rest, hn, ho, hchain, hle⟩ := ih h
      obtain ⟨source, hs, hsource, htrans⟩ := exists_source_of_pass named hn ho
      obtain ⟨more, hmore, hlt⟩ := exists_longer_chain htrans hchain
      exact ⟨source, more, hs, hsource, hmore, Nat.lt_of_le_of_lt hle hlt⟩
    | false =>
      rw [table.settleLine_of_not_hasMarker (passes + 1) hm, hm] at h
      cases h

theorem Shallow.resolves {passes : Nat} (hs : table.Shallow table.Makes passes)
    (lines : List String) : ∃ resolved, table.resolveWithin passes lines = .ok resolved := by
  refine ⟨_, (table.resolveWithin_eq_ok_iff passes lines _).mpr ⟨?_, rfl⟩⟩
  intro line _
  rw [← Bool.not_eq_true]
  intro hm
  obtain ⟨source, rest, hsource, _, hchain, hle⟩ := exists_chain_of_hasMarker named hm
  have hshort := hs.short (source :: rest) (subset_names_of_isChain hsource hchain)
    (nodup_of_isChain hs.acyclic hchain) hchain
  rw [List.length_cons] at hshort
  omega

end Named

theorem Seamless.refers (hs : table.Seamless) (h : table.Makes a b) : table.Refers a b := by
  obtain ⟨expression, text, hmem, hb, hw⟩ := h
  rcases hs (a, expression) hmem b hb with ho | ha
  · exact ⟨expression, hmem, hb, ho⟩
  · exact absurd hw ha.not_writes

theorem Shallow.mono {r s : String → String → Prop} {depth : Nat} (hs : table.Shallow s depth)
    (h : ∀ a b, r a b → s a b) : table.Shallow r depth where
  acyclic name hc := hs.acyclic name (TransGen.mono h _ _ hc)
  short chain hn hd hc := hs.short chain hn hd (hc.imp h)

theorem resolves_of_shallow {catalog : Catalog} {table : PlaceholderTable}
    (merged : merge catalog = .ok table) (passes : Nat) :
    (∀ a b, table.Refers a b → table.Makes a b) ∧
      (table.Shallow table.Makes passes →
        ∀ lines, ∃ resolved, table.resolveWithin passes lines = .ok resolved) ∧
      (table.Seamless → table.Shallow table.Refers passes →
        ∀ lines, ∃ resolved, table.resolveWithin passes lines = .ok resolved) := by
  have named := (ordered_of_merge merged).ne_empty
  refine ⟨fun a b h => h.makes named, fun hs => hs.resolves named, ?_⟩
  intro hseamless hs
  exact (hs.mono fun a b h => hseamless.refers h).resolves named

theorem shallow_of_ascending {depth : Nat} (hd : table.size ≤ depth)
    (h : ∀ entry ∈ table.entries, ∀ name ∈ table.names,
      Text.occurs name entry.2 = true → entry.1 < name) : table.Shallow table.Refers depth where
  acyclic name hc := by
    have hlt : ∀ a b, table.Refers a b → a < b := by
      rintro a b ⟨expression, hmem, hb, ho⟩
      exact h (a, expression) hmem b hb ho
    have hless := TransGen.mono hlt _ _ hc
    rw [transGen_eq_self] at hless
    exact lt_irrefl name hless
  short chain hn hnodup _ := by
    have hle := (hnodup.subperm hn).length_le
    rw [names, List.length_map] at hle
    exact hle.trans hd

end PlaceholderTable

namespace Sample

def levels : Catalog where
  modules := [{
    name := "Core"
    version := some ⟨1, 0⟩
    placeholders := [⟨"L1", "L2"⟩, ⟨"L2", "L3"⟩, ⟨"L3", "end"⟩] }]
  distinct := by decide

def levelTable : PlaceholderTable where
  entries := [("L1", "L2"), ("L2", "L3"), ("L3", "end")]

theorem merge_levels : PlaceholderTable.merge levels = .ok levelTable := by cbv

def seamed : Catalog where
  modules := [{ name := "Core", version := some ⟨1, 0⟩, placeholders := [⟨"NS", "N"⟩] }]
  distinct := by decide

def seamTable : PlaceholderTable where
  entries := [("NS", "N")]

theorem merge_seamed : PlaceholderTable.merge seamed = .ok seamTable := by cbv

theorem resolve_seamed : seamTable.resolveWithin 10 ["NSSSSSSSSSSS"] =
    .error (.unresolvedPlaceholders ["NS"] 10) := by rfl

end Sample

namespace PlaceholderTable

theorem sample_levels_resolve :
    merge Sample.levels = .ok Sample.levelTable ∧ Sample.levelTable.Seamless ∧
      Sample.levelTable.Shallow Sample.levelTable.Refers 3 ∧
      Sample.levelTable.Shallow Sample.levelTable.Makes 3 ∧
      ∀ lines, ∃ resolved, Sample.levelTable.resolveWithin 3 lines = .ok resolved := by
  have hseamless : Sample.levelTable.Seamless := by
    unfold Seamless
    decide
  have hshallow : Sample.levelTable.Shallow Sample.levelTable.Refers 3 :=
    shallow_of_ascending (by decide) (by decide)
  exact ⟨Sample.merge_levels, hseamless, hshallow, hshallow.mono fun _ _ h => hseamless.refers h,
    (resolves_of_shallow Sample.merge_levels 3).2.2 hseamless hshallow⟩

theorem not_resolves_of_shallow :
    ¬ ∀ (catalog : Catalog) (table : PlaceholderTable) (passes : Nat),
      merge catalog = .ok table → table.Shallow table.Refers passes →
      ∀ lines, ∃ resolved, table.resolveWithin passes lines = .ok resolved := by
  intro hall
  have hshallow : Sample.seamTable.Shallow Sample.seamTable.Refers 10 :=
    shallow_of_ascending (by decide) (by decide)
  obtain ⟨resolved, h⟩ :=
    hall Sample.seamed Sample.seamTable 10 Sample.merge_seamed hshallow ["NSSSSSSSSSSS"]
  rw [Sample.resolve_seamed] at h
  cases h

end PlaceholderTable

end ApplianceScript
