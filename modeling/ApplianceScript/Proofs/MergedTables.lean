import ApplianceScript.Proofs.ByteOrder
import ApplianceScript.Proofs.LongerMarkers

namespace ApplianceScript

namespace Catalog

def Reshuffled (first second : Catalog) : Prop :=
  ∃ modules, first.modules.Perm modules ∧ List.Forall₂
    (fun m other : ConfigModule => m.placeholders.Perm other.placeholders) modules second.modules

theorem placeholders_definitions (catalog : Catalog) :
    catalog.definitions.map (·.placeholder) = catalog.modules.flatMap (·.placeholders) := by
  simp [definitions, List.map_flatMap, Function.comp_def]

theorem flatMap_placeholders_perm {modules others : List ConfigModule}
    (h : List.Forall₂ (fun m other => m.placeholders.Perm other.placeholders) modules others) :
    (modules.flatMap (·.placeholders)).Perm (others.flatMap (·.placeholders)) := by
  induction h with
  | nil => exact .refl _
  | cons hm _ ih =>
    rw [List.flatMap_cons, List.flatMap_cons]
    exact hm.append ih

theorem Reshuffled.placeholders_perm {first second : Catalog} (h : first.Reshuffled second) :
    (first.definitions.map (·.placeholder)).Perm (second.definitions.map (·.placeholder)) := by
  obtain ⟨modules, hperm, hall⟩ := h
  rw [placeholders_definitions, placeholders_definitions]
  exact (hperm.flatMap_right _).trans (flatMap_placeholders_perm hall)

end Catalog

theorem distinctNames_iff_of_perm {first second : List Definition}
    (h : (first.map (·.placeholder)).Perm (second.map (·.placeholder))) :
    DistinctNames first ↔ DistinctNames second := by
  have hplaceholders (definitions : List Definition) : DistinctNames definitions ↔
      (∀ placeholder ∈ definitions.map (·.placeholder), placeholder.name ≠ "") ∧
        ((definitions.map (·.placeholder)).map (·.name)).Nodup := by
    rw [DistinctNames, List.forall_mem_map, List.map_map]
    rfl
  rw [hplaceholders, hplaceholders, (h.map (·.name)).nodup_iff]
  simp only [h.mem_iff]

namespace Definition

def entry (definition : Definition) : String × String :=
  (definition.placeholder.name, definition.placeholder.expression)

theorem Refused.unique {earlier : List Definition} (he : DistinctNames earlier)
    {definition : Definition} {error other : CompileError}
    (h : definition.Refused earlier error) (ho : definition.Refused earlier other) :
    error = other := by
  cases h with
  | unnamed hempty =>
    cases ho with
    | unnamed _ => rfl
    | repeated hn _ _ => exact absurd hempty hn
  | repeated hn hf hs =>
    cases ho with
    | unnamed hempty => exact absurd hempty hn
    | repeated _ hfo hso =>
      obtain rfl := List.inj_on_of_nodup_map he.2 hf hfo (hs.trans hso.symm)
      rfl

theorem Refused.first_unique {before front after back : List Definition}
    {definition first : Definition} {error other : CompileError}
    (h : definition.Refused before error) (ho : first.Refused front other)
    (hb : DistinctNames before) (hf : DistinctNames front)
    (heq : before ++ definition :: after = front ++ first :: back) :
    before = front ∧ definition = first := by
  rcases List.append_eq_append_iff.mp heq with ⟨gap, rfl, hgap⟩ | ⟨gap, rfl, hgap⟩
  · cases gap with
    | nil => exact ⟨(List.append_nil _).symm, (List.cons.inj hgap).1⟩
    | cons next gap =>
      obtain ⟨rfl, _⟩ := List.cons.inj hgap
      exact absurd hf (PlaceholderTable.not_distinctNames_of_refused h)
  · cases gap with
    | nil => exact ⟨List.append_nil _, (List.cons.inj hgap).1.symm⟩
    | cons next gap =>
      obtain ⟨rfl, _⟩ := List.cons.inj hgap
      exact absurd hb (PlaceholderTable.not_distinctNames_of_refused ho)

end Definition

namespace PlaceholderTable

theorem insertEntry_perm (entry : String × String) (entries : List (String × String)) :
    (insertEntry entry entries).Perm (entry :: entries) := by
  induction entries with
  | nil => exact .refl _
  | cons head rest ih =>
    unfold insertEntry
    split_ifs
    · exact .refl _
    · exact (ih.cons head).trans (.swap entry head rest)

theorem entries_extend_perm {table result : PlaceholderTable} {earlier definitions : List Definition}
    (h : table.extend earlier definitions = .ok result) :
    result.entries.Perm (table.entries ++ definitions.map (·.entry)) := by
  induction definitions generalizing table earlier with
  | nil =>
    obtain rfl := Except.ok.inj h
    rw [List.map_nil, List.append_nil]
  | cons definition rest ih =>
    unfold PlaceholderTable.extend at h
    split_ifs at h
    split at h
    · cases h
    · have hinsert : (table.insert definition.placeholder).entries.Perm
          (definition.entry :: table.entries) := insertEntry_perm ..
      have htable := hinsert.append_right (rest.map (·.entry))
      exact (ih h).trans (htable.trans List.perm_middle.symm)

variable {catalog other : Catalog} {table : PlaceholderTable}

theorem applied_perm_of_merge (h : merge catalog = .ok table) :
    table.applied.Perm (catalog.definitions.map (·.entry)) :=
  (List.reverse_perm table.entries).trans (entries_extend_perm h)

theorem Ordered.applied_descending (h : table.Ordered) :
    table.applied.Pairwise fun earlier later => later.1 < earlier.1 :=
  List.pairwise_reverse.mpr h.ascending

theorem eq_of_applied_perm {first second : PlaceholderTable} (hf : first.Ordered)
    (hs : second.Ordered) (h : first.applied.Perm second.applied) : first = second := by
  have heq : first.applied = second.applied :=
    h.eq_of_pairwise (fun _ _ _ _ hab hba => absurd hab (lt_asymm hba)) hf.applied_descending
      hs.applied_descending
  obtain ⟨entries⟩ := first
  obtain ⟨others⟩ := second
  exact congrArg mk (List.reverse_injective heq)

theorem merge_of_reshuffled (h : merge catalog = .ok table) (hr : catalog.Reshuffled other) :
    merge other = .ok table := by
  have hplaceholders := hr.placeholders_perm
  have hdistinct : DistinctNames other.definitions :=
    (distinctNames_iff_of_perm hplaceholders).mp ((exists_merge_eq_ok_iff catalog).mp ⟨table, h⟩)
  obtain ⟨found, hfound⟩ := (exists_merge_eq_ok_iff other).mpr hdistinct
  have hentries : (catalog.definitions.map (·.entry)).Perm (other.definitions.map (·.entry)) := by
    have hpairs := hplaceholders.map fun placeholder => (placeholder.name, placeholder.expression)
    rwa [List.map_map, List.map_map] at hpairs
  have hsame : table.applied.Perm found.applied :=
    (applied_perm_of_merge h).trans (hentries.trans (applied_perm_of_merge hfound).symm)
  rw [hfound, eq_of_applied_perm (ordered_of_merge h) (ordered_of_merge hfound) hsame]

theorem merge_eq_error_iff (error : CompileError) :
    merge catalog = .error error ↔
      ∃ before definition after, catalog.definitions = before ++ definition :: after ∧
        DistinctNames before ∧ definition.Refused before error := by
  refine ⟨refused_of_merge_eq_error catalog, ?_⟩
  rintro ⟨before, definition, after, heq, hbefore, hrefused⟩
  cases hmerge : merge catalog with
  | ok table =>
    have hdistinct := (exists_merge_eq_ok_iff catalog).mp ⟨table, hmerge⟩
    rw [heq] at hdistinct
    exact absurd hdistinct (not_distinctNames_of_refused hrefused)
  | error found =>
    obtain ⟨front, first, back, hsplit, hfront, hfirst⟩ := refused_of_merge_eq_error catalog hmerge
    obtain ⟨rfl, rfl⟩ := hrefused.first_unique hfirst hbefore hfront (heq.symm.trans hsplit)
    rw [hrefused.unique hbefore hfirst]

theorem merge_result (catalog : Catalog) :
    ((∃ table, merge catalog = .ok table) ↔ DistinctNames catalog.definitions) ∧
      (∀ table, merge catalog = .ok table →
        table.applied.Perm (catalog.definitions.map (·.entry)) ∧
        table.applied.Pairwise
          (fun earlier later => Text.bytes later.1 < Text.bytes earlier.1) ∧
        ∀ other : Catalog, catalog.Reshuffled other → merge other = .ok table) ∧
      ∀ error, merge catalog = .error error ↔
        ∃ before definition after, catalog.definitions = before ++ definition :: after ∧
          DistinctNames before ∧ definition.Refused before error := by
  refine ⟨exists_merge_eq_ok_iff catalog, ?_, merge_eq_error_iff⟩
  intro table h
  refine ⟨applied_perm_of_merge h, ?_, fun other => merge_of_reshuffled h⟩
  simp only [Text.bytes_lt_bytes_iff]
  exact (ordered_of_merge h).applied_descending

end PlaceholderTable

namespace Sample

def addressed : Catalog where
  modules := [
    { name := "Core", placeholders := [⟨"NS", "10.0.0.1"⟩, ⟨"ÑS", "10.0.0.9"⟩] },
    { name := "Net", placeholders := [⟨"NS_IP", "NS"⟩] }]
  distinct := by decide

def readdressed : Catalog where
  modules := [
    { name := "Net", placeholders := [⟨"NS_IP", "NS"⟩] },
    { name := "Core", placeholders := [⟨"ÑS", "10.0.0.9"⟩, ⟨"NS", "10.0.0.1"⟩] }]
  distinct := by decide

def clashing : Catalog where
  modules := [
    { name := "Core", placeholders := [⟨"VIP", "10.0.0.1"⟩, ⟨"NS", "10.0.0.2"⟩] },
    { name := "Net", placeholders := [⟨"NS", "10.0.0.3"⟩, ⟨"", "10.0.0.4"⟩, ⟨"VIP", ""⟩] }]
  distinct := by decide

theorem reshuffled_addressed : addressed.Reshuffled readdressed := by
  refine ⟨[⟨"Net", none, [], [⟨"NS_IP", "NS"⟩], []⟩,
    ⟨"Core", none, [], [⟨"NS", "10.0.0.1"⟩, ⟨"ÑS", "10.0.0.9"⟩], []⟩], .swap .., ?_⟩
  exact .cons (.refl _) (.cons (.swap ..) .nil)

end Sample

namespace PlaceholderTable

theorem sample_addresses_merged :
    merge Sample.addressed = .ok ⟨[("NS", "10.0.0.1"), ("NS_IP", "NS"), ("ÑS", "10.0.0.9")]⟩ ∧
      Sample.addressed.Reshuffled Sample.readdressed ∧
      merge Sample.readdressed =
        .ok ⟨[("NS", "10.0.0.1"), ("NS_IP", "NS"), ("ÑS", "10.0.0.9")]⟩ ∧
      merge Sample.clashing = .error (.duplicatePlaceholder "NS" "Core" "Net") := by
  have hmerge : merge Sample.addressed =
      .ok ⟨[("NS", "10.0.0.1"), ("NS_IP", "NS"), ("ÑS", "10.0.0.9")]⟩ := by cbv
  have hfirst : DistinctNames [⟨"Core", ⟨"VIP", "10.0.0.1"⟩⟩, ⟨"Core", ⟨"NS", "10.0.0.2"⟩⟩] := by
    simp [DistinctNames]
  refine ⟨hmerge, Sample.reshuffled_addressed, ?_, ?_⟩
  · exact ((merge_result Sample.addressed).2.1 _ hmerge).2.2 _ Sample.reshuffled_addressed
  · have hrefused : (⟨"Net", ⟨"NS", "10.0.0.3"⟩⟩ : Definition).Refused
        [⟨"Core", ⟨"VIP", "10.0.0.1"⟩⟩, ⟨"Core", ⟨"NS", "10.0.0.2"⟩⟩]
        (.duplicatePlaceholder "NS" "Core" "Net") :=
      .repeated (by decide) (List.mem_cons_of_mem _ List.mem_cons_self) rfl
    exact ((merge_result Sample.clashing).2.2 _).mpr ⟨_, _, _, rfl, hfirst, hrefused⟩

end PlaceholderTable

end ApplianceScript
