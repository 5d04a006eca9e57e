import ApplianceScript.Proofs.ByteOrder
import ApplianceScript.Proofs.LongerMarkers
import ApplianceScript.Proofs.Resolution

namespace ApplianceScript

namespace PlaceholderTable

variable {table : PlaceholderTable} {passes more : Nat} {line : String}

theorem hasMarker_eq_false_iff (table : PlaceholderTable) (line : String) :
    table.hasMarker line = false ↔ ∀ name ∈ table.names, Text.occurs name line = false := by
  simp only [hasMarker, List.any_eq_false, Bool.not_eq_true]

theorem hasMarker_of_occurs {name : String} (hn : name ∈ table.names)
    (ho : Text.occurs name line = true) : table.hasMarker line = true :=
  List.any_eq_true.mpr ⟨name, hn, ho⟩

theorem settleLine_of_hasMarker (passes : Nat) (hm : table.hasMarker line = true) :
    table.settleLine (passes + 1) line = table.settleLine passes (table.pass line) := by
  rw [settleLine, if_pos hm]

theorem settleLine_eq_iterate (h : table.hasMarker (table.settleLine passes line) = true) :
    table.settleLine passes line = table.pass^[passes] line := by
  induction passes generalizing line with
  | zero => rfl
  | succ passes ih =>
    cases hm : table.hasMarker line with
    | true =>
      rw [settleLine_of_hasMarker passes hm] at h ⊢
      rw [ih h, Function.iterate_succ_apply]
    | false =>
      rw [table.settleLine_of_not_hasMarker (passes + 1) hm, hm] at h
      cases h

theorem settleLine_of_le (hle : passes ≤ more)
    (h : table.hasMarker (table.settleLine passes line) = false) :
    table.settleLine more line = table.settleLine passes line := by
  induction passes generalizing more line with
  | zero => exact table.settleLine_of_not_hasMarker more h
  | succ passes ih =>
    cases hm : table.hasMarker line with
    | true =>
      obtain ⟨more, rfl⟩ := Nat.exists_eq_add_one_of_ne_zero (Nat.ne_zero_of_lt hle)
      rw [settleLine_of_hasMarker passes hm] at h
      rw [settleLine_of_hasMarker passes hm, settleLine_of_hasMarker more hm,
        ih (Nat.le_of_succ_le_succ hle) h]
    | false =>
      rw [table.settleLine_of_not_hasMarker more hm,
        table.settleLine_of_not_hasMarker (passes + 1) hm]

theorem mem_remaining_iff (table : PlaceholderTable) (name : String) (lines : List String) :
    name ∈ table.remaining lines ↔
      name ∈ table.names ∧ ∃ line ∈ lines, Text.occurs name line = true := by
  rw [remaining, List.mem_filter, List.any_eq_true]

theorem Ordered.pairwise_names (ho : table.Ordered) : table.names.Pairwise (· < ·) :=
  List.pairwise_map.mpr ho.ascending

theorem Ordered.ne_empty (ho : table.Ordered) : ∀ name ∈ table.names, name ≠ "" :=
  List.forall_mem_map.mpr ho.named

theorem exists_unresolved_singleton_iff (table : PlaceholderTable) (passes : Nat)
    (line : String) :
    (∃ error, table.resolveWithin passes [line] = .error error) ↔
      table.hasMarker (table.settleLine passes line) = true := by
  simp only [resolveWithin_eq_error_iff, List.mem_singleton, exists_eq_left, exists_eq,
    exists_and_left, and_true]

theorem resolveWithin_each {catalog : Catalog} {table : PlaceholderTable}
    (merged : merge catalog = .ok table) (passes : Nat) (lines : List String) :
    ((∃ resolved, table.resolveWithin passes lines = .ok resolved) ↔
        ∀ line ∈ lines, ∃ resolved, table.resolveWithin passes [line] = .ok resolved) ∧
      (∀ resolved, table.resolveWithin passes lines = .ok resolved →
        List.Forall₂ (fun line text => table.resolveWithin passes [line] = .ok [text])
          lines resolved) ∧
      ∀ error, table.resolveWithin passes lines = .error error →
        ∃ markers, error = .unresolvedPlaceholders markers passes ∧
          markers.Pairwise (fun a b => Text.bytes a < Text.bytes b) ∧
          ∀ name, name ∈ markers ↔ name ∈ table.names ∧ ∃ line ∈ lines,
            (∃ fault, table.resolveWithin passes [line] = .error fault) ∧
              Text.occurs name (table.pass^[passes] line) = true := by
  refine ⟨?_, ?_, ?_⟩
  · simp only [resolveWithin_eq_ok_iff, exists_and_left, exists_eq, and_true,
      List.forall_mem_singleton]
  · intro resolved h
    obtain ⟨hclean, rfl⟩ := (table.resolveWithin_eq_ok_iff passes lines resolved).mp h
    rw [List.forall₂_map_right_iff, List.forall₂_same]
    intro line hline
    rw [resolveWithin_eq_ok_iff, List.forall_mem_singleton]
    exact ⟨hclean line hline, rfl⟩
  · intro error h
    obtain ⟨_, rfl⟩ := (table.resolveWithin_eq_error_iff passes lines error).mp h
    refine ⟨_, rfl, ?_, ?_⟩
    · simp only [Text.bytes_lt_bytes_iff]
      exact (ordered_of_merge merged).pairwise_names.filter _
    · intro name
      simp only [mem_remaining_iff, List.mem_map, exists_unresolved_singleton_iff]
      refine and_congr_right fun hname => ?_
      constructor
      · rintro ⟨_, ⟨line, hline, rfl⟩, ho⟩
        have hm := hasMarker_of_occurs hname ho
        rw [settleLine_eq_iterate hm] at ho
        exact ⟨line, hline, hm, ho⟩
      · rintro ⟨line, hline, hm, ho⟩
        rw [← settleLine_eq_iterate hm] at ho
        exact ⟨_, ⟨line, hline, rfl⟩, ho⟩

end PlaceholderTable

namespace Sample

def looping : Catalog where
  modules := [{
    name := "Core"
    version := some ⟨1, 0⟩
    placeholders := [⟨"VIP", "10.0.0.1"⟩, ⟨"LOOP", "x LOOP"⟩] }]
  distinct := by decide

def loopingTable : PlaceholderTable where
  entries := [("LOOP", "x LOOP"), ("VIP", "10.0.0.1")]

theorem merge_looping : PlaceholderTable.merge looping = .ok loopingTable := by cbv

theorem resolveWithin_looping : loopingTable.resolveWithin 2 ["add VIP", "LOOP"] =
    .error (.unresolvedPlaceholders ["LOOP"] 2) := by rfl

end Sample

namespace PlaceholderTable

theorem sample_loop_left_over :
    merge Sample.looping = .ok Sample.loopingTable ∧
      Sample.loopingTable.resolveWithin 2 ["add VIP", "LOOP"] =
        .error (.unresolvedPlaceholders ["LOOP"] 2) ∧
      ∃ markers, CompileError.unresolvedPlaceholders ["LOOP"] 2 =
          .unresolvedPlaceholders markers 2 ∧
        markers.Pairwise (fun a b => Text.bytes a < Text.bytes b) ∧
        ∀ name, name ∈ markers ↔ name ∈ Sample.loopingTable.names ∧ ∃ line ∈ ["add VIP", "LOOP"],
          (∃ fault, Sample.loopingTable.resolveWithin 2 [line] = .error fault) ∧
            Text.occurs name (Sample.loopingTable.pass^[2] line) = true :=
  ⟨Sample.merge_looping, Sample.resolveWithin_looping,
    (resolveWithin_each Sample.merge_looping 2 ["add VIP", "LOOP"]).2.2 _
      Sample.resolveWithin_looping⟩

theorem resolveWithin_eq_ok_map (table : PlaceholderTable) (passes : Nat) {lines : List String}
    {settled : String → String} (h : ∀ line ∈ lines,
      table.settleLine passes line = settled line ∧ table.hasMarker (settled line) = false) :
    table.resolveWithin passes lines = .ok (lines.map settled) := by
  rw [resolveWithin_eq_ok_iff]
  constructor
  · intro line hline
    rw [(h line hline).1]
    exact (h line hline).2
  · exact List.map_congr_left fun line hline => (h line hline).1.symm

theorem resolved_for_good {table : PlaceholderTable} {passes : Nat} {lines out : List String}
    (resolved : table.resolveWithin passes lines = .ok out) :
    out.length = lines.length ∧
      (∀ line ∈ out, ∀ name ∈ table.names, Text.occurs name line = false) ∧
      (∀ (index : Nat) (line : String), lines[index]? = some line →
        (∀ name ∈ table.names, Text.occurs name line = false) → out[index]? = some line) ∧
      (∀ budget, table.resolveWithin budget out = .ok out) ∧
      ∀ budget, passes ≤ budget → table.resolveWithin budget lines = .ok out := by
  obtain ⟨hclean, rfl⟩ := (table.resolveWithin_eq_ok_iff passes lines out).mp resolved
  have hout : ∀ line ∈ lines.map (table.settleLine passes), table.hasMarker line = false :=
    List.forall_mem_map.mpr hclean
  refine ⟨List.length_map _, ?_, ?_, ?_, ?_⟩
  · intro line hline
    exact (table.hasMarker_eq_false_iff line).mp (hout line hline)
  · intro index line hline hfree
    rw [← table.hasMarker_eq_false_iff] at hfree
    rw [List.getElem?_map, hline, Option.map_some, table.settleLine_of_not_hasMarker passes hfree]
  · intro budget
    have hsame := table.resolveWithin_eq_ok_map budget fun line hline =>
      ⟨table.settleLine_of_not_hasMarker budget (hout line hline), hout line hline⟩
    rwa [List.map_id'] at hsame
  · intro budget hle
    exact table.resolveWithin_eq_ok_map budget fun line hline =>
      ⟨settleLine_of_le hle (hclean line hline), hclean line hline⟩

theorem sample_resolved_in_one_pass :
    Sample.nestedTable.resolveWithin 1 ["add NS_A", "save"] = .ok ["add 10.0.0.1_IP", "save"] ∧
      Sample.nestedTable.resolveWithin 0 ["add 10.0.0.1_IP", "save"] =
        .ok ["add 10.0.0.1_IP", "save"] ∧
      Sample.nestedTable.resolveWithin 10 ["add NS_A", "save"] =
        .ok ["add 10.0.0.1_IP", "save"] := by
  have hresolved : Sample.nestedTable.resolveWithin 1 ["add NS_A", "save"] =
      .ok ["add 10.0.0.1_IP", "save"] := by rfl
  obtain ⟨_, _, _, hagain, hmore⟩ := resolved_for_good hresolved
  exact ⟨hresolved, hagain 0, hmore 10 (by decide)⟩

end PlaceholderTable

end ApplianceScript
