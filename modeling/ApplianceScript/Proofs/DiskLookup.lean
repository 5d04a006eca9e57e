import ApplianceScript.Disk.Staging
import Mathlib.Data.List.Basic

namespace ApplianceScript

namespace Disk

variable {disk : Disk} {location other : Location} {entry : Entry}

theorem decodeText_toUTF8 (text : String) : decodeText text.toUTF8 = .ok text := by
  unfold decodeText String.fromUTF8?
  rw [String.toUTF8_eq_toByteArray, dif_pos text.isValidUTF8]
  rfl

theorem decodeText_eq_ok_iff {content : ByteArray} {text : String} :
    decodeText content = .ok text ↔ content = text.toUTF8 := by
  constructor
  · intro h
    unfold decodeText at h
    cases hread : String.fromUTF8? content with
    | none => simp [hread] at h
    | some found =>
      obtain rfl : found = text := by simpa [hread] using h
      unfold String.fromUTF8? at hread
      split_ifs at hread
      obtain rfl := Option.some.inj hread
      rfl
  · rintro rfl
    exact decodeText_toUTF8 text

theorem decodeText_eq_error_iff {content : ByteArray} {kind : IoErrorKind} :
    decodeText content = .error kind ↔
      (∀ text : String, content ≠ text.toUTF8) ∧ kind = .invalidData := by
  constructor
  · intro h
    constructor
    · rintro text rfl
      rw [decodeText_toUTF8] at h
      cases h
    · unfold decodeText at h
      split at h
      · cases h
      · exact (Except.error.inj h).symm
  · rintro ⟨hno, rfl⟩
    cases h : decodeText content with
    | ok text => exact absurd (decodeText_eq_ok_iff.mp h) (hno text)
    | error kind =>
      unfold decodeText at h
      split at h
      · cases h
      · exact h.symm

theorem lookup_of_ne_nil (hl : location ≠ []) :
    disk.lookup location = disk.entries.lookup location := by
  simp [lookup, hl]

theorem entries_lookup_filter_ne (entries : List (Location × Entry)) (location other : Location) :
    (entries.filter (·.1 ≠ location)).lookup other =
      if other = location then none else entries.lookup other := by
  induction entries with
  | nil => simp
  | cons head rest ih =>
    obtain ⟨key, value⟩ := head
    by_cases hk : key = location
    · subst hk
      rw [List.filter_cons_of_neg (by simp), ih]
      by_cases ho : other = key
      · simp [ho]
      · simp [ho, List.lookup_cons, beq_false_of_ne ho]
    · rw [List.filter_cons_of_pos (by simpa using hk), List.lookup_cons, List.lookup_cons, ih]
      by_cases ho : other = location
      · simp [ho, beq_false_of_ne (Ne.symm hk)]
      · simp [ho]

theorem lookup_erase (hl : location ≠ []) :
    (disk.erase location).lookup other =
      if other = location then none else disk.lookup other := by
  by_cases ho : other = []
  · subst ho
    simp [lookup, Ne.symm hl]
  · rw [lookup_of_ne_nil ho, lookup_of_ne_nil ho, erase, entries_lookup_filter_ne]

theorem lookup_insert (hl : location ≠ []) :
    (disk.insert location entry).lookup other =
      if other = location then some entry else disk.lookup other := by
  by_cases ho : other = []
  · subst ho
    simp [lookup, Ne.symm hl]
  · have herase : (disk.erase location).lookup other =
        if other = location then none else disk.lookup other := lookup_erase hl
    rw [lookup_of_ne_nil ho] at herase ⊢
    rw [insert, List.lookup_append, herase, List.lookup_cons]
    by_cases he : other = location
    · simp [he]
    · simp [he, beq_false_of_ne he]

theorem lookup_discard {staged : List Staged} (hl : ∀ s ∈ staged, s.location ≠ []) :
    (disk.discard staged).lookup other =
      if other ∈ staged.map (·.location) then none else disk.lookup other := by
  induction staged generalizing disk with
  | nil => simp [discard]
  | cons s rest ih =>
    have hrest : ∀ r ∈ rest, r.location ≠ [] := fun r hr => hl r (List.mem_cons_of_mem s hr)
    rw [discard, List.foldl_cons, ← discard, ih hrest, lookup_erase (hl s List.mem_cons_self)]
    by_cases hs : other = s.location
    · simp [hs]
    · simp [hs]

theorem hasDirectory_iff : disk.hasDirectory location = true ↔
    disk.lookup location = some .directory := by
  unfold hasDirectory
  split <;> rename_i h
  · simp [h]
  · simpa using h

theorem hasDirectory_of_follow {pieces : List String} (hf : disk.follow location pieces = .ok other)
    (ho : disk.hasDirectory other = true) : disk.hasDirectory location = true := by
  cases pieces with
  | nil =>
    obtain rfl := Except.ok.inj hf
    exact ho
  | cons piece rest =>
    by_contra hn
    rw [Bool.not_eq_true] at hn
    simp [follow, hn] at hf

structure Plain (name : String) : Prop where
  ne_empty : name ≠ ""
  ne_dot : name ≠ "."
  ne_dots : name ≠ ".."
  short : name.utf8ByteSize ≤ longestName

theorem follow_name {name : String} (hn : Plain name)
    (hd : disk.hasDirectory location = true) :
    disk.follow location [name] = match disk.lookup (location ++ [name]) with
      | some _ => .ok (location ++ [name])
      | none => .error .notFound := by
  cases hlookup : disk.lookup (location ++ [name]) <;>
    simp only [follow, hd, hn.ne_empty, hn.ne_dot, hn.ne_dots, Nat.not_lt.mpr hn.short, hlookup,
      Bool.not_true, Bool.false_eq_true, decide_false, Bool.or_self, if_false]

theorem follow_idle {pieces : List String} (hidle : ∀ piece ∈ pieces, piece = "" ∨ piece = ".")
    (hd : disk.hasDirectory location = true) : disk.follow location pieces = .ok location := by
  induction pieces with
  | nil => rfl
  | cons piece rest ih =>
    obtain ⟨hpiece, hrest⟩ := List.forall_mem_cons.mp hidle
    simp [follow, hd, hpiece, ih hrest]

theorem find_of_locate {path : Path} (hl : disk.locate path = .ok location)
    (he : disk.lookup location = some entry) : disk.find path = .ok entry := by
  unfold find
  rw [hl]
  simp [bind, Except.bind, he, pure, Except.pure]

theorem locate_eq_ok_iff {path : Path} : disk.locate path = .ok location ↔
    path.isEmpty = false ∧ disk.follow (disk.origin path) path.pieces = .ok location := by
  unfold locate
  cases path.isEmpty <;> simp

theorem isDirectory_iff {path : Path} : disk.isDirectory path = true ↔
    ∃ directory, disk.locate path = .ok directory ∧ disk.hasDirectory directory = true := by
  unfold isDirectory find hasDirectory
  cases disk.locate path with
  | error kind => simp [bind, Except.bind]
  | ok directory =>
    simp only [bind, Except.bind, Except.ok.injEq, exists_eq_left']
    cases disk.lookup directory with
    | none => simp
    | some entry => cases entry <;> simp [pure, Except.pure]

theorem target_eq_name_iff {path : Path} {directory : Location} {name : String} :
    disk.target path = .ok (.name directory name) ↔
      path.isEmpty = false ∧ ∃ before, splitLast path = some (before, name) ∧
        disk.follow (disk.origin path) before = .ok directory ∧
        disk.hasDirectory directory = true ∧
        name ≠ "." ∧ name ≠ ".." ∧ name.utf8ByteSize ≤ longestName := by
  unfold target
  cases hempty : path.isEmpty with
  | true => simp
  | false =>
    cases hsplit : splitLast path with
    | none => simp [pure, Except.pure]
    | some parts =>
      obtain ⟨before, last⟩ := parts
      cases hf : disk.follow (disk.origin path) before with
      | error kind => simp [hf, bind, Except.bind]
      | ok found =>
        simp only [hf, bind, Except.bind, Bool.false_eq_true, if_false, pure, Except.pure]
        split_ifs with hfound hfixed hlong
        · grind
        · grind
        · grind
        · grind

section Leads

variable {larger : Disk} (hd : ∀ l, disk.hasDirectory l = true → larger.hasDirectory l = true)

include hd

theorem follow_of_hasDirectory {pieces : List String}
    (hf : disk.follow location pieces = .ok other) (ho : disk.hasDirectory other = true) :
    larger.follow location pieces = .ok other := by
  induction pieces generalizing location with
  | nil => exact hf
  | cons piece rest ih =>
    have hl := hasDirectory_of_follow hf ho
    unfold follow at hf ⊢
    simp only [hl, hd location hl, Bool.not_true, Bool.false_eq_true, if_false] at hf ⊢
    split_ifs at hf ⊢ with hstay hup hlong
    · exact ih hf
    · exact ih hf
    · cases hlookup : disk.lookup (location ++ [piece]) with
      | none => simp [hlookup] at hf
      | some found =>
        simp only [hlookup] at hf
        have hnext := hd _ (hasDirectory_of_follow hf ho)
        rw [hasDirectory_iff] at hnext
        simp only [hnext]
        exact ih hf

theorem target_of_hasDirectory (hc : larger.current = disk.current) {path : Path}
    {directory : Location} {name : String} (ht : disk.target path = .ok (.name directory name)) :
    larger.target path = .ok (.name directory name) := by
  obtain ⟨hempty, before, hsplit, hf, hdirectory, hname⟩ := target_eq_name_iff.mp ht
  have horigin : larger.origin path = disk.origin path := by rw [origin, origin, hc]
  exact target_eq_name_iff.mpr ⟨hempty, before, hsplit,
    horigin ▸ follow_of_hasDirectory hd hf hdirectory, hd directory hdirectory, hname⟩

end Leads

end Disk

end ApplianceScript
