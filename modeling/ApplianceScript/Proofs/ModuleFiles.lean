import ApplianceScript.Proofs.DirectoryWalks

namespace ApplianceScript

theorem Path.extensionOf?_eq_some_iff {name extension : String} :
    extensionOf? name = some extension ↔
      '.' ∉ extension.toList ∧ ∃ stem, stem ≠ "" ∧ name = stem ++ "." ++ extension := by
  have hparts := List.takeWhile_append_dropWhile (p := (· ≠ '.')) (l := name.toList.reverse)
  constructor
  · intro h
    unfold extensionOf? at h
    simp only at h
    split at h <;> rename_i hback
    · rename_i last front
      obtain rfl := Option.some.inj h
      refine ⟨?_, String.ofList (last :: front).reverse, by simp, ?_⟩
      · intro hm
        rw [String.toList_ofList, List.mem_reverse] at hm
        simpa using List.mem_takeWhile_imp hm
      · rw [hback] at hparts
        generalize name.toList.reverse.takeWhile (· ≠ '.') = back at hparts
        apply String.toList_injective
        rw [← List.reverse_inj, ← hparts]
        simp
    · cases h
  · rintro ⟨hdot, stem, hstem, rfl⟩
    have hpos : ∀ c ∈ extension.toList.reverse, decide (c ≠ '.') = true := by
      intro c hc
      exact decide_eq_true fun heq => hdot (heq ▸ List.mem_reverse.mp hc)
    have hname : (stem ++ "." ++ extension).toList.reverse =
        extension.toList.reverse ++ '.' :: stem.toList.reverse := by simp
    obtain ⟨last, front, hfront⟩ : ∃ last front, stem.toList.reverse = last :: front :=
      List.exists_cons_of_ne_nil (by simpa using hstem)
    rw [extensionOf?, hname, List.takeWhile_append_of_pos hpos, List.dropWhile_append_of_pos hpos,
      hfront]
    simp

def LibraryFile.under (searchPath : Path) (found : Location × ByteArray) : LibraryFile :=
  ⟨searchPath.join ⟨false, found.1⟩, found.2⟩

namespace Library

def Wanted (extensions : List String) (name : String) : Prop :=
  ∃ stem extension, stem ≠ "" ∧ '.' ∉ extension.toList ∧ name = stem ++ "." ++ extension ∧
    ∃ wanted ∈ extensions, wanted.toLower = extension.toLower

variable {disk : Disk} {directory names : Location} {extensions : List String} {name : String}

theorem hasExtension_iff : hasExtension extensions name = true ↔ Wanted extensions name := by
  unfold hasExtension Wanted
  cases hextension : Path.extensionOf? name with
  | none =>
    simp only [Bool.false_eq_true, false_iff]
    rintro ⟨stem, extension, hstem, hdot, hname, _⟩
    rw [Path.extensionOf?_eq_some_iff.mpr ⟨hdot, stem, hstem, hname⟩] at hextension
    cases hextension
  | some extension =>
    simp only [List.any_eq_true, beq_iff_eq]
    constructor
    · intro h
      obtain ⟨hdot, stem, hstem, hname⟩ := Path.extensionOf?_eq_some_iff.mp hextension
      exact ⟨stem, extension, hstem, hdot, hname, h⟩
    · rintro ⟨stem, found, hstem, hdot, hname, h⟩
      rw [Path.extensionOf?_eq_some_iff.mpr ⟨hdot, stem, hstem, hname⟩] at hextension
      obtain rfl := Option.some.inj hextension
      exact h

structure Considers (disk : Disk) (directory : Location) (extensions : List String)
    (found : List (Location × ByteArray)) : Prop where
  mem_iff : ∀ names content, (names, content) ∈ found ↔
    ∃ front name, names = front ++ [name] ∧ Wanted extensions name ∧
      disk.lookup (directory ++ names) = some (.file content)
  ascending : found.Pairwise fun a b => a.1.map Text.bytes < b.1.map Text.bytes
  walked : ∃ visited, disk.Walks directory visited ∧
    List.Sublist (found.map fun file => (directory ++ file.1, .file file.2)) visited

def content? : Location × Entry → Option (Location × ByteArray)
  | (names, .file content) => some (names, content)
  | (_, .directory) => none

theorem content?_eq_some_iff {found : Location × Entry} {content : ByteArray} :
    content? found = some (names, content) ↔ found = (names, .file content) := by
  obtain ⟨location, entry⟩ := found
  cases entry <;> simp [content?]

theorem sublist_of_filterMap_content? (directory : Location) (visited : List (Location × Entry)) :
    List.Sublist
      ((visited.filterMap content?).map fun file => (directory ++ file.1, Entry.file file.2))
      (visited.map fun found => (directory ++ found.1, found.2)) := by
  induction visited with
  | nil => exact .slnil
  | cons found visited ih =>
    rw [List.filterMap_cons, List.map_cons]
    cases h : content? found with
    | none => exact ih.cons _
    | some file =>
      obtain rfl := content?_eq_some_iff.mp h
      exact ih.cons_cons _

def considered (disk : Disk) (directory : Location) (extensions : List String) :
    List (Location × ByteArray) :=
  ((disk.below directory).filter (isModuleFile extensions)).filterMap content?

theorem files_eq_map (disk : Disk) (directory : Location) (searchPath : Path)
    (extensions : List String) :
    files disk directory searchPath extensions =
      (considered disk directory extensions).map (LibraryFile.under searchPath) := by
  rw [files_eq, considered, List.map_filterMap]
  congr 1
  funext found
  obtain ⟨names, entry⟩ := found
  cases entry <;> rfl

theorem considers_considered (tree : disk.IsTree) (directory : Location)
    (extensions : List String) :
    Considers disk directory extensions (considered disk directory extensions) := by
  refine ⟨fun names content => ?_, ?_, _, tree.walks_iff.mpr rfl, ?_⟩
  · rw [considered, List.mem_filterMap]
    simp only [content?_eq_some_iff, List.mem_filter, exists_eq_right, tree.mem_below_iff,
      isModuleFile, hasExtension_iff]
    constructor
    · rintro ⟨⟨hne, hlookup⟩, hwanted⟩
      obtain ⟨front, name, rfl⟩ := (List.eq_nil_or_concat names).resolve_left hne
      exact ⟨front, name, List.concat_eq_append, by simpa using hwanted, hlookup⟩
    · rintro ⟨front, name, rfl, hwanted, hlookup⟩
      exact ⟨⟨by simp, hlookup⟩, by simpa using hwanted⟩
  · rw [considered, List.pairwise_filterMap]
    apply ((tree.pairwise_below directory).filter _).imp
    rintro a b hab ⟨_, _⟩ ha ⟨_, _⟩ hb
    obtain rfl := content?_eq_some_iff.mp ha
    obtain rfl := content?_eq_some_iff.mp hb
    exact (Text.map_bytes_lt_iff _ _).mpr hab
  · exact (sublist_of_filterMap_content? directory _).trans (List.filter_sublist.map _)

variable {other : Disk} {place : Location} {found foundOther : List (Location × ByteArray)}

theorem Considers.eq_of_lookup_iff (considers : Considers disk directory extensions found)
    (considersOther : Considers other place extensions foundOther)
    (h : ∀ front name content, Wanted extensions name →
      (other.lookup (place ++ (front ++ [name])) = some (.file content) ↔
        disk.lookup (directory ++ (front ++ [name])) = some (.file content))) :
    foundOther = found := by
  refine eq_of_pairwise_of_mem_iff (fun a b hab => List.lt_asymm hab) considersOther.ascending
    considers.ascending ?_
  rintro ⟨names, content⟩
  rw [considersOther.mem_iff, considers.mem_iff]
  constructor
  · rintro ⟨front, name, rfl, hwanted, hlookup⟩
    exact ⟨front, name, rfl, hwanted, (h front name content hwanted).mp hlookup⟩
  · rintro ⟨front, name, rfl, hwanted, hlookup⟩
    exact ⟨front, name, rfl, hwanted, (h front name content hwanted).mpr hlookup⟩

end Library

end ApplianceScript
