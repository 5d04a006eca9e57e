import ApplianceScript.Proofs.ByteOrder
import ApplianceScript.Proofs.DiskLookup
import ApplianceScript.Proofs.LibraryFiles
import ApplianceScript.Proofs.Lists
import Mathlib.Algebra.Order.BigOperators.Group.List

/-!
Walks through directory trees.

A walk takes the names in a directory in the order of their bytes and goes into every directory
where it meets it. It comes to the locations in the order of their lists of names, so `below`,
which sorts by these lists, is the walk.
-/

namespace ApplianceScript

namespace Disk

structure IsTree (disk : Disk) : Prop where
  distinct : (disk.entries.map (·.1)).Nodup
  closed : ∀ found ∈ disk.entries, disk.hasDirectory found.1.dropLast = true

variable {disk : Disk} {directory location names : Location} {name : String} {entry : Entry}

theorem IsTree.lookup_iff (tree : disk.IsTree) (hne : location ≠ []) :
    disk.lookup location = some entry ↔ (location, entry) ∈ disk.entries := by
  rw [lookup_of_ne_nil hne, lookup_eq_some_iff tree.distinct]

theorem IsTree.hasDirectory_dropLast (tree : disk.IsTree) (hne : location ≠ [])
    (h : disk.lookup location = some entry) : disk.hasDirectory location.dropLast = true :=
  tree.closed _ ((tree.lookup_iff hne).mp h)

theorem IsTree.hasDirectory_of_append (tree : disk.IsTree) (hne : names ≠ [])
    (h : disk.lookup (location ++ names) = some entry) : disk.hasDirectory location = true := by
  induction names using List.reverseRecOn generalizing entry with
  | nil => exact absurd rfl hne
  | append_singleton front last ih =>
    have hd := tree.hasDirectory_dropLast (by simp) h
    rw [← List.append_assoc, List.dropLast_concat] at hd
    cases front with
    | nil => rwa [List.append_nil] at hd
    | cons first front => exact ih (by simp) (hasDirectory_iff.mp hd)

theorem IsTree.lookup_cons (tree : disk.IsTree)
    (h : disk.lookup (directory ++ name :: names) = some entry) :
    ∃ found, disk.lookup (directory ++ [name]) = some found := by
  rw [List.append_cons] at h
  cases names with
  | nil => exact ⟨entry, by simpa using h⟩
  | cons next names => exact ⟨_, hasDirectory_iff.mp (tree.hasDirectory_of_append (by simp) h)⟩

theorem inside?_eq_some_iff {found : Location × Entry} :
    inside? directory found = some (names, entry) ↔
      names ≠ [] ∧ found = (directory ++ names, entry) := by
  obtain ⟨location, held⟩ := found
  simp only [inside?, gt_iff_lt, Bool.and_eq_true, decide_eq_true_eq, List.isPrefixOf_iff_prefix]
  constructor
  · intro h
    split_ifs at h with hc
    obtain ⟨⟨rest, rfl⟩, hlength⟩ := hc
    rw [List.drop_left, Option.some.injEq, Prod.mk.injEq] at h
    obtain ⟨rfl, rfl⟩ := h
    refine ⟨?_, rfl⟩
    rintro rfl
    simp at hlength
  · rintro ⟨hne, h⟩
    obtain ⟨rfl, rfl⟩ := Prod.mk.inj h
    rw [if_pos ⟨List.prefix_append _ _, by simpa using List.length_pos_iff.mpr hne⟩,
      List.drop_left]

theorem IsTree.mem_below_iff (tree : disk.IsTree) :
    (names, entry) ∈ disk.below directory ↔
      names ≠ [] ∧ disk.lookup (directory ++ names) = some entry := by
  rw [below_eq, List.mem_mergeSort, List.mem_filterMap]
  simp only [inside?_eq_some_iff]
  constructor
  · rintro ⟨_, hm, hne, rfl⟩
    exact ⟨hne, (tree.lookup_iff (by simp [hne])).mpr hm⟩
  · rintro ⟨hne, h⟩
    exact ⟨_, (tree.lookup_iff (by simp [hne])).mp h, hne, rfl⟩

theorem IsTree.pairwise_below (tree : disk.IsTree) (directory : Location) :
    (disk.below directory).Pairwise fun a b => a.1 < b.1 := by
  have hinside : ((disk.entries.filterMap (inside? directory)).Pairwise fun a b => a.1 ≠ b.1) := by
    rw [List.pairwise_filterMap]
    apply (List.pairwise_map.mp tree.distinct).imp
    rintro found other hne ⟨names, entry⟩ hn ⟨_, _⟩ ho rfl
    rw [inside?_eq_some_iff] at hn ho
    exact hne (by rw [hn.2, ho.2])
  have hdistinct : (disk.below directory).Pairwise fun a b => a.1 ≠ b.1 :=
    (List.mergeSort_perm _ walksFirst).symm.pairwise hinside fun h => h.symm
  have hsorted : (disk.below directory).Pairwise fun a b => walksFirst a b = true :=
    List.pairwise_mergeSort walksFirst_trans walksFirst_total _
  apply (hsorted.and hdistinct).imp
  rintro a b ⟨hab, hne⟩
  rw [walksFirst_iff, not_lt] at hab
  exact lt_of_le_of_ne hab hne

structure Lists (disk : Disk) (directory : Location) (names : List String) : Prop where
  ascending : names.Pairwise fun a b => Text.bytes a < Text.bytes b
  mem_iff : ∀ name, name ∈ names ↔ ∃ entry, disk.lookup (directory ++ [name]) = some entry

/-- Goes through names in a directory one after the other, and through all that is below each. -/
inductive Walk (disk : Disk) : Location → List String → List (Location × Entry) → Prop
  | done {directory : Location} : Walk disk directory [] []
  | file {directory : Location} {name : String} {names : List String} {content : ByteArray}
      {rest : List (Location × Entry)} :
      disk.lookup (directory ++ [name]) = some (.file content) →
      Walk disk directory names rest →
      Walk disk directory (name :: names) ((directory ++ [name], .file content) :: rest)
  | directory {directory : Location} {name : String} {names held : List String}
      {inner rest : List (Location × Entry)} :
      disk.lookup (directory ++ [name]) = some .directory →
      Lists disk (directory ++ [name]) held →
      Walk disk (directory ++ [name]) held inner →
      Walk disk directory names rest →
      Walk disk directory (name :: names) ((directory ++ [name], .directory) :: (inner ++ rest))

def Walks (disk : Disk) (directory : Location) (visited : List (Location × Entry)) : Prop :=
  ∃ names, Lists disk directory names ∧ Walk disk directory names visited

variable {visited : List (Location × Entry)}

theorem Walk.mem_iff (tree : disk.IsTree) {taken : List String}
    (h : Walk disk directory taken visited) :
    (location, entry) ∈ visited ↔ ∃ name ∈ taken, ∃ more, location = directory ++ name :: more ∧
      disk.lookup location = some entry := by
  induction h with
  | done => simp
  | @file directory name taken content rest hfile _ ih =>
    rw [List.mem_cons, ih, List.exists_mem_cons_iff]
    apply or_congr_left
    constructor
    · intro h
      obtain ⟨rfl, rfl⟩ := Prod.mk.inj h
      exact ⟨[], rfl, hfile⟩
    · rintro ⟨more, rfl, h⟩
      cases more with
      | nil => rw [Option.some.inj (hfile.symm.trans h)]
      | cons next more =>
        rw [List.append_cons] at h
        have hd := tree.hasDirectory_of_append (by simp) h
        rw [hasDirectory_iff, hfile] at hd
        cases hd
  | @directory directory name taken held inner rest hdirectory hlists _ _ ihInner ihRest =>
    rw [List.mem_cons, List.mem_append, ihInner, ihRest, List.exists_mem_cons_iff, ← or_assoc]
    apply or_congr_left
    constructor
    · rintro (h | ⟨next, _, more, rfl, h⟩)
      · obtain ⟨rfl, rfl⟩ := Prod.mk.inj h
        exact ⟨[], rfl, hdirectory⟩
      · exact ⟨next :: more, by simp, h⟩
    · rintro ⟨more, rfl, h⟩
      cases more with
      | nil => exact .inl (by rw [Option.some.inj (hdirectory.symm.trans h)])
      | cons next more =>
        rw [List.append_cons] at h
        exact .inr ⟨next, (hlists.mem_iff next).mpr (tree.lookup_cons h), more,
          List.append_cons .., by rwa [List.append_cons]⟩

theorem Walk.exists_name (tree : disk.IsTree) {taken : List String}
    (h : Walk disk directory taken visited) {found : Location × Entry} (hm : found ∈ visited) :
    ∃ name ∈ taken, ∃ more, found.1 = directory ++ name :: more := by
  obtain ⟨name, hname, more, hmore, _⟩ := (h.mem_iff tree).mp hm
  exact ⟨name, hname, more, hmore⟩

theorem append_cons_lt_append_cons {first second : String} (h : first < second)
    (more rest : List String) : directory ++ first :: more < directory ++ second :: rest :=
  List.append_left_lt (List.cons_lt_cons_iff.mpr (.inl h))

theorem Lists.pairwise (lists : Lists disk directory names) : names.Pairwise (· < ·) :=
  lists.ascending.imp fun h => (Text.bytes_lt_bytes_iff _ _).mp h

theorem Walk.pairwise (tree : disk.IsTree) {taken : List String}
    (h : Walk disk directory taken visited) (ascending : taken.Pairwise (· < ·)) :
    visited.Pairwise fun a b => a.1 < b.1 := by
  induction h with
  | done => exact .nil
  | @file directory name taken content rest _ walk ih =>
    obtain ⟨hname, htaken⟩ := List.pairwise_cons.mp ascending
    refine List.pairwise_cons.mpr ⟨fun found hm => ?_, ih htaken⟩
    obtain ⟨other, hother, more, hmore⟩ := walk.exists_name tree hm
    rw [hmore]
    exact append_cons_lt_append_cons (hname other hother) [] more
  | @directory directory name taken held inner rest _ lists walkInner walkRest ihInner ihRest =>
    obtain ⟨hname, htaken⟩ := List.pairwise_cons.mp ascending
    have hlater : ∀ found ∈ rest, ∀ more, directory ++ name :: more < found.1 := by
      intro found hm more
      obtain ⟨other, hother, rest, hrest⟩ := walkRest.exists_name tree hm
      rw [hrest]
      exact append_cons_lt_append_cons (hname other hother) more rest
    refine List.pairwise_cons.mpr ⟨fun found hm => ?_, List.pairwise_append.mpr
      ⟨ihInner lists.pairwise, ihRest htaken, fun found hm later hlm => ?_⟩⟩
    · rcases List.mem_append.mp hm with hm | hm
      · obtain ⟨next, _, more, hmore⟩ := walkInner.exists_name tree hm
        rw [hmore, List.append_assoc]
        exact List.append_left_lt (List.cons_lt_cons_iff.mpr (.inr ⟨rfl, List.nil_lt_cons _ _⟩))
      · exact hlater found hm []
    · obtain ⟨next, _, more, hmore⟩ := walkInner.exists_name tree hm
      rw [hmore, List.append_assoc]
      exact hlater later hlm (next :: more)

def single? : Location × Entry → Option String
  | ([name], _) => some name
  | _ => none

theorem single?_eq_some_iff {found : Location × Entry} :
    single? found = some name ↔ found.1 = [name] := by
  obtain ⟨names, entry⟩ := found
  match names with
  | [] => simp [single?]
  | [first] => simp [single?]
  | first :: second :: more => simp [single?]

theorem IsTree.exists_lists (tree : disk.IsTree) (directory : Location) :
    ∃ names, Lists disk directory names := by
  refine ⟨(disk.below directory).filterMap single?, ?_, fun name => ?_⟩
  · rw [List.pairwise_filterMap]
    apply (tree.pairwise_below directory).imp
    intro a b hab name hname other hother
    rw [single?_eq_some_iff.mp hname, single?_eq_some_iff.mp hother] at hab
    rw [Text.bytes_lt_bytes_iff]
    simpa [List.cons_lt_cons_iff] using hab
  · simp only [List.mem_filterMap, single?_eq_some_iff]
    constructor
    · rintro ⟨⟨_, entry⟩, hm, rfl⟩
      exact ⟨entry, (tree.mem_below_iff.mp hm).2⟩
    · rintro ⟨entry, h⟩
      exact ⟨([name], entry), tree.mem_below_iff.mpr ⟨by simp, h⟩, rfl⟩

theorem IsTree.exists_walk (tree : disk.IsTree) (depth : Nat) {taken : List String}
    (hdepth : ∀ found ∈ disk.entries, found.1.length ≤ directory.length + depth)
    (htaken : ∀ name ∈ taken, ∃ entry, disk.lookup (directory ++ [name]) = some entry) :
    ∃ visited, Walk disk directory taken visited := by
  -- A directory is walked at a lesser depth, the names beside it at the same one.
  induction depth generalizing directory taken with
  | zero =>
    cases taken with
    | nil => exact ⟨[], .done⟩
    | cons name taken =>
      obtain ⟨entry, h⟩ := htaken name List.mem_cons_self
      have hlength := hdepth _ ((tree.lookup_iff (by simp)).mp h)
      simp at hlength
  | succ depth ih =>
    induction taken with
    | nil => exact ⟨[], .done⟩
    | cons name taken ihTaken =>
      obtain ⟨⟨entry, h⟩, hrest⟩ := List.forall_mem_cons.mp htaken
      obtain ⟨rest, walkRest⟩ := ihTaken hrest
      cases entry with
      | file content => exact ⟨_, .file h walkRest⟩
      | directory =>
        obtain ⟨held, lists⟩ := tree.exists_lists (directory ++ [name])
        have hdeeper : ∀ found ∈ disk.entries,
            found.1.length ≤ (directory ++ [name]).length + depth := by
          intro found hm
          have hlength := hdepth found hm
          rw [List.length_append, List.length_singleton]
          omega
        obtain ⟨inner, walkInner⟩ := ih hdeeper fun next => (lists.mem_iff next).mp
        exact ⟨_, .directory h lists walkInner walkRest⟩

theorem IsTree.walks_iff (tree : disk.IsTree) : disk.Walks directory visited ↔
    visited = (disk.below directory).map fun found => (directory ++ found.1, found.2) := by
  have hunique {visited : List (Location × Entry)} (h : disk.Walks directory visited) :
      visited = (disk.below directory).map fun found => (directory ++ found.1, found.2) := by
    obtain ⟨names, lists, walk⟩ := h
    refine eq_of_pairwise_of_mem_iff (r := fun a b : Location × Entry => a.1 < b.1)
      (fun a b hab => List.lt_asymm hab) (walk.pairwise tree lists.pairwise) ?_ ?_
    · rw [List.pairwise_map]
      exact (tree.pairwise_below directory).imp List.append_left_lt
    · rintro ⟨location, entry⟩
      rw [walk.mem_iff tree, List.mem_map]
      constructor
      · rintro ⟨name, _, more, rfl, h⟩
        exact ⟨(name :: more, entry), tree.mem_below_iff.mpr ⟨by simp, h⟩, rfl⟩
      · rintro ⟨⟨names, entry⟩, hm, heq⟩
        obtain ⟨hne, h⟩ := tree.mem_below_iff.mp hm
        obtain ⟨rfl, rfl⟩ := Prod.mk.inj heq
        obtain ⟨name, more, rfl⟩ := List.exists_cons_of_ne_nil hne
        exact ⟨name, (lists.mem_iff name).mpr (tree.lookup_cons h), more, rfl, h⟩
  refine ⟨hunique, ?_⟩
  rintro rfl
  have hdepth : ∀ found ∈ disk.entries, found.1.length ≤ directory.length +
      (disk.entries.map fun found => found.1.length).sum := by
    intro found hm
    have hle : found.1.length ≤ (disk.entries.map fun found => found.1.length).sum :=
      List.single_le_sum (by simp) _ (List.mem_map_of_mem hm)
    omega
  obtain ⟨names, lists⟩ := tree.exists_lists directory
  obtain ⟨visited, walk⟩ := tree.exists_walk _ hdepth fun name => (lists.mem_iff name).mp
  have hwalks : disk.Walks directory visited := ⟨names, lists, walk⟩
  rwa [← hunique hwalks]

end Disk

end ApplianceScript
