import ApplianceScript.Proofs.StagedFiles
import Mathlib.Data.List.Forall2

/-!
Two files that are replaced one after the other.

Both are staged before the first is replaced, but whether the second path can be replaced is seen
only after that. When it cannot, the first file stays replaced; nothing else is ever changed by a
write that fails.
-/

namespace ApplianceScript

namespace Disk

def Replaceable (disk : Disk) (path : Path) (location : Location) : Prop :=
  ∃ directory name, disk.target path = .ok (.name directory name) ∧
    location = directory ++ [name] ∧ path.pieces.getLast? ≠ some "" ∧
    disk.hasDirectory location = false

/-- Both files can be staged, and then the first path can be replaced but not the second. -/
def HalfWritable (disk : Disk) (first second : Path × ByteArray) (location : Location) : Prop :=
  ∃ staged ready, disk.stageAll 0 [first, second] = (.ok staged, ready) ∧
    ready.Replaceable first.1 location ∧ ∀ other, ¬ ready.Replaceable second.1 other

variable {disk moved : Disk} {staged : Staged} {location : Location}

theorem moveOver_eq_ok_iff :
    disk.moveOver staged = .ok moved ↔
      ∃ location entry, disk.Replaceable staged.path location ∧
        disk.lookup staged.location = some entry ∧
        moved = (disk.erase staged.location).insert location entry := by
  unfold moveOver Replaceable
  cases ht : disk.target staged.path with
  | error kind => simp [bind, Except.bind]
  | ok found =>
    cases found with
    | fixed => simp [bind, Except.bind]
    | name directory name =>
      simp only [bind, Except.bind, Except.ok.injEq, Target.name.injEq]
      by_cases hlast : staged.path.pieces.getLast? = some ""
      · rw [if_pos hlast]
        simp [hlast]
      · rw [if_neg hlast]
        cases hdirectory : disk.hasDirectory (directory ++ [name]) with
        | true =>
          rw [if_pos rfl]
          constructor
          · intro h
            cases h
          · rintro ⟨_, _, ⟨_, _, ⟨rfl, rfl⟩, rfl, _, hfree⟩, _⟩
            cases hdirectory.symm.trans hfree
        | false =>
          rw [if_neg Bool.false_ne_true]
          cases hentry : disk.lookup staged.location with
          | none => simp
          | some entry =>
            constructor
            · intro h
              exact ⟨_, entry, ⟨directory, name, ⟨rfl, rfl⟩, rfl, hlast, hdirectory⟩, rfl,
                (Except.ok.inj h).symm⟩
            · rintro ⟨_, _, ⟨_, _, ⟨rfl, rfl⟩, rfl, _, _⟩, hsome, rfl⟩
              obtain rfl := Option.some.inj hsome
              rfl

theorem Replaceable.ne_temporary {path : Path} (hp : path.Spelled)
    (h : disk.Replaceable path location) (directory : Location) (index : Nat) :
    location ≠ directory ++ [temporaryName index] := by
  obtain ⟨found, name, ht, rfl, _⟩ := h
  intro heq
  obtain ⟨_, rfl⟩ := List.append_singleton_inj.mp heq
  exact not_spelled_temporaryName index (spelled_of_target hp ht)

theorem Replaceable.exists_directory {path : Path} {before : List String} {name : String}
    (h : disk.Replaceable path location) (hs : splitLast path = some (before, name)) :
    ∃ directory, location = directory ++ [name] := by
  obtain ⟨directory, _, ht, hl, _⟩ := h
  obtain ⟨_, _, hsplit, _⟩ := target_eq_name_iff.mp ht
  cases hs.symm.trans hsplit
  exact ⟨directory, hl⟩

theorem Replaceable.unique {path : Path} {other : Location} (h : disk.Replaceable path location)
    (ho : disk.Replaceable path other) : location = other := by
  obtain ⟨_, _, ht, rfl, _⟩ := h
  obtain ⟨_, _, hto, rfl, _⟩ := ho
  rw [ht] at hto
  cases hto
  rfl

theorem Replaceable.ne_nil {path : Path} (h : disk.Replaceable path location) :
    location ≠ [] := by
  obtain ⟨_, _, _, rfl, _⟩ := h
  simp

theorem Replaceable.congr {other : Disk} (hc : other.current = disk.current)
    (hd : ∀ l, other.hasDirectory l = disk.hasDirectory l) {path : Path}
    (h : disk.Replaceable path location) : other.Replaceable path location := by
  obtain ⟨directory, name, ht, rfl, hlast, hfree⟩ := h
  refine ⟨directory, name, ?_, rfl, hlast, (hd _).trans hfree⟩
  exact target_of_hasDirectory (fun l hl => (hd l).trans hl) hc ht

section Moved

variable {temporary : Location} {content : ByteArray} {path : Path}
  (hr : disk.Replaceable path location) (hne : temporary ≠ [])

include hr hne

theorem lookup_moved (l : Location) :
    ((disk.erase temporary).insert location (.file content)).lookup l =
      if l = location then some (.file content) else if l = temporary then none
      else disk.lookup l := by
  rw [lookup_insert hr.ne_nil, lookup_erase hne]

theorem hasDirectory_moved (hfile : disk.lookup temporary = some (.file content)) (l : Location) :
    ((disk.erase temporary).insert location (.file content)).hasDirectory l =
      disk.hasDirectory l := by
  have hfree : disk.hasDirectory location = false := by
    obtain ⟨_, _, _, _, _, hfree⟩ := hr
    exact hfree
  rw [hasDirectory, lookup_moved hr hne]
  split_ifs with hl ht
  · rw [hl, hfree]
  · simp [ht, hasDirectory, hfile]
  · rfl

end Moved

theorem HalfWritable.unique {first second : Path × ByteArray} {other : Location}
    (h : disk.HalfWritable first second location) (ho : disk.HalfWritable first second other) :
    location = other := by
  obtain ⟨_, _, hstage, hr, _⟩ := h
  obtain ⟨_, _, hstageo, hro, _⟩ := ho
  rw [hstage] at hstageo
  cases hstageo
  exact hr.unique hro

section Pair

variable {first second : Path × ByteArray} {s t : Staged} {ready : Disk} {kind : IoErrorKind}
  (hstage : disk.stageAll 0 [first, second] = (.ok [s, t], ready))
  (hholds : Holds disk 0 [first, second] [s, t] ready)

include hstage hholds

theorem not_halfWritable_of_first (hmove : ready.moveOver s = .error kind) (location : Location) :
    ¬ disk.HalfWritable first second location := by
  rintro ⟨_, _, hok, hr, _⟩
  rw [hstage] at hok
  cases hok
  obtain ⟨⟨hpath, hfile⟩, _⟩ := List.forall₂_cons.mp hholds.files
  have := moveOver_eq_ok_iff.mpr ⟨location, _, hpath ▸ hr, hfile, rfl⟩
  cases hmove.symm.trans this

theorem halfWritable_of_second (hf : first.1.Spelled) (hmove : ready.moveOver s = .ok moved)
    (hagain : moved.moveOver t = .error kind) :
    ∃ location, disk.HalfWritable first second location ∧
      (moved.discard [t]).lookup location = some (.file first.2) ∧
      ∀ other ≠ location, disk.KeptAt (moved.discard [t]) other := by
  obtain ⟨⟨hspath, hsfile⟩, htail⟩ := List.forall₂_cons.mp hholds.files
  obtain ⟨⟨htpath, htfile⟩, _⟩ := List.forall₂_cons.mp htail
  have hsne := hholds.ne_nil s (by simp)
  have htne := hholds.ne_nil t (by simp)
  have hst : s.location ≠ t.location := by simpa using hholds.nodup
  obtain ⟨location, entry, hr, hentry, hmoved⟩ := moveOver_eq_ok_iff.mp hmove
  obtain rfl := Option.some.inj (hsfile.symm.trans hentry)
  have hlookup (l : Location) : moved.lookup l = if l = location then some (.file first.2)
      else if l = s.location then none else ready.lookup l := hmoved ▸ lookup_moved hr hsne l
  have hlt : t.location ≠ location := by
    obtain ⟨directory, j, _, htl⟩ := hholds.names t (by simp)
    rw [htl]
    exact (hr.ne_temporary (hspath ▸ hf) directory j).symm
  refine ⟨location, ⟨_, ready, hstage, hspath ▸ hr, ?_⟩, ?_, ?_⟩
  · -- The second file is still staged, so only its path can be the reason.
    intro other hsecond
    have htmoved : moved.lookup t.location = some (.file second.2) := by
      rw [hlookup, if_neg hlt, if_neg hst.symm, htfile]
    have hcurrent : moved.current = ready.current := by
      rw [hmoved]
      rfl
    have hsame (l : Location) : moved.hasDirectory l = ready.hasDirectory l :=
      hmoved ▸ hasDirectory_moved hr hsne hsfile l
    have hready : ready.Replaceable t.path other := htpath ▸ hsecond
    have hok := moveOver_eq_ok_iff.mpr ⟨other, _, hready.congr hcurrent hsame, htmoved, rfl⟩
    cases hagain.symm.trans hok
  · rw [discard, List.foldl_cons, List.foldl_nil, lookup_erase htne, if_neg hlt.symm, hlookup,
      if_pos rfl]
  · intro other hother
    have hafter : (moved.discard [t]).lookup other = (ready.discard [s, t]).lookup other := by
      rw [discard, List.foldl_cons, List.foldl_nil, lookup_erase htne, hlookup, if_neg hother,
        lookup_discard hholds.ne_nil]
      grind
    unfold KeptAt
    rw [hafter]
    exact hholds.added other

end Pair

theorem writeAll_pair_error {first second : Path × ByteArray} (hf : first.1.Spelled)
    (hs : second.1.Spelled) (hfresh : disk.FreshFrom 0) {failure : Failure} {after : Disk}
    (h : disk.writeAll [first, second] = (.error failure, after)) :
    (∃ location, disk.HalfWritable first second location ∧
        after.lookup location = some (.file first.2) ∧
        ∀ other ≠ location, disk.KeptAt after other) ∨
      ((∀ location, ¬ disk.HalfWritable first second location) ∧
        OnlyDirectoriesAdded disk after) := by
  have hspelled : ∀ file ∈ [first, second], file.1.Spelled := by simp [hf, hs]
  unfold writeAll at h
  rcases stageAll_spec hspelled hfresh with ⟨_, _, hstage, hgrows⟩ | ⟨staged, ready, hstage, hholds⟩
  · rw [hstage] at h
    obtain ⟨_, rfl⟩ := Prod.mk.inj h
    refine .inr ⟨?_, hgrows.added⟩
    rintro location ⟨_, _, hok, _⟩
    cases hstage.symm.trans hok
  · obtain ⟨s, _, _, htail, rfl⟩ := List.forall₂_cons_right_iff.mp hholds.files
    obtain ⟨t, _, _, hnil, rfl⟩ := List.forall₂_cons_right_iff.mp htail
    obtain rfl := List.forall₂_nil_right_iff.mp hnil
    simp only [hstage, moveAll] at h
    cases hmove : ready.moveOver s with
    | error kind =>
      simp only [hmove] at h
      obtain ⟨_, rfl⟩ := Prod.mk.inj h
      exact .inr ⟨not_halfWritable_of_first hstage hholds hmove, hholds.added⟩
    | ok moved =>
      simp only [hmove] at h
      cases hagain : moved.moveOver t with
      | ok _ => simp [hagain] at h
      | error kind =>
        simp only [hagain] at h
        obtain ⟨_, rfl⟩ := Prod.mk.inj h
        exact .inl (halfWritable_of_second hstage hholds hf hmove hagain)

end Disk

end ApplianceScript
