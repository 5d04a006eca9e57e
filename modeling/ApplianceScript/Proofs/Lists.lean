import Mathlib.Data.List.Induction
import Mathlib.Data.List.Nodup
import Mathlib.Data.List.TakeWhile

namespace ApplianceScript

theorem nodup_eraseDups (names : List String) : names.eraseDups.Nodup := by
  induction hn : names.length using Nat.strongRecOn generalizing names with
  | _ n ih =>
    cases names with
    | nil => simp
    | cons a rest =>
      rw [List.eraseDups_cons, List.nodup_cons]
      constructor
      · simp
      · have hl := List.length_filter_le (fun b => !b == a) rest
        rw [List.length_cons] at hn
        exact ih _ (by omega) _ rfl

theorem eraseDups_eq_self_of_nodup {names : List String} (hn : names.Nodup) :
    names.eraseDups = names := by
  induction names with
  | nil => simp
  | cons a rest ih =>
    obtain ⟨ha, hrest⟩ := List.nodup_cons.mp hn
    have hall : rest.filter (fun b => !b == a) = rest := by
      rw [List.filter_eq_self]
      intro b hb
      simp only [Bool.not_eq_true', beq_eq_false_iff_ne]
      rintro rfl
      exact ha hb
    rw [List.eraseDups_cons, hall, ih hrest]

theorem eraseDups_concat (names : List String) (name : String) :
    (names ++ [name]).eraseDups =
      if name ∈ names then names.eraseDups else names.eraseDups ++ [name] := by
  rw [List.eraseDups_append, List.removeAll, List.filter_singleton]
  by_cases h : name ∈ names <;> simp [h, List.eraseDups_cons]

theorem eraseDups_filter (p : String → Bool) (names : List String) :
    (names.filter p).eraseDups = names.eraseDups.filter p := by
  induction hn : names.length using Nat.strongRecOn generalizing names with
  | _ n ih =>
    cases names with
    | nil => simp
    | cons a rest =>
      have hl := List.length_filter_le (fun b => !b == a) rest
      rw [List.length_cons] at hn
      have hrest := ih _ (by omega) (rest.filter fun b => !b == a) rfl
      have hswap : (rest.filter fun b => !b == a).filter p =
          (rest.filter p).filter fun b => !b == a := by
        simp only [List.filter_filter, Bool.and_comm]
      rw [List.eraseDups_cons]
      by_cases ha : p a = true
      · rw [List.filter_cons_of_pos ha, List.eraseDups_cons, List.filter_cons_of_pos ha, ← hswap,
          hrest]
      · have hgone : (rest.filter p).filter (fun b => !b == a) = rest.filter p := by
          rw [List.filter_eq_self]
          intro b hb
          simp only [Bool.not_eq_true', beq_eq_false_iff_ne]
          rintro rfl
          exact ha (List.mem_filter.mp hb).2
        rw [List.filter_cons_of_neg ha, List.filter_cons_of_neg ha, ← hrest, hswap, hgone]

theorem idxOf_lt_of_idxOf_filter_lt {p : String → Bool} {names : List String} {a b : String}
    (ha : p a = true) (hb : p b = true)
    (h : (names.filter p).idxOf a < (names.filter p).idxOf b) : names.idxOf a < names.idxOf b := by
  induction names with
  | nil => simp at h
  | cons c rest ih =>
    by_cases hca : c = a
    · subst hca
      have hcb : c ≠ b := by
        rintro rfl
        omega
      rw [List.idxOf_cons_self, List.idxOf_cons_ne _ hcb]
      omega
    · by_cases hcb : c = b
      · subst hcb
        rw [List.filter_cons_of_pos hb, List.idxOf_cons_self] at h
        omega
      · rw [List.idxOf_cons_ne _ hca, List.idxOf_cons_ne _ hcb]
        apply Nat.succ_lt_succ
        apply ih
        by_cases hc : p c = true
        · rw [List.filter_cons_of_pos hc, List.idxOf_cons_ne _ hca, List.idxOf_cons_ne _ hcb] at h
          omega
        · rwa [List.filter_cons_of_neg hc] at h

theorem pairwise_idxOf_eraseDups (names : List String) :
    names.eraseDups.Pairwise fun a b => names.idxOf a < names.idxOf b := by
  induction hn : names.length using Nat.strongRecOn generalizing names with
  | _ n ih =>
    cases names with
    | nil => simp
    | cons a rest =>
      have hne {b : String} (hb : b ∈ (rest.filter fun b => !b == a).eraseDups) : a ≠ b := by
        rintro rfl
        simp at hb
      have hl := List.length_filter_le (fun b => !b == a) rest
      rw [List.length_cons] at hn
      rw [List.eraseDups_cons, List.pairwise_cons]
      constructor
      · intro b hb
        rw [List.idxOf_cons_self, List.idxOf_cons_ne _ (hne hb)]
        omega
      · apply (ih _ (by omega) _ rfl).imp_of_mem
        intro b c hb hc hbc
        rw [List.idxOf_cons_ne _ (hne hb), List.idxOf_cons_ne _ (hne hc)]
        apply Nat.succ_lt_succ
        apply idxOf_lt_of_idxOf_filter_lt _ _ hbc
        · simpa using (hne hb).symm
        · simpa using (hne hc).symm

theorem exists_first_repeat {α : Type} {key : α → String} {l : List α}
    (h : ¬ (l.map key).Nodup) : ∃ before a after, l = before ++ a :: after ∧
      (before.map key).Nodup ∧ key a ∈ before.map key := by
  induction l using List.reverseRecOn with
  | nil => exact absurd List.nodup_nil h
  | append_singleton l b ih =>
    by_cases hl : (l.map key).Nodup
    · refine ⟨l, b, [], rfl, hl, ?_⟩
      by_contra hb
      apply h
      rw [List.map_append]
      exact List.nodup_append.mpr ⟨hl, List.nodup_singleton _, by
        rintro _ ha _ hk rfl
        exact hb (List.mem_singleton.mp hk ▸ ha)⟩
    · obtain ⟨before, a, after, rfl, hbefore, ha⟩ := ih hl
      exact ⟨before, a, after ++ [b], by simp, hbefore, ha⟩

theorem idxOf_lt_of_pair_sublist {names : List String} (hn : names.Nodup) {a b : String}
    (h : List.Sublist [a, b] names) : names.idxOf a < names.idxOf b := by
  have hp := pairwise_idxOf_eraseDups names
  rw [eraseDups_eq_self_of_nodup hn] at hp
  exact List.pairwise_iff_forall_sublist.mp hp h

theorem idxOf?_append_cons {before after : List String} {name : String} (h : name ∉ before) :
    (before ++ name :: after).idxOf? name = some before.length := by
  rw [List.idxOf?_eq_some_iff]
  refine ⟨by simp, by simp, ?_⟩
  intro j hj
  rw [List.getElem_append_left hj]
  rintro rfl
  exact h (List.getElem_mem hj)

theorem lookup_map_self {α : Type} (f : String → α) (names : List String) (name : String) :
    (names.map fun name => (name, f name)).lookup name =
      if name ∈ names then some (f name) else none := by
  induction names with
  | nil => simp
  | cons a rest ih =>
    by_cases ha : name = a
    · subst ha
      simp
    · have hne : (name == a) = false := by simpa using ha
      simp [List.lookup_cons, hne, ih, ha]

theorem find?_key_eq_some_iff {α : Type} {key : α → String} {l : List α}
    (hn : (l.map key).Nodup) (name : String) (a : α) :
    l.find? (key · == name) = some a ↔ a ∈ l ∧ key a = name := by
  constructor
  · intro h
    exact ⟨List.mem_of_find?_eq_some h, by simpa using List.find?_some h⟩
  · rintro ⟨ha, rfl⟩
    cases hfound : l.find? (key · == key a) with
    | none =>
      have hne := List.find?_eq_none.mp hfound a ha
      simp at hne
    | some b =>
      have hkey : key b = key a := by simpa using List.find?_some hfound
      rw [List.inj_on_of_nodup_map hn (List.mem_of_find?_eq_some hfound) ha hkey]

theorem findRev?_key_eq_some_iff {α : Type} {key : α → String} {l : List α}
    (hn : (l.map key).Nodup) (name : String) (a : α) :
    l.findRev? (key · == name) = some a ↔ a ∈ l ∧ key a = name := by
  have hr : (l.reverse.map key).Nodup := by
    rw [List.map_reverse]
    exact List.nodup_reverse.mpr hn
  rw [List.findRev?_eq_find?_reverse, find?_key_eq_some_iff hr, List.mem_reverse]

theorem lookup_eq_some_iff {κ α : Type} [BEq κ] [LawfulBEq κ] {entries : List (κ × α)}
    (hn : (entries.map (·.1)).Nodup) (name : κ) (a : α) :
    entries.lookup name = some a ↔ (name, a) ∈ entries := by
  induction entries with
  | nil => simp
  | cons entry rest ih =>
    obtain ⟨hfresh, hrest⟩ := List.nodup_cons.mp hn
    obtain ⟨key, value⟩ := entry
    rw [List.lookup_cons, List.mem_cons]
    by_cases hk : name = key
    · subst hk
      have hnot : (name, a) ∉ rest := by
        intro h
        exact hfresh (List.mem_map.mpr ⟨(name, a), h, rfl⟩)
      simp [hnot, eq_comm]
    · have hne : (name == key) = false := by simpa using hk
      simp [hk, hne, ih hrest]

theorem zipIdx_eq_map_idxOf {names : List String} (hn : names.Nodup) :
    names.zipIdx = names.map fun name => (name, names.idxOf name) := by
  apply List.ext_getElem
  · simp
  · intro i _ _
    simp [hn.idxOf_getElem]

theorem idxOf_lt_idxOf_iff {before after : List String} {name : String}
    (hn : (before ++ name :: after).Nodup) (other : String) :
    (before ++ name :: after).idxOf other < (before ++ name :: after).idxOf name ↔
      other ∈ before := by
  have hname : name ∉ before := by
    intro hmem
    exact (List.nodup_append.mp hn).2.2 name hmem name List.mem_cons_self rfl
  rw [List.idxOf_append_of_notMem hname, List.idxOf_cons_self, Nat.add_zero]
  constructor
  · intro hlt
    by_contra hother
    rw [List.idxOf_append_of_notMem hother] at hlt
    omega
  · intro hother
    rw [List.idxOf_append_of_mem hother]
    exact List.idxOf_lt_length_of_mem hother

theorem flatMap_filter_of_nil {α β : Type} {p : α → Bool} {f : α → List β} {l : List α}
    (h : ∀ a ∈ l, p a = false → f a = []) : (l.filter p).flatMap f = l.flatMap f := by
  induction l with
  | nil => rfl
  | cons a l ih =>
    obtain ⟨ha, hl⟩ := List.forall_mem_cons.mp h
    cases hp : p a with
    | true => rw [List.filter_cons_of_pos hp, List.flatMap_cons, List.flatMap_cons, ih hl]
    | false =>
      rw [List.filter_cons_of_neg (by simp [hp]), List.flatMap_cons, ha hp, List.nil_append, ih hl]

theorem pair_sublist_of_pairwise {α : Type} {r : α → α → Prop} {l : List α} {a b : α}
    (hl : l.Pairwise r) (ha : a ∈ l) (hb : b ∈ l) (hne : a ≠ b) (hr : ¬ r a b) :
    List.Sublist [b, a] l := by
  induction l with
  | nil => cases ha
  | cons c l ih =>
    obtain ⟨hc, hl⟩ := List.pairwise_cons.mp hl
    rcases List.mem_cons.mp ha with rfl | hal
    · exact absurd (hc b ((List.mem_cons.mp hb).resolve_left hne.symm)) hr
    · rcases List.mem_cons.mp hb with rfl | hbl
      · exact (List.singleton_sublist.mpr hal).cons_cons b
      · exact (ih hl hal hbl).cons c

theorem pair_sublist_or {α : Type} {l : List α} {a b : α} (ha : a ∈ l) (hb : b ∈ l)
    (hne : a ≠ b) : List.Sublist [a, b] l ∨ List.Sublist [b, a] l := by
  by_cases h : List.Sublist [a, b] l
  · exact .inl h
  · right
    apply pair_sublist_of_pairwise (r := fun a b => List.Sublist [a, b] l) _ ha hb hne h
    exact List.pairwise_iff_forall_sublist.mpr fun hs => hs

theorem mem_left_of_pair_sublist {α : Type} {before after : List α} {a b : α}
    (hn : (before ++ a :: after).Nodup) (h : List.Sublist [b, a] (before ++ a :: after)) :
    b ∈ before := by
  obtain ⟨_, htail, hdisjoint⟩ := List.nodup_append.mp hn
  have hafter : a ∉ after := (List.nodup_cons.mp htail).1
  obtain ⟨left, right, heq, hl, hr⟩ := List.sublist_append_iff.mp h
  cases left with
  | nil =>
    rw [List.nil_append] at heq
    subst heq
    rcases List.cons_sublist_cons'.mp hr with hr | ⟨_, hr⟩
    · exact absurd (hr.subset (by simp)) hafter
    · exact absurd (hr.subset (by simp)) hafter
  | cons c left =>
    obtain ⟨rfl, _⟩ := List.cons.inj heq
    exact hl.subset List.mem_cons_self

theorem pair_sublist_of_idxOf_lt {l : List String} {a b : String} (hb : b ∈ l)
    (h : l.idxOf a < l.idxOf b) : List.Sublist [a, b] l := by
  have ha : a ∈ l.take (l.idxOf b) := (List.mem_take_iff_idxOf_lt
    (List.idxOf_lt_length_iff.mp (Nat.lt_trans h (List.idxOf_lt_length_of_mem hb)))).mpr h
  have hlt := List.idxOf_lt_length_of_mem hb
  have hdrop : b ∈ l.drop (l.idxOf b) := by
    rw [List.drop_eq_getElem_cons hlt, List.getElem_idxOf hlt]
    exact List.mem_cons_self
  have hsub := (List.singleton_sublist.mpr ha).append (List.singleton_sublist.mpr hdrop)
  rwa [List.take_append_drop] at hsub

theorem eq_of_pairwise_of_mem_iff {α : Type} {r : α → α → Prop} (asymm : ∀ a b, r a b → ¬ r b a)
    {first second : List α} (hf : first.Pairwise r) (hs : second.Pairwise r)
    (hm : ∀ a, a ∈ first ↔ a ∈ second) : first = second := by
  have hnodup {l : List α} (hl : l.Pairwise r) : l.Nodup := by
    apply hl.imp
    rintro a _ haa rfl
    exact asymm a a haa haa
  have hperm := (List.perm_ext_iff_of_nodup (hnodup hf) (hnodup hs)).mpr hm
  exact hperm.eq_of_pairwise (fun a b _ _ hab hba => absurd hba (asymm a b hab)) hf hs

section StableSort

variable {α : Type} {le : α → α → Bool}

theorem span_append {q : α → Bool} {front back : List α} (hf : ∀ a ∈ front, q a = true)
    (hb : ∀ a ∈ back, q a = false) :
    (front ++ back).takeWhile q = front ∧ (front ++ back).dropWhile q = back := by
  rw [List.takeWhile_append_of_pos hf, List.dropWhile_append_of_pos hf]
  cases back with
  | nil => simp
  | cons b back => simp [hb b List.mem_cons_self]

variable (trans : ∀ a b c, le a b = true → le b c = true → le a c = true)
  (total : ∀ a b, (le a b || le b a) = true)

include trans total

theorem exists_mergeSort_cons (a : α) (l : List α) :
    ∃ before after, (a :: l).mergeSort le = before ++ a :: after ∧
      l.mergeSort le = before ++ after ∧ (∀ b ∈ before, (!le a b) = true) ∧
      ∀ b ∈ after, (!le a b) = false := by
  obtain ⟨before, after, hcons, hl, hbefore⟩ := List.mergeSort_cons trans total a l
  refine ⟨before, after, hcons, hl, hbefore, ?_⟩
  have hsorted := List.pairwise_mergeSort trans total (a :: l)
  rw [hcons] at hsorted
  intro b hb
  rw [(List.pairwise_cons.mp (List.pairwise_append.mp hsorted).2.1).1 b hb]
  rfl

theorem filter_mergeSort (p : α → Bool) (l : List α) :
    (l.mergeSort le).filter p = (l.filter p).mergeSort le := by
  induction l with
  | nil => simp
  | cons a l ih =>
    obtain ⟨before, after, hcons, hl, hless, hmore⟩ := exists_mergeSort_cons trans total a l
    by_cases ha : p a = true
    · obtain ⟨first, last, hfirst, hsplit, hless', hmore'⟩ :=
        exists_mergeSort_cons trans total a (l.filter p)
      have hparts : before.filter p ++ after.filter p = first ++ last := by
        rw [← List.filter_append, ← hl, ih, hsplit]
      have hfront : ∀ b ∈ before.filter p, (!le a b) = true :=
        fun b hb => hless b (List.mem_filter.mp hb).1
      have hback : ∀ b ∈ after.filter p, (!le a b) = false :=
        fun b hb => hmore b (List.mem_filter.mp hb).1
      have hleft := span_append hfront hback
      have hright := span_append hless' hmore'
      rw [hparts] at hleft
      rw [hcons, List.filter_append, List.filter_cons_of_pos ha, List.filter_cons_of_pos ha, hfirst,
        ← hleft.1, ← hleft.2, hright.1, hright.2]
    · rw [hcons, List.filter_append, List.filter_cons_of_neg ha, List.filter_cons_of_neg ha, ← ih,
        hl, List.filter_append]

end StableSort

end ApplianceScript
