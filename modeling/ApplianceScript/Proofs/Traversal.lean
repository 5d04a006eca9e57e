import Mathlib.Data.List.Forall2

namespace ApplianceScript

variable {ε α β γ : Type}

theorem bind_eq_ok_iff {first : Except ε α} {next : α → Except ε β} {b : β} :
    (first >>= next) = .ok b ↔ ∃ a, first = .ok a ∧ next a = .ok b := by
  cases first <;> simp [bind, Except.bind]

theorem bind_eq_error_iff {first : Except ε α} {next : α → Except ε β} {error : ε} :
    (first >>= next) = .error error ↔
      first = .error error ∨ ∃ a, first = .ok a ∧ next a = .error error := by
  cases first <;> simp [bind, Except.bind]

theorem mapM_eq_ok_iff {f : α → Except ε β} {l : List α} {results : List β} :
    l.mapM f = .ok results ↔ List.Forall₂ (fun a b => f a = .ok b) l results := by
  induction l generalizing results with
  | nil =>
    rw [List.mapM_nil, List.forall₂_nil_left_iff]
    exact ⟨fun h => (Except.ok.inj h).symm, fun h => congrArg _ h.symm⟩
  | cons a l ih =>
    rw [List.mapM_cons, bind_eq_ok_iff, List.forall₂_cons_left_iff]
    constructor
    · rintro ⟨b, ha, h⟩
      obtain ⟨rest, hl, h⟩ := bind_eq_ok_iff.mp h
      exact ⟨b, rest, ha, ih.mp hl, (Except.ok.inj h).symm⟩
    · rintro ⟨b, rest, ha, hl, rfl⟩
      exact ⟨b, ha, bind_eq_ok_iff.mpr ⟨rest, ih.mpr hl, rfl⟩⟩

theorem mapM_congr {f g : α → Except ε β} {l : List α} (h : ∀ a ∈ l, f a = g a) :
    l.mapM f = l.mapM g := by
  induction l with
  | nil => rfl
  | cons a l ih =>
    obtain ⟨ha, hl⟩ := List.forall_mem_cons.mp h
    rw [List.mapM_cons, List.mapM_cons, ha, ih hl]

theorem mapM_eq_error_iff {f : α → Except ε β} {l : List α} {error : ε} :
    l.mapM f = .error error ↔ ∃ before a after, l = before ++ a :: after ∧
      (∀ b ∈ before, ∃ result, f b = .ok result) ∧ f a = .error error := by
  induction l with
  | nil =>
    rw [List.mapM_nil]
    simp [pure, Except.pure]
  | cons a l ih =>
    rw [List.mapM_cons, bind_eq_error_iff]
    constructor
    · rintro (ha | ⟨result, ha, hrest⟩)
      · exact ⟨[], a, l, rfl, by simp, ha⟩
      · rcases bind_eq_error_iff.mp hrest with hl | ⟨_, _, hpure⟩
        · obtain ⟨before, b, after, rfl, hbefore, hb⟩ := ih.mp hl
          exact ⟨a :: before, b, after, rfl, List.forall_mem_cons.mpr ⟨⟨result, ha⟩, hbefore⟩, hb⟩
        · cases hpure
    · rintro ⟨before, b, after, heq, hbefore, hb⟩
      cases before with
      | nil =>
        obtain ⟨rfl, _⟩ := List.cons.inj heq
        exact .inl hb
      | cons c before =>
        obtain ⟨rfl, rfl⟩ := List.cons.inj heq
        obtain ⟨⟨result, ha⟩, hbefore⟩ := List.forall_mem_cons.mp hbefore
        exact .inr ⟨result, ha,
          bind_eq_error_iff.mpr (.inl (ih.mpr ⟨before, b, after, rfl, hbefore, hb⟩))⟩

theorem foldlM_preserves {f : β → α → Except ε β} {p : β → Prop}
    (hf : ∀ b a c, p b → f b a = .ok c → p c) {l : List α} {b c : β} (hb : p b)
    (h : l.foldlM f b = .ok c) : p c := by
  induction l generalizing b with
  | nil =>
    obtain rfl := Except.ok.inj h
    exact hb
  | cons a l ih =>
    rw [List.foldlM_cons] at h
    obtain ⟨next, hnext, hrest⟩ := bind_eq_ok_iff.mp h
    exact ih (hf b a next hb hnext) hrest

theorem exists_of_forall₂_of_mem {r : α → β → Prop} {l : List α} {results : List β}
    (h : List.Forall₂ r l results) {a : α} (ha : a ∈ l) : ∃ b ∈ results, r a b := by
  induction h with
  | nil => cases ha
  | @cons c b l results hr _ ih =>
    rcases List.mem_cons.mp ha with rfl | ha
    · exact ⟨b, List.mem_cons_self, hr⟩
    · obtain ⟨b', hb', hr'⟩ := ih ha
      exact ⟨b', List.mem_cons_of_mem b hb', hr'⟩

theorem exists_forall₂ {r : α → β → Prop} {l : List α} (h : ∀ a ∈ l, ∃ b, r a b) :
    ∃ results, List.Forall₂ r l results := by
  induction l with
  | nil => exact ⟨[], .nil⟩
  | cons a l ih =>
    obtain ⟨b, hb⟩ := h a List.mem_cons_self
    obtain ⟨results, hresults⟩ := ih fun c hc => h c (List.mem_cons_of_mem a hc)
    exact ⟨b :: results, .cons hb hresults⟩

theorem map_eq_map_of_forall₂ {r : α → β → Prop} {f : α → γ} {g : β → γ} {l : List α}
    {results : List β} (h : List.Forall₂ r l results) (hfg : ∀ a b, r a b → f a = g b) :
    l.map f = results.map g := by
  rw [← List.forall₂_eq_eq_eq, List.forall₂_map_left_iff, List.forall₂_map_right_iff]
  exact h.imp hfg

end ApplianceScript
