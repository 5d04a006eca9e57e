import ApplianceScript.CommandLine
import ApplianceScript.Proofs.Traversal

namespace ApplianceScript

namespace CommandLine

theorem ofLongName?_ne_searchPath (name : String) :
    ofLongName? name ≠ some (.slot .searchPath) := by
  unfold ofLongName?
  split <;> simp

theorem ofLetter?_ne_searchPath (c : Char) : ofLetter? c ≠ some (.slot .searchPath) := by
  unfold ofLetter?
  split <;> simp

namespace Progress

structure Bare (progress : Progress) : Prop where
  searchPath : progress.searchPath = none
  pending : progress.pending = none

def Pathless (progress : Progress) : Prop :=
  ∀ settled, progress.settle = .ok settled → settled.searchPath = none

variable {progress next : Progress}

theorem Bare.settle_eq (hp : progress.Bare) : progress.settle = .ok progress := by
  rw [settle, hp.pending]

theorem Bare.pathless (hp : progress.Bare) : progress.Pathless := by
  intro settled h
  obtain rfl := Except.ok.inj (hp.settle_eq.symm.trans h)
  exact hp.searchPath

theorem Bare.store (hp : progress.Bare) {slot : Slot} {text : String} (hs : slot ≠ .searchPath)
    (h : progress.store slot text = .ok next) : next.Bare := by
  unfold Progress.store at h
  cases slot with
  | searchPath => exact absurd rfl hs
  | config | output | maxParallel =>
    obtain ⟨_, _, hnext⟩ := bind_eq_ok_iff.mp h
    obtain rfl := Except.ok.inj hnext
    exact ⟨hp.searchPath, hp.pending⟩

theorem Bare.turnOn (hp : progress.Bare) {switch : Switch}
    (h : progress.turnOn switch = .ok next) : next.Bare := by
  obtain ⟨settled, hsettled, h⟩ := bind_eq_ok_iff.mp h
  obtain rfl := Except.ok.inj (hp.settle_eq.symm.trans hsettled)
  split at h
  · cases h
  · cases h
  · split_ifs at h
    obtain rfl := Except.ok.inj h
    exact ⟨hp.searchPath, hp.pending⟩

theorem Bare.takeOption (hp : progress.Bare) {slot : Slot} {attached : Option String}
    (hs : slot ≠ .searchPath) (h : progress.takeOption slot attached = .ok next) :
    next.Pathless := by
  obtain ⟨settled, hsettled, h⟩ := bind_eq_ok_iff.mp h
  obtain rfl := Except.ok.inj (hp.settle_eq.symm.trans hsettled)
  cases attached with
  | some text => exact (hp.store hs h).pathless
  | none =>
    obtain rfl := Except.ok.inj h
    intro settled hsettled
    cases hsettled

theorem Bare.takeLong (hp : progress.Bare) {argument : List Char}
    (h : progress.takeLong argument = .ok next) : next.Pathless := by
  unfold Progress.takeLong at h
  simp only at h
  split at h
  · cases h
  · rename_i hname
    refine hp.takeOption ?_ h
    rintro rfl
    exact ofLongName?_ne_searchPath _ hname
  · cases h
  · exact (hp.turnOn h).pathless

theorem Bare.takeLetters (hp : progress.Bare) {letters : List Char}
    (h : progress.takeLetters letters = .ok next) : next.Pathless := by
  induction letters generalizing progress with
  | nil =>
    obtain rfl := Except.ok.inj h
    exact hp.pathless
  | cons c rest ih =>
    unfold Progress.takeLetters at h
    split at h
    · cases h
    · split at h <;> rename_i hturn
      · exact ih (hp.turnOn hturn) h
      · cases h
    · rename_i slot hletter
      have hs : slot ≠ .searchPath := by
        rintro rfl
        exact ofLetter?_ne_searchPath c hletter
      split at h <;> exact hp.takeOption hs h

theorem Pathless.finish_ne_ok (hp : progress.Pathless) (invocation : Invocation) :
    progress.finish ≠ .ok invocation := by
  intro h
  obtain ⟨settled, hsettled, h⟩ := bind_eq_ok_iff.mp h
  simp only [hp settled hsettled] at h
  split_ifs at h

end Progress

theorem parse_singleton {argument : String} {invocation : Invocation}
    (h : parse [argument] = .ok invocation) : invocation = { searchPath := .ofText argument } := by
  obtain ⟨progress, htaken, hfinish⟩ := bind_eq_ok_iff.mp h
  have hbare : Progress.Bare {} := ⟨rfl, rfl⟩
  replace htaken : Progress.take {} argument = .ok progress := by
    rw [List.foldlM_cons] at htaken
    obtain ⟨taken, htake, hrest⟩ := bind_eq_ok_iff.mp htaken
    obtain rfl := Except.ok.inj hrest
    exact htake
  unfold Progress.take at htaken
  simp only [Bool.false_eq_true, if_false] at htaken
  split at htaken
  · obtain rfl := Except.ok.inj htaken
    have hliteral : Progress.Bare { literal := true } := ⟨rfl, rfl⟩
    exact absurd hfinish (hliteral.pathless.finish_ne_ok invocation)
  · exact absurd hfinish ((hbare.takeLong htaken).finish_ne_ok invocation)
  · exact absurd hfinish ((hbare.takeLetters htaken).finish_ne_ok invocation)
  · obtain rfl := Except.ok.inj htaken
    obtain ⟨settled, hsettled, hfinish⟩ := bind_eq_ok_iff.mp hfinish
    obtain ⟨filled, hfilled, hsettled⟩ := bind_eq_ok_iff.mp hsettled
    obtain rfl := Except.ok.inj hsettled
    simp only [Progress.fill, Progress.pathValue] at hfilled
    split_ifs at hfilled
    · cases hfilled
    · obtain rfl := Except.ok.inj hfilled
      exact (Except.ok.inj hfinish).symm

end CommandLine

end ApplianceScript
