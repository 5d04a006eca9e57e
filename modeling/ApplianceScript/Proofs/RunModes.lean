import ApplianceScript.Proofs.RunOutcome

namespace ApplianceScript

namespace Invocation

inductive Mode
  | print
  | dryRun
  | write
deriving DecidableEq

def inMode (invocation : Invocation) (mode : Mode) (quiet : Bool) : Invocation :=
  { invocation with quiet, print := mode = .print, dryRun := mode = .dryRun }

variable (invocation : Invocation) (mode : Mode) (quiet color : Bool)

theorem prepare_inMode (disk : Disk) :
    (invocation.inMode mode quiet).prepare disk = invocation.prepare disk := rfl

theorem disk_of_shown {disk : Disk} (hm : mode ≠ .write) :
    ((invocation.inMode mode quiet).run color disk).2.disk = disk := by
  have hrun := congrArg Prod.snd ((invocation.inMode mode quiet).run_eq color disk)
  have hshows : (invocation.inMode mode quiet).onlyShows = true := by
    cases mode with
    | print => rfl
    | dryRun => rfl
    | write => exact absurd rfl hm
  simp only [hshows, if_true] at hrun
  rw [hrun]
  split <;> rfl

section Ready

variable {disk : Disk} {files : ScriptFiles} {scripts : Scripts}
  (h : invocation.prepare disk = .ok (files, scripts))

include h

theorem run_print :
    ((invocation.inMode .print quiet).run color disk).1 = .ok () ∧
      ((invocation.inMode .print quiet).run color disk).2.told =
        Run.printedScripts files scripts := by
  obtain ⟨plan, warnings, hrun⟩ := (invocation.inMode .print quiet).run_of_prepare_ok color
    ((invocation.prepare_inMode ..).trans h)
  have hheard (text : String) : (invocation.inMode .print quiet).heard text = "" := by
    simp [heard, isTerse, inMode]
  have hprint : (invocation.inMode .print quiet).print = true := rfl
  rw [hrun, Run.on_deliver, if_pos hprint, hheard, String.empty_append]
  exact ⟨rfl, rfl⟩

theorem run_dryRun :
    ((invocation.inMode .dryRun quiet).run color disk).1 = .ok () ∧
      (quiet = false → ∃ plan, ((invocation.inMode .dryRun quiet).run color disk).2.told =
        Run.header color invocation.searchPath ++ Run.summary plan scripts ++
          Run.dryEnd color files) := by
  obtain ⟨plan, warnings, hrun⟩ := (invocation.inMode .dryRun quiet).run_of_prepare_ok color
    ((invocation.prepare_inMode ..).trans h)
  have hprint : (invocation.inMode .dryRun quiet).print = false := rfl
  have hdry : (invocation.inMode .dryRun quiet).dryRun = true := rfl
  rw [hrun, Run.on_deliver]
  simp only [hprint, hdry, Bool.false_eq_true, if_false, if_true, true_and]
  rintro rfl
  have hheard (text : String) : (invocation.inMode .dryRun false).heard text = text := by
    simp [heard, isTerse, inMode]
  refine ⟨plan, ?_⟩
  rw [hheard, hheard, hheard]
  rfl

theorem run_write :
    (((invocation.inMode .write quiet).run color disk).1,
        ((invocation.inMode .write quiet).run color disk).2.disk) = files.write disk scripts := by
  have hrun := (invocation.inMode .write quiet).run_eq color disk
  have hshows : (invocation.inMode .write quiet).onlyShows = false := rfl
  simp only [prepare_inMode, h, hshows, Bool.false_eq_true, if_false] at hrun
  exact hrun

end Ready

theorem modes_agree (invocation : Invocation) (quiet color : Mode → Bool) (disk : Disk) :
    (∀ mode ≠ .write,
      ((invocation.inMode mode (quiet mode)).run (color mode) disk).2.disk = disk) ∧
    ((∃ failure, ∀ mode,
        ((invocation.inMode mode (quiet mode)).run (color mode) disk).1 = .error failure ∧
        ((invocation.inMode mode (quiet mode)).run (color mode) disk).2.disk = disk) ∨
      ∃ files scripts, invocation.prepare disk = .ok (files, scripts) ∧
        (∀ mode ≠ .write,
          ((invocation.inMode mode (quiet mode)).run (color mode) disk).1 = .ok ()) ∧
        ((invocation.inMode .print (quiet .print)).run (color .print) disk).2.told =
          "# " ++ files.install ++ "\n" ++ Text.joinLines scripts.install ++
            ("# " ++ files.uninstall ++ "\n" ++ Text.joinLines scripts.uninstall) ∧
        (quiet .dryRun = false → ∃ plan,
          ((invocation.inMode .dryRun (quiet .dryRun)).run (color .dryRun) disk).2.told =
            Run.header (color .dryRun) invocation.searchPath ++ Run.summary plan scripts ++
              ("\n" ++ Style.yellow.paint (color .dryRun) "Dry run, nothing written" ++ "\n" ++
                ("  Would write " ++ (files.path .install).text ++ "\n") ++
                ("  Would write " ++ (files.path .uninstall).text ++ "\n"))) ∧
        (((invocation.inMode .write (quiet .write)).run (color .write) disk).1,
            ((invocation.inMode .write (quiet .write)).run (color .write) disk).2.disk) =
          disk.writeAll [(files.path .install, (Text.joinLines scripts.install).toUTF8),
            (files.path .uninstall, (Text.joinLines scripts.uninstall).toUTF8)]) := by
  refine ⟨fun mode hm => invocation.disk_of_shown mode (quiet mode) (color mode) hm, ?_⟩
  cases hprepare : invocation.prepare disk with
  | error failure =>
    exact .inl ⟨failure, fun mode =>
      (invocation.inMode mode (quiet mode)).run_of_prepare_error (color mode)
        ((invocation.prepare_inMode ..).trans hprepare)⟩
  | ok prepared =>
    obtain ⟨files, scripts⟩ := prepared
    obtain ⟨hprinted, htold⟩ := invocation.run_print (quiet .print) (color .print) hprepare
    obtain ⟨hdry, hannounced⟩ := invocation.run_dryRun (quiet .dryRun) (color .dryRun) hprepare
    refine .inr ⟨files, scripts, rfl, ?_, htold, hannounced,
      invocation.run_write (quiet .write) (color .write) hprepare⟩
    intro mode hm
    cases mode with
    | print => exact hprinted
    | dryRun => exact hdry
    | write => exact absurd rfl hm

end Invocation

end ApplianceScript
