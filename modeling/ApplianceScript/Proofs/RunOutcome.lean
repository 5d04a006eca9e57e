import ApplianceScript.Proofs.Traversal
import ApplianceScript.Run

namespace ApplianceScript

namespace Run

def Step.on (step : Step α) (run : Run) : Except Failure α × Run := StateT.run (ExceptT.run step) run

section On

variable {α β : Type} (run : Run)

theorem on_bind (step : Step α) (next : α → Step β) :
    Step.on (step >>= next) run = match Step.on step run with
      | (.ok a, after) => Step.on (next a) after
      | (.error failure, after) => (.error failure, after) := by
  simp only [Step.on, ExceptT.run_bind, StateT.run_bind]
  change (match StateT.run (ExceptT.run step) run with
    | (result, after) => _) = _
  obtain ⟨result, after⟩ := StateT.run (ExceptT.run step) run
  cases result <;> rfl

@[simp] theorem on_pure (a : α) : Step.on (pure a) run = (.ok a, run) := rfl

@[simp] theorem on_throw (failure : Failure) :
    Step.on (throw failure : Step α) run = (.error failure, run) := rfl

@[simp] theorem on_get : Step.on get run = (.ok run, run) := rfl

@[simp] theorem on_set (other : Run) : Step.on (set other) run = (.ok ⟨⟩, other) := rfl

@[simp] theorem on_modify (change : Run → Run) :
    Step.on (modify change) run = (.ok ⟨⟩, change run) := rfl

@[simp] theorem on_ofExcept (result : Except Failure α) :
    Step.on (ofExcept result) run = (result, run) := rfl

@[simp] theorem on_ofCompile (result : Except CompileError α) :
    Step.on (ofCompile result) run = (result.mapError Failure.ofCompile, run) := by
  cases result <;> rfl

end On

variable (run : Run)

theorem on_settings (invocation : Invocation) :
    Step.on (settings invocation) run =
      ((Step.on (settings invocation) { disk := run.disk }).1, run) := by
  unfold settings
  simp only [on_bind, on_get]
  cases hsearched : run.disk.isDirectory invocation.searchPath with
  | false => simp
  | true =>
    simp only [Bool.not_true, Bool.false_eq_true, if_false, on_bind, on_ofExcept]
    cases Settings.load run.disk invocation.searchPath invocation.config <;> simp

theorem on_settings_eq_ok_iff (invocation : Invocation) (settings : Settings) :
    (Step.on (Run.settings invocation) run).1 = .ok settings ↔
      run.disk.isDirectory invocation.searchPath = true ∧
      ∃ loaded, Settings.load run.disk invocation.searchPath invocation.config = .ok loaded ∧
        loaded.withOverrides (invocation.output.map (currentDirectory run.disk).join)
          invocation.maxParallel = .ok settings := by
  unfold Run.settings
  simp only [on_bind, on_get]
  cases hsearched : run.disk.isDirectory invocation.searchPath with
  | false => simp
  | true =>
    simp only [Bool.not_true, Bool.false_eq_true, if_false, on_bind, on_ofExcept]
    cases hload : Settings.load run.disk invocation.searchPath invocation.config with
    | error failure => simp
    | ok loaded =>
      simp only [on_ofCompile, true_and, Except.ok.injEq, exists_eq_left']
      cases loaded.withOverrides (invocation.output.map (currentDirectory run.disk).join)
        invocation.maxParallel <;> simp [Except.mapError]

end Run

namespace Session

theorem plan_kept {session : Session} {plan : Plan} (h : session.plan.1 = .ok plan) :
    session.plan.2.plan.1 = .ok plan := by
  cases hkept : session.kept with
  | some kept =>
    have hsession : session.plan = (.ok kept, session) := by rw [Session.plan, hkept]
    rw [hsession] at h ⊢
    rw [hsession]
    exact h
  | none =>
    unfold Session.plan at h ⊢
    simp only [hkept] at h ⊢
    simp only [h, Except.toOption]

theorem plan_of_compile {session after : Session} {scripts : Scripts}
    (h : session.compile = (.ok scripts, after)) : ∃ plan, after.plan.1 = .ok plan := by
  obtain ⟨hscripts, rfl⟩ := Prod.mk.inj h
  obtain ⟨plan, hplan, _⟩ := bind_eq_ok_iff.mp hscripts
  exact ⟨plan, plan_kept hplan⟩

end Session

def Invocation.heard (invocation : Invocation) (text : String) : String :=
  if invocation.isTerse then "" else text

namespace Run

theorem on_compile (settings : Settings) (catalog : Catalog) :
    ∃ warnings, match (Session.fresh catalog settings.maxParallel).compile.1 with
      | .error error => ∀ run, Step.on (compile settings catalog) run =
          (.error (.ofCompile error), { run with warnings := run.warnings ++ warnings })
      | .ok scripts => ∃ plan, ∀ run, Step.on (compile settings catalog) run =
          (.ok (plan, scripts), { run with warnings := run.warnings ++ warnings }) := by
  unfold compile
  generalize hcompiled : (Session.fresh catalog settings.maxParallel).compile = compiled
  obtain ⟨result, session⟩ := compiled
  refine ⟨session.warnings, ?_⟩
  cases result with
  | error error =>
    intro run
    simp only [on_bind, on_modify, on_ofCompile, Except.mapError]
  | ok scripts =>
    obtain ⟨plan, hplan⟩ := Session.plan_of_compile hcompiled
    refine ⟨plan, fun run => ?_⟩
    simp only [on_bind, on_modify, on_ofCompile, on_pure, Except.mapError, hplan]

variable (run : Run)

theorem on_report (invocation : Invocation) (text : String) :
    Step.on (report invocation text) run =
      (.ok (), { run with told := run.told ++ invocation.heard text }) := by
  unfold report Invocation.heard
  split_ifs
  · rw [String.append_empty]
    rfl
  · rfl

theorem on_write (files : ScriptFiles) (scripts : Scripts) :
    Step.on (write files scripts) run =
      ((files.write run.disk scripts).1,
        { run with disk := (files.write run.disk scripts).2 }) := by
  unfold write
  generalize hwritten : files.write run.disk scripts = written
  simp only [on_bind, on_get, on_set, on_ofExcept, hwritten]

end Run

namespace Invocation

def onlyShows (invocation : Invocation) : Bool := invocation.print || invocation.dryRun

def prepare (invocation : Invocation) (disk : Disk) : Except Failure (ScriptFiles × Scripts) := do
  let settings ← (Run.Step.on (Run.settings invocation) { disk }).1
  let catalog ← Library.load disk invocation.searchPath settings.moduleExtensions
  let scripts ← (Session.fresh catalog settings.maxParallel).compile.1.mapError Failure.ofCompile
  return (settings.scriptFiles invocation.searchPath, scripts)

theorem prepare_eq_ok_iff (invocation : Invocation) {disk : Disk} {files : ScriptFiles}
    {scripts : Scripts} :
    invocation.prepare disk = .ok (files, scripts) ↔
      ∃ settings catalog, (Run.Step.on (Run.settings invocation) { disk }).1 = .ok settings ∧
        Library.load disk invocation.searchPath settings.moduleExtensions = .ok catalog ∧
        (Session.fresh catalog settings.maxParallel).compile.1 = .ok scripts ∧
        settings.scriptFiles invocation.searchPath = files := by
  constructor
  · intro h
    obtain ⟨settings, hsettings, h⟩ := bind_eq_ok_iff.mp h
    obtain ⟨catalog, hload, h⟩ := bind_eq_ok_iff.mp h
    obtain ⟨_, hscripts, h⟩ := bind_eq_ok_iff.mp h
    cases h
    refine ⟨settings, catalog, hsettings, hload, ?_, rfl⟩
    generalize (Session.fresh catalog settings.maxParallel).compile.1 = compiled at hscripts ⊢
    cases compiled <;> cases hscripts
    rfl
  · rintro ⟨settings, catalog, hsettings, hload, hscripts, rfl⟩
    refine bind_eq_ok_iff.mpr ⟨settings, hsettings, bind_eq_ok_iff.mpr ⟨catalog, hload, ?_⟩⟩
    rw [hscripts]
    rfl

end Invocation

namespace Run

theorem on_deliver (run : Run) (invocation : Invocation) (color : Bool) (files : ScriptFiles)
    (plan : Plan) (scripts : Scripts) :
    Step.on (deliver invocation color files plan scripts) run =
      if invocation.print then
        (.ok (), { run with told := run.told ++ printedScripts files scripts })
      else
        let told := run.told ++ invocation.heard (summary plan scripts)
        if invocation.dryRun then
          (.ok (), { run with told := told ++ invocation.heard (dryEnd color files) })
        else match files.write run.disk scripts with
          | (.error failure, disk) => (.error failure, { run with disk, told })
          | (.ok (), disk) =>
            (.ok (), { run with disk, told := told ++ invocation.heard (writtenEnd color files) }) := by
  unfold deliver
  cases hprint : invocation.print with
  | true => rfl
  | false =>
    simp only [Bool.false_eq_true, if_false, on_bind, on_report]
    cases hdry : invocation.dryRun with
    | true =>
      simp only [if_true, on_report]
    | false =>
      simp only [Bool.false_eq_true, if_false, on_bind, on_write]
      obtain ⟨failure | _, after⟩ := files.write run.disk scripts
      · rfl
      · simp only [on_report]

end Run

namespace Invocation

variable (invocation : Invocation) (color : Bool) {disk : Disk}

theorem run_of_prepare_error {failure : Failure} (h : invocation.prepare disk = .error failure) :
    (invocation.run color disk).1 = .error failure ∧ (invocation.run color disk).2.disk = disk := by
  change (Run.Step.on (Run.perform invocation color) { disk }).1 = .error failure ∧
    (Run.Step.on (Run.perform invocation color) { disk }).2.disk = disk
  unfold Run.perform
  simp only [Run.on_bind]
  rw [Run.on_settings]
  rcases bind_eq_error_iff.mp h with hsettings | ⟨settings, hsettings, h⟩
  · simp only [hsettings, and_self]
  · simp only [hsettings, Run.on_report, Run.on_get, Run.on_ofExcept]
    rcases bind_eq_error_iff.mp h with hload | ⟨catalog, hload, h⟩
    · simp only [hload, and_self]
    · simp only [hload]
      obtain ⟨warnings, hcompile⟩ := Run.on_compile settings catalog
      cases hscripts : (Session.fresh catalog settings.maxParallel).compile.1 with
      | error error =>
        rw [hscripts] at h hcompile
        simp only [String.empty_append, hcompile, and_true]
        cases h
        rfl
      | ok scripts =>
        rw [hscripts] at h
        cases h

theorem run_of_compile_ok {settings : Settings} {catalog : Catalog} {scripts : Scripts}
    (h : (Session.fresh catalog settings.maxParallel).compile.1 = .ok scripts) :
    ∃ plan warnings, ∀ disk,
      (Run.Step.on (Run.settings invocation) { disk }).1 = .ok settings →
      Library.load disk invocation.searchPath settings.moduleExtensions = .ok catalog →
      invocation.run color disk = Run.Step.on (Run.deliver invocation color
        (settings.scriptFiles invocation.searchPath) plan scripts)
        { disk, told := invocation.heard (Run.header color invocation.searchPath), warnings } := by
  obtain ⟨warnings, hcompile⟩ := Run.on_compile settings catalog
  rw [h] at hcompile
  obtain ⟨plan, hcompile⟩ := hcompile
  refine ⟨plan, warnings, fun disk hsettings hload => ?_⟩
  change Run.Step.on (Run.perform invocation color) { disk } = _
  unfold Run.perform
  simp only [Run.on_bind]
  rw [Run.on_settings]
  simp only [hsettings, Run.on_report, Run.on_get, Run.on_ofExcept, hload, String.empty_append,
    hcompile, List.nil_append]

theorem run_of_prepare_ok {files : ScriptFiles} {scripts : Scripts}
    (h : invocation.prepare disk = .ok (files, scripts)) :
    ∃ plan warnings, invocation.run color disk =
      Run.Step.on (Run.deliver invocation color files plan scripts)
        { disk, told := invocation.heard (Run.header color invocation.searchPath), warnings } := by
  obtain ⟨settings, catalog, hsettings, hload, hcompiled, rfl⟩ := invocation.prepare_eq_ok_iff.mp h
  obtain ⟨plan, warnings, hrun⟩ := invocation.run_of_compile_ok color hcompiled
  exact ⟨plan, warnings, hrun disk hsettings hload⟩

theorem run_eq (disk : Disk) :
    ((invocation.run color disk).1, (invocation.run color disk).2.disk) =
      match invocation.prepare disk with
      | .error failure => (.error failure, disk)
      | .ok (files, scripts) =>
        if invocation.onlyShows then (.ok (), disk) else files.write disk scripts := by
  cases hprepare : invocation.prepare disk with
  | error failure =>
    obtain ⟨hresult, hdisk⟩ := invocation.run_of_prepare_error color hprepare
    exact Prod.ext hresult hdisk
  | ok prepared =>
    obtain ⟨files, scripts⟩ := prepared
    obtain ⟨plan, warnings, hrun⟩ := invocation.run_of_prepare_ok color hprepare
    rw [hrun, Run.on_deliver, onlyShows]
    cases invocation.print with
    | true => rfl
    | false =>
      cases invocation.dryRun with
      | true => rfl
      | false =>
        simp only [Bool.or_self, Bool.false_eq_true, if_false]
        obtain ⟨failure | _, after⟩ := files.write disk scripts <;> rfl

end Invocation

end ApplianceScript
