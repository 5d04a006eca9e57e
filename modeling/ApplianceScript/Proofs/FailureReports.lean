import ApplianceScript.Report

namespace ApplianceScript

theorem CompileError.message_settled (error : CompileError) :
    error.settled.message = error.message := by
  cases error <;> rfl

theorem CompileError.settled_cases (error : CompileError) :
    (∃ source, error = .io source ∧ error.settled = .other error.message) ∨
      (∀ source, error ≠ .io source) ∧ error.settled = error := by
  cases error with
  | io source => exact .inl ⟨source, rfl, rfl⟩
  | _ => exact .inr ⟨nofun, rfl⟩

namespace Report

theorem error_ofError (error : CompileError) : (ofError error).error = error := by
  cases error <;> rfl

theorem ofCauses_of_compile (contexts : List String) (error : CompileError) (below : List Cause) :
    ofCauses (contexts.map .plain ++ .compile error :: below) = ofError error.settled := by
  have hcontexts : (contexts.map Cause.plain).findSome? Cause.compileError? = none := by
    rw [List.findSome?_eq_none_iff]
    intro cause hc
    obtain ⟨_, _, rfl⟩ := List.mem_map.mp hc
    rfl
  unfold ofCauses
  rw [List.findSome?_append, hcontexts]
  rfl

theorem ofFailure_of_compile (contexts : List String) (error : CompileError) :
    ofFailure ⟨contexts, .compile error⟩ = ofError error.settled :=
  ofCauses_of_compile contexts error _

def linesBelow (texts : List String) : List String :=
  if texts = [] then []
  else "" :: "Caused by:" :: texts.mapIdx fun i text => "  " ++ toString (i + 1) ++ ": " ++ text

theorem intercalate_numbered (line : String) (first : Nat) (texts : List String) :
    "\n".intercalate (line :: texts.mapIdx fun i text =>
      "  " ++ toString (first + i) ++ ": " ++ text) = line ++ numbered first texts := by
  induction texts generalizing line first with
  | nil => simp [numbered]
  | cons text rest ih =>
    have hnext : (fun i text => "  " ++ toString (first + (i + 1)) ++ ": " ++ text) =
        fun i (text : String) => "  " ++ toString (first + 1 + i) ++ ": " ++ text := by
      funext i text
      rw [Nat.add_right_comm, Nat.add_assoc]
    have hfeed : "\n  " = "\n" ++ "  " := by decide
    rw [List.mapIdx_cons, String.intercalate_cons_cons, hnext, ih, numbered, hfeed]
    simp only [Nat.add_zero, String.append_assoc]

theorem explained_cons (outermost : String) (texts : List String) :
    explained (outermost :: texts) = "\n".intercalate (outermost :: linesBelow texts) := by
  unfold explained linesBelow
  cases texts with
  | nil => simp
  | cons text rest =>
    rw [if_neg (List.cons_ne_nil _ _)]
    simp only [Nat.add_comm _ 1]
    rw [String.intercalate_cons_cons, String.intercalate_cons_cons, intercalate_numbered]
    simp only [List.drop_succ_cons, List.drop_zero, List.headD_cons, List.isEmpty_cons,
      Bool.false_eq_true, if_false, String.empty_append]
    have hfeed : "\n\nCaused by:" = "\n" ++ ("\n" ++ "Caused by:") := by decide
    rw [hfeed]
    simp only [String.append_assoc]

theorem ofCauses_of_untyped {causes : List Cause}
    (h : ∀ cause ∈ causes, cause.compileError? = none ∧ cause.ioError? = none) :
    ofCauses causes = ofChain (causes.map (·.text)) := by
  have hcompile : causes.findSome? Cause.compileError? = none :=
    List.findSome?_eq_none_iff.mpr fun cause hc => (h cause hc).1
  have hio : causes.findSome? Cause.ioError? = none :=
    List.findSome?_eq_none_iff.mpr fun cause hc => (h cause hc).2
  unfold ofCauses
  rw [hcompile, hio]

theorem failure_told :
    (∀ (contexts : List String) (error : CompileError),
      (∀ below, ofCauses (contexts.map .plain ++ .compile error :: below) =
        ofFailure (.ofCompile error)) ∧
      ofFailure ⟨contexts, .compile error⟩ = ofFailure (.ofCompile error) ∧
      (ofFailure ⟨contexts, .compile error⟩).error.message = error.message ∧
      ((∃ source, error = .io source ∧
          (ofFailure ⟨contexts, .compile error⟩).error = .other error.message) ∨
        (∀ source, error ≠ .io source) ∧ (ofFailure ⟨contexts, .compile error⟩).error = error)) ∧
    ∀ (outermost : Cause) (further : List Cause),
      (∀ cause ∈ outermost :: further, cause.compileError? = none ∧ cause.ioError? = none) →
      ofCauses (outermost :: further) =
        { error := .other ("\n".intercalate
            (outermost.text :: linesBelow (further.map (·.text)))) } := by
  constructor
  · intro contexts error
    have halone : ofFailure (.ofCompile error) = ofError error.settled :=
      ofFailure_of_compile [] error
    rw [ofFailure_of_compile, halone, error_ofError]
    exact ⟨ofCauses_of_compile contexts error, rfl, error.message_settled, error.settled_cases⟩
  · intro outermost further h
    rw [ofCauses_of_untyped h, ofChain, List.map_cons, explained_cons]

theorem sample_causes_told :
    (∀ cause ∈ [.plain "Failed to load settings", .settingsSyntax "expected =", .plain "line 3"],
      Cause.compileError? cause = none ∧ cause.ioError? = none) ∧
    ofCauses [.plain "Failed to load settings", .settingsSyntax "expected =", .plain "line 3"] =
      { error := .other
          "Failed to load settings\n\nCaused by:\n  1: expected =\n  2: line 3" } := by
  have huntyped : ∀ cause ∈
      [.plain "Failed to load settings", .settingsSyntax "expected =", .plain "line 3"],
      Cause.compileError? cause = none ∧ cause.ioError? = none := by decide
  refine ⟨huntyped, (failure_told.2 _ _ huntyped).trans ?_⟩
  decide

end Report

end ApplianceScript
