import ApplianceScript.Proofs.Noninterference

namespace ApplianceScript

theorem Plan.related_schedules (catalog : Catalog) (schedule other : Schedule)
    (width otherWidth : Nat) :
    Warned.Related Eq (buildBy schedule width catalog) (buildBy other otherWidth catalog) := by
  unfold buildBy
  refine (Warned.Related.refl _).bind ?_
  rintro version _ _ _ rfl
  refine (Warned.Related.refl _).bind ?_
  rintro placeholders _ _ _ rfl
  refine (Warned.Related.refl _).bind ?_
  rintro order _ _ _ rfl
  refine (Warned.Related.refl _).bind ?_
  rintro ownership _ _ _ rfl
  have horders : Warned.Related Eq (orderElements schedule width catalog order ownership)
      (orderElements other otherWidth catalog order ownership) := by
    apply Warned.Related.of_result_eq
    · exact (warnings_orderElements_perm catalog order ownership schedule width).trans
        (warnings_orderElements_perm catalog order ownership other otherWidth).symm
    · rw [result_orderElements, result_orderElements]
  refine horders.bind ?_
  rintro elementOrders _ _ _ rfl
  exact .refl _

namespace Session

inductive Request
  | plan
  | emit (direction : Direction)
  | compile

inductive Answer
  | plan (result : Except CompileError Plan)
  | lines (result : Except CompileError (List String))
  | scripts (result : Except CompileError Scripts)

def respond (session : Session) : Request → Answer × Session
  | .plan => (.plan session.plan.1, session.plan.2)
  | .emit direction => (.lines (session.emit direction).1, (session.emit direction).2)
  | .compile => (.scripts session.compile.1, session.compile.2)

def serve (session : Session) : List Request → List Answer × Session
  | [] => ([], session)
  | request :: rest =>
    let (answer, after) := session.respond request
    let (answers, last) := after.serve rest
    (answer :: answers, last)

theorem emit_fst (session : Session) (direction : Direction) :
    (session.emit direction).1 = session.plan.1.bind (·.emit direction) := rfl

theorem compile_fst (session : Session) :
    session.compile.1 = session.plan.1.bind (·.scripts) := rfl

theorem respond_snd (session : Session) (request : Request) :
    (session.respond request).2 = session.plan.2 := by
  cases request <;> rfl

theorem respond_fst_congr {session other : Session} (h : session.plan.1 = other.plan.1)
    (request : Request) : (session.respond request).1 = (other.respond request).1 := by
  cases request with
  | plan => exact congrArg Answer.plan h
  | emit direction => simp only [respond, emit_fst, h]
  | compile => simp only [respond, compile_fst, h]

theorem compile_fst_eq_emits (session : Session) :
    session.compile.1 = do
      let install ← (session.emit .install).1
      let uninstall ← (session.emit .uninstall).1
      return { install, uninstall } := by
  simp only [compile_fst, emit_fst]
  cases session.plan.1 <;> rfl

def buildsFor (count : Nat) : Except CompileError Plan → Nat
  | .ok _ => min count 1
  | .error _ => count

def keptAfter (count : Nat) (result : Except CompileError Plan) : Option Plan :=
  if count = 0 then none else result.toOption

theorem buildsFor_succ_of_none {count : Nat} {result : Except CompileError Plan}
    (h : keptAfter count result = none) : buildsFor (count + 1) result = buildsFor count result + 1 := by
  cases result with
  | error error => rfl
  | ok plan =>
    unfold keptAfter at h
    split_ifs at h with hzero
    · rw [hzero]
      rfl
    · cases h

theorem keptAfter_eq_some_iff {count : Nat} {result : Except CompileError Plan} {plan : Plan} :
    keptAfter count result = some plan ↔ count ≠ 0 ∧ result = .ok plan := by
  unfold keptAfter
  split_ifs with hzero
  · simp [hzero]
  · cases result <;> simp [Except.toOption, hzero]

theorem buildsFor_succ_of_ok {count : Nat} (hcount : count ≠ 0) (plan : Plan) :
    buildsFor (count + 1) (.ok plan) = buildsFor count (.ok plan) := by
  simp only [buildsFor]
  omega

structure Served (schedules : Nat → Schedule) (catalog : Catalog) (width count : Nat)
    (session : Session) : Prop where
  catalog_eq : session.catalog = catalog
  width_eq : session.width = max width 1
  schedules_eq : session.schedules = schedules
  kept : session.kept = keptAfter count (Plan.build catalog (max width 1)).result
  builds : session.builds = buildsFor count (Plan.build catalog (max width 1)).result
  warnings : session.warnings = (List.range session.builds).flatMap fun build =>
    (Plan.buildBy (schedules build) (max width 1) catalog).warnings

variable {schedules : Nat → Schedule} {catalog : Catalog} {width : Nat}

theorem served_freshBy (schedules : Nat → Schedule) (catalog : Catalog) (width : Nat) :
    Served schedules catalog width 0 (freshBy schedules catalog width) := by
  refine ⟨rfl, rfl, rfl, rfl, ?_, rfl⟩
  cases (Plan.build catalog (max width 1)).result <;> rfl

section Serving

variable {session : Session} {count : Nat}

theorem Served.plan (h : Served schedules catalog width count session) :
    session.plan.1 = (Plan.build catalog (max width 1)).result ∧
      Served schedules catalog width (count + 1) session.plan.2 := by
  have hnext : keptAfter (count + 1) (Plan.build catalog (max width 1)).result =
      (Plan.build catalog (max width 1)).result.toOption := if_neg (Nat.succ_ne_zero count)
  cases hkept : session.kept with
  | none =>
    have hresult := (Plan.related_schedules catalog (schedules session.builds) []
      (max width 1) (max width 1)).result_eq
    have hbuilds := buildsFor_succ_of_none (h.kept.symm.trans hkept)
    simp only [Session.plan, hkept, h.catalog_eq, h.width_eq, h.schedules_eq]
    refine ⟨hresult, rfl, rfl, rfl, ?_, ?_, ?_⟩
    · rw [hnext]
      exact congrArg Except.toOption hresult
    · rw [hbuilds, ← h.builds]
    · rw [List.range_succ, List.flatMap_append, List.flatMap_singleton, ← h.warnings]
  | some plan =>
    obtain ⟨hcount, hresult⟩ := keptAfter_eq_some_iff.mp (h.kept.symm.trans hkept)
    simp only [Session.plan, hkept]
    refine ⟨hresult.symm, h.catalog_eq, h.width_eq, h.schedules_eq, ?_, ?_, h.warnings⟩
    · rw [hnext, hkept, hresult]
      rfl
    · rw [h.builds, hresult, buildsFor_succ_of_ok hcount]

theorem Served.respond (h : Served schedules catalog width count session) (request : Request) :
    (session.respond request).1 = ((fresh catalog width).respond request).1 ∧
      Served schedules catalog width (count + 1) (session.respond request).2 := by
  constructor
  · exact respond_fst_congr (h.plan.1.trans (served_freshBy _ catalog width).plan.1.symm) request
  · rw [respond_snd]
    exact h.plan.2

theorem Served.serve (h : Served schedules catalog width count session)
    (requests : List Request) :
    (session.serve requests).1 =
        requests.map (fun request => ((fresh catalog width).respond request).1) ∧
      Served schedules catalog width (count + requests.length) (session.serve requests).2 := by
  induction requests generalizing session count with
  | nil => exact ⟨rfl, h⟩
  | cons request rest ih =>
    obtain ⟨hanswer, hnext⟩ := h.respond request
    obtain ⟨hanswers, hlast⟩ := ih hnext
    constructor
    · change (session.respond request).1 :: ((session.respond request).2.serve rest).1 = _
      rw [hanswer, hanswers, List.map_cons]
    · rw [List.length_cons, Nat.add_comm rest.length, ← Nat.add_assoc]
      exact hlast

end Serving

theorem warnings_perm (schedules : Nat → Schedule) (catalog : Catalog) (width builds : Nat) :
    ((List.range builds).flatMap fun build =>
      (Plan.buildBy (schedules build) width catalog).warnings).Perm
        (List.replicate builds (Plan.build catalog width).warnings).flatten := by
  induction builds with
  | zero => exact .refl _
  | succ builds ih =>
    rw [List.range_succ, List.flatMap_append, List.flatMap_singleton, List.replicate_succ',
      List.flatten_append, List.flatten_singleton]
    exact ih.append (Plan.related_schedules catalog (schedules builds) [] width width).warnings

theorem serve_fresh (schedules : Nat → Schedule) (catalog : Catalog) (width : Nat)
    (requests : List Request) :
    ((freshBy schedules catalog width).serve requests).1 =
        requests.map (fun request => ((fresh catalog width).respond request).1) ∧
      (fresh catalog width).plan.1 = (Plan.build catalog (max width 1)).result ∧
      (∀ direction, ((fresh catalog width).emit direction).1 =
        (Plan.build catalog (max width 1)).result.bind (·.emit direction)) ∧
      (fresh catalog width).compile.1 = (do
        let install ← ((fresh catalog width).emit .install).1
        let uninstall ← ((fresh catalog width).emit .uninstall).1
        return { install, uninstall }) ∧
      (∀ plan, (Plan.build catalog (max width 1)).result = .ok plan →
        ((freshBy schedules catalog width).serve requests).2.builds = min requests.length 1 ∧
        (requests ≠ [] → ((freshBy schedules catalog width).serve requests).2.kept = some plan)) ∧
      (∀ error, (Plan.build catalog (max width 1)).result = .error error →
        ((freshBy schedules catalog width).serve requests).2.builds = requests.length ∧
        ((freshBy schedules catalog width).serve requests).2.kept = none) ∧
      (∀ plan later, ((freshBy schedules catalog width).serve requests).2.kept = some plan →
        ((freshBy schedules catalog width).serve (requests ++ later)).2.kept = some plan) ∧
      ((freshBy schedules catalog width).serve requests).2.warnings =
        ((List.range ((freshBy schedules catalog width).serve requests).2.builds).flatMap
          fun build => (Plan.buildBy (schedules build) (max width 1) catalog).warnings) ∧
      ((freshBy schedules catalog width).serve requests).2.warnings.Perm
        (List.replicate ((freshBy schedules catalog width).serve requests).2.builds
          (Plan.build catalog (max width 1)).warnings).flatten := by
  have hserved (requests : List Request) :=
    (served_freshBy schedules catalog width).serve requests
  simp only [Nat.zero_add] at hserved
  obtain ⟨hanswers, hlast⟩ := hserved requests
  have hbuilt := (served_freshBy (fun _ => []) catalog width).plan.1
  refine ⟨hanswers, hbuilt, fun direction => congrArg (·.bind (·.emit direction)) hbuilt,
    compile_fst_eq_emits _, ?_, ?_, ?_, hlast.warnings, ?_⟩
  · intro plan hok
    rw [hlast.builds, hlast.kept, hok]
    exact ⟨rfl, fun hrequests => if_neg (mt List.eq_nil_of_length_eq_zero hrequests)⟩
  · intro error herror
    rw [hlast.builds, hlast.kept, herror]
    exact ⟨rfl, ite_self none⟩
  · intro plan later hplan
    obtain ⟨hcount, hresult⟩ := keptAfter_eq_some_iff.mp (hlast.kept.symm.trans hplan)
    have hmore : (requests ++ later).length ≠ 0 := by
      rw [List.length_append]
      omega
    exact (hserved (requests ++ later)).2.kept.trans (keptAfter_eq_some_iff.mpr ⟨hmore, hresult⟩)
  · rw [hlast.warnings]
    exact warnings_perm schedules catalog (max width 1) _

end Session

end ApplianceScript
