import ApplianceScript.Proofs.OpenCalls

namespace ApplianceScript

def Walking.weighed (now : Walking) (scope : Scope) (label : String) : Warned WeightTable :=
  let table := WeightTable.ofSteps scope.names now.steps
  { warnings := table.cycles.map (⟨label, ·⟩)
    result :=
      match now.calls with
      | ⟨item, dependency :: _⟩ :: _ => .error (.unresolvedDependency label item.name dependency)
      | _ => .ok table }

namespace Scope

open Relation

def StuckAt (scope : Scope) (now : Walking) (name dependency : String) : Prop :=
  ∃ item pending below, now.calls = ⟨item, dependency :: pending⟩ :: below ∧ item.name = name ∧
    scope.frozen dependency = false ∧ dependency ∉ scope.names

/-- The moves take all the steps and lead from the one state to the other, or they take the steps
before the first unknown name and are stuck there. -/
def Performs (scope : Scope) (now : Walking) (work : List Step) (after : Walking) : Prop :=
  ((∀ step ∈ work, step.isMissing = false) ∧ after.steps = now.steps ++ work ∧
    scope.Runs now after) ∨
  ∃ stuck front back name dependency, work = front ++ .missing name dependency :: back ∧
    (∀ step ∈ front, step.isMissing = false) ∧ stuck.steps = now.steps ++ front ∧
    scope.StuckAt stuck name dependency ∧ scope.Runs now stuck

variable {scope : Scope} {now mid after : Walking}

theorem StuckAt.advance {name dependency : String} (h : scope.StuckAt now name dependency) :
    scope.advance now = none := by
  obtain ⟨item, pending, below, hcalls, _, hf, hn⟩ := h
  have hnone := (scope.item?_eq_none_iff dependency).mpr hn
  simp only [Scope.advance, hcalls, hf, hnone, Bool.false_eq_true, ↓reduceIte]

namespace Performs

theorem refl (now : Walking) : scope.Performs now [] now :=
  .inl ⟨List.forall_mem_nil _, (List.append_nil _).symm, .refl⟩

theorem of_advance {work : List Step} (hs : scope.advance now = some after)
    (hw : ∀ step ∈ work, step.isMissing = false) (heq : after.steps = now.steps ++ work) :
    scope.Performs now work after :=
  .inl ⟨hw, heq, .single hs⟩

theorem of_silent (hs : scope.advance now = some after) (heq : after.steps = now.steps) :
    scope.Performs now [] after :=
  of_advance hs (List.forall_mem_nil _) (by rw [heq, List.append_nil])

theorem trans {first second : List Step} (h : scope.Performs now first mid)
    (hmore : scope.Performs mid second after) : scope.Performs now (first ++ second) after := by
  rcases h with ⟨hfirst, hsteps, hrun⟩ | ⟨stuck, front, back, name, dependency, rfl, hstuck⟩
  · have hclean {front : List Step} (hf : ∀ step ∈ front, step.isMissing = false) :
        ∀ step ∈ first ++ front, step.isMissing = false := by
      intro step hs
      exact (List.mem_append.mp hs).elim (hfirst step) (hf step)
    rcases hmore with ⟨hsecond, hafter, hrest⟩ |
      ⟨stuck, front, back, name, dependency, rfl, hfront, hstuck, hat, hrest⟩
    · exact .inl ⟨hclean hsecond, by rw [hafter, hsteps, List.append_assoc], hrun.trans hrest⟩
    · exact .inr ⟨stuck, first ++ front, back, name, dependency, (List.append_assoc ..).symm,
        hclean hfront, by rw [hstuck, hsteps, List.append_assoc], hat, hrun.trans hrest⟩
  · exact .inr ⟨stuck, front, back ++ second, name, dependency, by simp, hstuck⟩

theorem of_enter {starts : List Item} {item : Item} {below : List Call} {path : List String}
    (henter : scope.advance now = some ⟨starts, ⟨item, item.dependencies⟩ :: below, path,
      now.steps ++ [.reach item.name]⟩)
    (hcall : ∀ steps, scope.Performs ⟨starts, ⟨item, item.dependencies⟩ :: below, path, steps⟩
      (item.dependencies.flatMap (scope.branch path item))
      ⟨starts, ⟨item, []⟩ :: below, path,
        steps ++ item.dependencies.flatMap (scope.branch path item)⟩) :
    scope.Performs now (.reach item.name :: scope.follow path item)
      ⟨starts, below, path.dropLast,
        now.steps ++ .reach item.name :: scope.follow path item⟩ := by
  have hreach := of_advance henter (by simp [Step.isMissing]) rfl
  have hreturn (taken : List Step) :
      scope.Performs ⟨starts, ⟨item, []⟩ :: below, path, taken⟩ []
        ⟨starts, below, path.dropLast, taken⟩ := of_silent rfl rfl
  have hall := hreach.trans ((hcall _).trans (hreturn _))
  rw [follow_eq, List.append_cons now.steps]
  rwa [List.append_nil, List.singleton_append] at hall

end Performs

theorem performs_call (path : List String) (item : Item) (pending : List String)
    (below : List Call) (starts : List Item) (steps : List Step) :
    scope.Performs ⟨starts, ⟨item, pending⟩ :: below, path, steps⟩
      (pending.flatMap (scope.branch path item))
      ⟨starts, ⟨item, []⟩ :: below, path,
        steps ++ pending.flatMap (scope.branch path item)⟩ := by
  induction path, item using follow.induct scope generalizing pending below steps with
  | case1 path item ih =>
    induction pending generalizing steps with
    | nil =>
      rw [List.flatMap_nil, List.append_nil]
      exact .refl _
    | cons b pending hpending =>
      rw [List.flatMap_cons, ← List.append_assoc]
      refine Performs.trans ?_ (hpending (steps ++ scope.branch path item b))
      rcases scope.branch_cases path item b with
        ⟨hf, heq⟩ | ⟨hf, hn, heq⟩ | ⟨hf, hn, hp, heq⟩ | ⟨found, rfl, hfound, hf, hp, heq⟩
      · rw [heq, List.append_nil]
        exact .of_silent (by simp only [advance, hf, ↓reduceIte]) rfl
      · rw [heq]
        exact .inr ⟨_, [], [], item.name, b, rfl, List.forall_mem_nil _, (List.append_nil _).symm,
          ⟨item, pending, below, rfl, rfl, hf, hn⟩, .refl⟩
      · obtain ⟨found, hfound⟩ := (scope.exists_item?_iff b).mpr hn
        rw [heq]
        refine .of_advance ?_ (by simp [Step.isMissing]) rfl
        simp only [advance, hf, hfound, hp, Bool.false_eq_true, ↓reduceIte]
      · have henter : scope.advance
            ⟨starts, ⟨item, found.name :: pending⟩ :: below, path, steps⟩ =
            some ⟨starts, ⟨found, found.dependencies⟩ :: ⟨item, pending⟩ :: below,
              path ++ [found.name], steps ++ [.reach found.name]⟩ := by
          simp only [advance, hf, hfound, hp, Bool.false_eq_true, ↓reduceIte]
        have hcall := Performs.of_enter henter (ih found.name found hfound hp found.dependencies _)
        rwa [List.dropLast_concat, ← heq] at hcall

theorem performs_starts {starts : List Item}
    (hs : ∀ item ∈ starts, scope.item? item.name = some item) (steps : List Step) :
    scope.Performs ⟨starts, [], [], steps⟩ (starts.flatMap (scope.walkFrom ·.name))
      ⟨[], [], [], steps ++ starts.flatMap (scope.walkFrom ·.name)⟩ := by
  induction starts generalizing steps with
  | nil =>
    rw [List.flatMap_nil, List.append_nil]
    exact .refl _
  | cons item starts ih =>
    have hitem := hs item List.mem_cons_self
    have hrest := ih fun other ho => hs other (List.mem_cons_of_mem _ ho)
    rw [List.flatMap_cons, ← List.append_assoc]
    refine Performs.trans ?_ (hrest (steps ++ scope.walkFrom item.name))
    cases hf : scope.frozen item.name with
    | true =>
      rw [walkFrom_frozen scope hf, List.append_nil]
      exact .of_silent (by simp only [advance, hf, ↓reduceIte]) rfl
    | false =>
      have hstart : scope.advance ⟨item :: starts, [], [], steps⟩ =
          some ⟨starts, [⟨item, item.dependencies⟩], [item.name], steps ++ [.reach item.name]⟩ := by
        simp only [advance, hf, Bool.false_eq_true, ↓reduceIte]
      rw [walkFrom_eq hitem hf]
      exact .of_enter hstart (performs_call [item.name] item item.dependencies [] starts)

theorem map_name_starts_outset (scope : Scope) :
    scope.outset.starts.map (·.name) = scope.names := by
  have hnamed : ∀ name ∈ scope.names, (scope.item? name).map (·.name) = some name := by
    intro name hn
    obtain ⟨item, hi⟩ := (scope.exists_item?_iff name).mpr hn
    rw [hi, Option.map_some, (name_of_item? hi).2]
  rw [outset, List.map_filterMap, List.filterMap_congr hnamed, List.filterMap_some]

theorem performs_walk (scope : Scope) :
    scope.Performs scope.outset scope.walk ⟨[], [], [], scope.walk⟩ := by
  have hwalk : scope.outset.starts.flatMap (scope.walkFrom ·.name) = scope.walk := by
    rw [walk, ← map_name_starts_outset, List.flatMap_map]
  have hstarts : ∀ item ∈ scope.outset.starts, scope.item? item.name = some item :=
    fun _ => starts_outset
  have hall := performs_starts hstarts []
  rw [hwalk, List.nil_append] at hall
  exact hall

theorem takeWhile_append {front : List Step} (h : ∀ step ∈ front, step.isMissing = false)
    (rest : List Step) : (front ++ rest).takeWhile (!·.isMissing) =
      front ++ rest.takeWhile (!·.isMissing) :=
  List.takeWhile_append_of_pos fun step hs => by rw [h step hs, Bool.not_false]

theorem findSome?_fault?_append {front : List Step} (label : String)
    (h : ∀ step ∈ front, step.isMissing = false) (rest : List Step) :
    (front ++ rest).findSome? (·.fault? label) = rest.findSome? (·.fault? label) := by
  have hnone : front.findSome? (·.fault? label) = none :=
    List.findSome?_eq_none_iff.mpr fun step hs => (fault?_eq_none_iff label step).mpr (h step hs)
  rw [List.findSome?_append, hnone, Option.none_or]

theorem exists_final (scope : Scope) (label : String) :
    ∃ final, scope.Runs scope.outset final ∧ scope.advance final = none ∧
      final.weighed scope label = scope.weigh label := by
  rcases scope.performs_walk with ⟨hclean, _, hrun⟩ |
    ⟨stuck, front, back, name, dependency, hwalk, hfront, hsteps, hat, hrun⟩
  · have htake := takeWhile_append hclean []
    have hfault := findSome?_fault?_append label hclean []
    rw [List.append_nil] at htake hfault
    refine ⟨_, hrun, rfl, ?_⟩
    simp only [Walking.weighed, weigh, htake, hfault, List.takeWhile_nil, List.findSome?_nil,
      List.append_nil]
  · refine ⟨stuck, hrun, hat.advance, ?_⟩
    obtain ⟨item, pending, below, hcalls, rfl, _, _⟩ := hat
    have htaken : stuck.steps = front := hsteps
    have hmissing : (Step.missing item.name dependency :: back).takeWhile (!·.isMissing) = [] :=
      List.takeWhile_cons_of_neg (by simp [Step.isMissing])
    have hfault : scope.walk.findSome? (·.fault? label) =
        some (.unresolvedDependency label item.name dependency) := by
      rw [hwalk, findSome?_fault?_append label hfront]
      rfl
    simp only [Walking.weighed, weigh, hfault, hcalls, htaken]
    rw [hwalk, takeWhile_append hfront, hmissing, List.append_nil]

theorem Runs.eq_of_halted {final : Walking} (h : scope.advance final = none)
    (hr : scope.Runs final now) : now = final := by
  rcases ReflTransGen.cases_head hr with rfl | ⟨next, hs, _⟩
  · rfl
  · cases h.symm.trans hs

theorem Runs.to_final {final : Walking} (hr : scope.Runs now mid) (hf : scope.Runs now final)
    (hend : scope.advance final = none) : scope.Runs mid final := by
  have hunique : Relator.RightUnique fun now next => scope.advance now = some next := by
    intro now next other hn ho
    exact Option.some.inj (hn.symm.trans ho)
  rcases ReflTransGen.total_of_right_unique hunique hr hf with h | h
  · exact h
  · rw [Runs.eq_of_halted hend h]
    exact .refl

theorem walking_ends (scope : Scope) (label : String) :
    ∃ final, scope.advance final = none ∧ final.weighed scope label = scope.weigh label ∧
      ∀ now, scope.Runs scope.outset now →
        scope.Runs now final ∧
        now.path.Nodup ∧ (∀ name ∈ now.path, scope.Free name) ∧ now.path.IsChain scope.Needs ∧
        now.path = (now.calls.map (·.item.name)).reverse ∧
        now.calls.length ≤ scope.names.length ∧ scope.names.length ≤ scope.items.length ∧
        ∀ item below, now.calls = ⟨item, item.dependencies⟩ :: below →
          scope.Performs now (scope.follow now.path item)
            { now with
              calls := ⟨item, []⟩ :: below
              steps := now.steps ++ scope.follow now.path item } := by
  obtain ⟨final, hfinal, hend, hweighed⟩ := scope.exists_final label
  refine ⟨final, hend, hweighed, ?_⟩
  intro now hr
  have horderly := scope.orderly_outset.run hr
  refine ⟨hr.to_final hfinal hend, horderly.nodup, horderly.free, horderly.isChain,
    horderly.path_eq, horderly.length_calls_le, scope.length_names_le, ?_⟩
  intro item below hcalls
  obtain ⟨starts, calls, path, steps⟩ := now
  obtain rfl : calls = _ := hcalls
  rw [follow_eq]
  exact scope.performs_call path item item.dependencies below starts steps

end Scope

namespace Sample

def ringedDeep : Walking where
  starts := [⟨"vlan", ["ring"]⟩, ⟨"trunk", ["mode"]⟩, ⟨"mode", ["base", "ring"]⟩, ⟨"base", ["ring"]⟩]
  calls := [⟨⟨"mode", ["base", "ring"]⟩, ["base", "ring"]⟩, ⟨⟨"trunk", ["mode"]⟩, []⟩,
    ⟨⟨"ring", ["vlan", "trunk", "base"]⟩, ["base"]⟩]
  path := ["ring", "trunk", "mode"]
  steps := [.reach "ring", .reach "vlan", .reach "ring", .close ["ring", "vlan", "ring"],
    .reach "trunk", .reach "mode"]

theorem runs_ringedDeep : ringed.Runs ringed.outset ringedDeep :=
  .head rfl <| .head rfl <| .head rfl <| .head rfl <| .head rfl <| .single rfl

end Sample

namespace Scope

theorem sample_mode_called :
    Sample.ringed.Runs Sample.ringed.outset Sample.ringedDeep ∧
      Sample.ringedDeep.path.IsChain Sample.ringed.Needs ∧
      Sample.ringed.Runs Sample.ringedDeep { Sample.ringedDeep with
        calls := ⟨⟨"mode", ["base", "ring"]⟩, []⟩ :: Sample.ringedDeep.calls.tail
        steps := Sample.ringedDeep.steps ++
          [.reach "ring", .close ["ring", "trunk", "mode", "ring"]] } := by
  obtain ⟨_, _, _, hall⟩ := walking_ends Sample.ringed "test"
  obtain ⟨_, _, _, hchain, _, _, _, hcall⟩ := hall _ Sample.runs_ringedDeep
  have hfollow : Sample.ringed.follow Sample.ringedDeep.path ⟨"mode", ["base", "ring"]⟩ =
      [.reach "ring", .close ["ring", "trunk", "mode", "ring"]] := by cbv
  have hperforms := hcall ⟨"mode", ["base", "ring"]⟩ _ rfl
  rw [hfollow] at hperforms
  refine ⟨Sample.runs_ringedDeep, hchain, ?_⟩
  rcases hperforms with ⟨_, _, hrun⟩ | ⟨_, front, back, name, dependency, hwork, _⟩
  · exact hrun
  · have hmissing : .missing name dependency ∈ front ++ .missing name dependency :: back := by simp
    rw [← hwork] at hmissing
    simp at hmissing

end Scope

end ApplianceScript
