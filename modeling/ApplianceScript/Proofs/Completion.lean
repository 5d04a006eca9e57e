import ApplianceScript.Plan.Basic
import Mathlib.Data.List.GetD
import Mathlib.Data.List.Nodup
import Mathlib.Data.List.Perm.Basic

namespace ApplianceScript

namespace Schedule

theorem pick_lt (choice : Nat) {underWay : Nat} (h : 0 < underWay) : pick choice underWay < underWay :=
  Nat.mod_lt choice h

theorem completions_perm {α : Type} (width : Nat) (schedule : Schedule) (tasks : List α) :
    (completions width schedule tasks).Perm tasks := by
  induction schedule generalizing tasks with
  | nil => rw [completions]
  | cons choice rest ih =>
    cases tasks with
    | nil => rw [completions]; simp
    | cons task tasks =>
      rw [completions]
      have hpos : 0 < min (capacity width) (tasks.length + 1) := by
        simp only [capacity]
        omega
      have hlt := pick_lt choice hpos
      have hindex : pick choice (min (capacity width) (tasks.length + 1)) <
          (task :: tasks).length := by
        rw [List.length_cons]
        omega
      rw [List.getD_eq_getElem _ _ hindex]
      exact ((ih _).cons _).trans (List.getElem_cons_eraseIdx_perm hindex)

end Schedule

namespace Plan

theorem mergeSort_eq_of_perm {finished tasks : List Finished} (hp : finished.Perm tasks)
    (ht : tasks.Pairwise fun a b => a.position < b.position) :
    (finished.mergeSort fun a b => a.position ≤ b.position) = tasks := by
  let le (a b : Finished) : Prop := a.position ≤ b.position
  have hperm := (List.mergeSort_perm finished fun a b => decide (le a b)).trans hp
  have htrans (a b c : Finished) (hab : decide (le a b) = true) (hbc : decide (le b c) = true) :
      decide (le a c) = true := by
    simp only [le, decide_eq_true_eq] at *
    omega
  have htotal (a b : Finished) : (decide (le a b) || decide (le b a)) = true := by
    simp only [le, Bool.or_eq_true, decide_eq_true_eq]
    omega
  have hsorted : (finished.mergeSort fun a b => decide (le a b)).Pairwise le := by
    simpa only [decide_eq_true_eq] using List.pairwise_mergeSort htrans htotal finished
  refine List.Perm.eq_of_pairwise ?_ hsorted (ht.imp fun h => Nat.le_of_lt h) hperm
  intro a b ha hb hab hba
  have hinj := List.inj_on_of_nodup_map (f := Finished.position)
    (List.pairwise_map.mpr (ht.imp fun h => Nat.ne_of_lt h))
  exact hinj (hperm.mem_iff.mp ha) hb (Nat.le_antisymm hab hba)

theorem position_task (catalog : Catalog) (ownership : Ownership) (position : Nat)
    (name : String) : (task catalog ownership position name).2.position = position := by
  unfold task
  split <;> rfl

def tasks (catalog : Catalog) (order : List String) (ownership : Ownership) :
    List (List CycleWarning × Finished) :=
  order.zipIdx.map fun (name, position) => task catalog ownership position name

variable (catalog : Catalog) (order : List String) (ownership : Ownership)

theorem pairwise_position_tasks :
    ((tasks catalog order ownership).map (·.2)).Pairwise fun a b => a.position < b.position := by
  have hpositions : ((tasks catalog order ownership).map (·.2)).map Finished.position =
      List.range order.length := by
    simp only [tasks, List.map_map, Function.comp_def, position_task, List.range_eq_range']
    exact List.zipIdx_map_snd ..
  rw [← List.pairwise_map (f := Finished.position), hpositions]
  exact List.pairwise_lt_range

theorem collect_eq_of_perm {completed : List (List CycleWarning × Finished)}
    (hp : completed.Perm (tasks catalog order ownership)) :
    collect (completed.map (·.2)) =
      order.zipIdx.mapM fun (name, position) =>
        (task catalog ownership position name).2.result := by
  unfold collect
  rw [mergeSort_eq_of_perm (hp.map (·.2)) (pairwise_position_tasks catalog order ownership),
    List.mapM_map, tasks, List.mapM_map]
  rfl

variable (schedule : Schedule) (width : Nat)

theorem result_orderElements :
    (orderElements schedule width catalog order ownership).result =
      order.zipIdx.mapM fun (name, position) =>
        (task catalog ownership position name).2.result :=
  collect_eq_of_perm catalog order ownership (Schedule.completions_perm width schedule _)

theorem warnings_orderElements_perm :
    (orderElements schedule width catalog order ownership).warnings.Perm
      ((tasks catalog order ownership).flatMap (·.1)) :=
  (Schedule.completions_perm width schedule _).flatMap_right _

end Plan

end ApplianceScript
