import ApplianceScript.Proofs.Trails
import Mathlib.Data.List.Cycle

namespace ApplianceScript

theorem closing_append {before : List String} {name : String} (h : name ∉ before)
    (after : List String) : closing (before ++ name :: after) name = name :: (after ++ [name]) := by
  have hbefore : ∀ other ∈ before, (other != name) = true := by
    intro other hother
    rw [bne_iff_ne]
    rintro rfl
    exact h hother
  rw [closing, List.dropWhile_append_of_pos hbefore, List.dropWhile_cons_of_neg (by simp),
    List.cons_append]

namespace Scope

open Relation

/-- Different items in a circle, each of which needs the next one. -/
structure Elementary (scope : Scope) (circle : Cycle String) : Prop where
  ne_nil : circle ≠ .nil
  nodup : circle.Nodup
  chain : circle.Chain scope.Needs

variable {scope : Scope} {label : String} {table : WeightTable}

theorem elementary_coe_iff (start : String) (rest : List String) :
    scope.Elementary ↑(start :: rest) ↔
      (start :: rest).Nodup ∧ (start :: (rest ++ [start])).IsChain scope.Needs := by
  constructor
  · rintro ⟨_, hn, hc⟩
    exact ⟨Cycle.nodup_coe_iff.mp hn, (Cycle.chain_coe_cons ..).mp hc⟩
  · rintro ⟨hn, hc⟩
    exact ⟨by simp, Cycle.nodup_coe_iff.mpr hn, (Cycle.chain_coe_cons ..).mpr hc⟩

theorem free_of_isChain {path : List String} {last : String}
    (hc : (path ++ [last]).IsChain scope.Needs) : ∀ name ∈ path, scope.Free name := by
  intro name hm
  obtain ⟨before, after, rfl⟩ := List.append_of_mem hm
  rw [List.append_assoc, List.cons_append] at hc
  cases after with
  | nil => exact (List.isChain_append_cons_cons.mp hc).2.1.free_left
  | cons next after => exact (List.isChain_append_cons_cons.mp hc).2.1.free_left

theorem Elementary.exists_of_mem_lists {circle : Cycle String} (h : scope.Elementary circle)
    {names : List String} (hm : names ∈ circle.lists) :
    ∃ start rest, names = start :: rest ∧ scope.Elementary ↑(start :: rest) := by
  obtain rfl := Cycle.mem_lists_iff_coe_eq.mp hm
  cases names with
  | nil => exact absurd rfl h.ne_nil
  | cons start rest => exact ⟨start, rest, rfl, h⟩

namespace Trail

variable {path : List String} {name next : String}

theorem exists_closed (h : scope.Trail path name) (hn : scope.Needs name next) (hp : next ∈ path) :
    ∃ rest, closing path next = next :: (rest ++ [next]) ∧ scope.Elementary ↑(next :: rest) := by
  obtain ⟨before, after, hpath⟩ := List.append_of_mem hp
  have hnodup := h.nodup
  have hchain := h.isChain
  obtain ⟨front, hlast⟩ := h.exists_eq_concat
  have hfresh : next ∉ before := by
    rw [hpath] at hnodup
    intro hmem
    exact (List.nodup_append.mp hnodup).2.2 next hmem next List.mem_cons_self rfl
  have hclosed : (path ++ [next]).IsChain scope.Needs := by
    rw [hlast, List.append_assoc, List.singleton_append, List.isChain_append_cons_cons]
    exact ⟨hlast ▸ hchain, hn, .singleton _⟩
  rw [hpath] at hnodup hclosed
  refine ⟨after, hpath ▸ closing_append hfresh after, (elementary_coe_iff next after).mpr ⟨?_, ?_⟩⟩
  · exact (List.nodup_append.mp hnodup).2.1
  · rw [List.append_assoc] at hclosed
    exact hclosed.right_of_append

end Trail

theorem exists_elementary_of_close_mem_walk {cycle : List String} (hc : .close cycle ∈ scope.walk) :
    ∃ start rest, cycle = start :: (rest ++ [start]) ∧ scope.Elementary ↑(start :: rest) := by
  obtain ⟨path, name, next, h, hn, hp, rfl⟩ := (close_mem_walk_iff cycle).mp hc
  obtain ⟨rest, heq, helementary⟩ := h.exists_closed hn hp
  exact ⟨next, rest, heq, helementary⟩

theorem close_mem_walk_of_elementary {start : String} {rest : List String}
    (h : scope.Elementary ↑(start :: rest)) : .close (start :: (rest ++ [start])) ∈ scope.walk := by
  obtain ⟨hn, hc⟩ := (elementary_coe_iff start rest).mp h
  rw [← List.cons_append] at hc
  have hfree := free_of_isChain hc start List.mem_cons_self
  obtain ⟨last, htrail⟩ := Trail.of_isChain hfree hn hc.left_of_append
  obtain ⟨before, hbefore⟩ := htrail.exists_eq_concat
  rw [hbefore, List.append_assoc, List.singleton_append, List.isChain_append_cons_cons] at hc
  have hclosing : closing (start :: rest) start = start :: (rest ++ [start]) :=
    closing_append List.not_mem_nil rest
  exact (close_mem_walk_iff _).mpr
    ⟨_, last, start, htrail, hc.2.1, List.mem_cons_self, hclosing⟩

theorem exists_trail_of_reflTransGen (hopen : ∀ cycle, .close cycle ∉ scope.walk) {a b : String}
    (hf : scope.Free a) (h : ReflTransGen scope.Needs a b) : ∃ path, scope.Trail path b ∧ a ∈ path := by
  induction h with
  | refl => exact ⟨[a], .start hf, List.mem_singleton_self a⟩
  | tail _ hn ih =>
    obtain ⟨path, htrail, ha⟩ := ih
    have hp : _ ∉ path := fun hp =>
      hopen _ ((close_mem_walk_iff _).mpr ⟨path, _, _, htrail, hn, hp, rfl⟩)
    exact ⟨_, htrail.move hn hp, List.mem_append_left _ ha⟩

theorem exists_close_mem_walk_iff :
    (∃ cycle, .close cycle ∈ scope.walk) ↔ ∃ name, scope.OnCycle name := by
  constructor
  · rintro ⟨cycle, hc⟩
    obtain ⟨path, name, next, h, hn, hp, _⟩ := (close_mem_walk_iff cycle).mp hc
    exact ⟨next, .tail' (h.reflTransGen next hp) hn⟩
  · rintro ⟨name, hcycle⟩
    by_contra hnone
    obtain ⟨last, hlead, hn⟩ := TransGen.tail'_iff.mp hcycle
    obtain ⟨path, htrail, hp⟩ :=
      exists_trail_of_reflTransGen (not_exists.mp hnone) hn.free_right hlead
    exact hnone ⟨_, (close_mem_walk_iff _).mpr ⟨path, last, name, htrail, hn, hp, rfl⟩⟩

theorem mem_cycles_iff (hw : (scope.weigh label).result = .ok table) (cycle : List String) :
    cycle ∈ table.cycles ↔ .close cycle ∈ scope.walk := by
  obtain ⟨_, rfl⟩ := (scope.weigh_eq_ok_iff label table).mp hw
  rw [WeightTable.ofSteps, List.mem_filterMap]
  constructor
  · rintro ⟨step, hs, hc⟩
    cases step with
    | close other => exact Option.some.inj hc ▸ hs
    | reach _ => cases hc
    | missing _ _ => cases hc
  · exact fun hs => ⟨_, hs, rfl⟩

theorem elementary_cycles_recorded (hw : (scope.weigh label).result = .ok table) :
    (∀ cycle ∈ table.cycles, ∃ start rest, cycle = start :: (rest ++ [start]) ∧
        (start :: rest).Nodup ∧ (∀ name ∈ cycle, scope.Free name) ∧
        cycle.IsChain scope.Needs) ∧
      (∀ circle, scope.Elementary circle →
        ∀ names ∈ circle.lists, names ++ names.take 1 ∈ table.cycles) ∧
      (table.cycles = [] ↔ ∀ name, ¬ scope.OnCycle name) := by
  refine ⟨?_, ?_, ?_⟩
  · intro cycle hc
    obtain ⟨start, rest, rfl, h⟩ :=
      exists_elementary_of_close_mem_walk ((mem_cycles_iff hw cycle).mp hc)
    obtain ⟨hn, hchain⟩ := (elementary_coe_iff start rest).mp h
    refine ⟨start, rest, rfl, hn, ?_, hchain⟩
    intro name hname
    rw [← List.cons_append] at hchain
    apply free_of_isChain hchain
    rcases List.mem_cons.mp hname with rfl | hname
    · exact List.mem_cons_self
    · rcases List.mem_append.mp hname with hname | hname
      · exact List.mem_cons_of_mem _ hname
      · exact List.mem_singleton.mp hname ▸ List.mem_cons_self
  · intro circle h names hm
    obtain ⟨start, rest, rfl, h⟩ := h.exists_of_mem_lists hm
    exact (mem_cycles_iff hw _).mpr (close_mem_walk_of_elementary h)
  · rw [List.eq_nil_iff_forall_not_mem, ← not_exists, ← not_exists, ← exists_close_mem_walk_iff]
    simp only [mem_cycles_iff hw]

end Scope

namespace Sample

def ringed : Scope where
  items := [⟨"ring", ["vlan", "trunk", "base"]⟩, ⟨"vlan", ["ring"]⟩, ⟨"trunk", ["mode"]⟩,
    ⟨"mode", ["base", "ring"]⟩, ⟨"base", ["ring"]⟩]
  frozen name := name == "base"

def ringedTable : WeightTable where
  entries := [("ring", 9), ("vlan", 5), ("trunk", 5), ("mode", 5), ("base", 0)]
  cycles := [["ring", "vlan", "ring"], ["ring", "trunk", "mode", "ring"], ["vlan", "ring", "vlan"],
    ["ring", "trunk", "mode", "ring"], ["ring", "vlan", "ring"], ["trunk", "mode", "ring", "trunk"],
    ["ring", "vlan", "ring"], ["mode", "ring", "trunk", "mode"]]

theorem weigh_ringed : (ringed.weigh "test").result = .ok ringedTable := by cbv

theorem elementary_ring : ringed.Elementary ↑["ring", "trunk", "mode"] := by
  refine (Scope.elementary_coe_iff ..).mpr ⟨by decide, ?_⟩
  have hring : ringed.Needs "ring" "trunk" := ⟨_, rfl, rfl, by decide, rfl, by decide⟩
  have htrunk : ringed.Needs "trunk" "mode" := ⟨_, rfl, rfl, by decide, rfl, by decide⟩
  have hmode : ringed.Needs "mode" "ring" := ⟨_, rfl, rfl, by decide, rfl, by decide⟩
  simpa using ⟨hring, htrunk, hmode⟩

end Sample

namespace Scope

theorem sample_ring_recorded_from_trunk :
    (Sample.ringed.weigh "test").result = .ok Sample.ringedTable ∧
      Sample.ringed.Elementary ↑["ring", "trunk", "mode"] ∧
      ["trunk", "mode", "ring", "trunk"] ∈ Sample.ringedTable.cycles ∧
      ∃ name, Sample.ringed.OnCycle name := by
  obtain ⟨_, hcomplete, hnone⟩ := elementary_cycles_recorded Sample.weigh_ringed
  have hrotated : ["trunk", "mode", "ring"] ∈ Cycle.lists ↑["ring", "trunk", "mode"] :=
    Cycle.mem_lists_iff_coe_eq.mpr (Cycle.coe_eq_coe.mpr ⟨2, rfl⟩)
  refine ⟨Sample.weigh_ringed, Sample.elementary_ring,
    hcomplete _ Sample.elementary_ring _ hrotated, ?_⟩
  by_contra hacyclic
  cases hnone.mpr (not_exists.mp hacyclic)

end Scope

end ApplianceScript
