import ApplianceScript.Proofs.CycleReports

/-!
The walks of a scope move by move, with one path for all of them.

Following a dependency opens a call and puts the name at the end of the path; when the call is done,
the name is taken off again. At any time the path is that of the open calls. It is a trail, so no
name is on it twice and no more calls are open than there are items. The moves come to an end, and
what they have counted by then is the weight table, or they stop at the unknown name that is
reported.
-/

namespace ApplianceScript

structure Call where
  item : Item
  pending : List String

/-- Walks under way: the items still to start from, the open calls, innermost first, the path and
the steps taken. -/
structure Walking where
  starts : List Item
  calls : List Call
  path : List String
  steps : List Step

namespace Scope

open Relation

def outset (scope : Scope) : Walking :=
  ⟨scope.names.filterMap scope.item?, [], [], []⟩

def advance (scope : Scope) (now : Walking) : Option Walking :=
  match now.calls with
  | [] =>
    match now.starts with
    | [] => none
    | item :: starts =>
      if scope.frozen item.name then some { now with starts }
      else
        some
          { starts
            calls := [⟨item, item.dependencies⟩]
            path := [item.name]
            steps := now.steps ++ [.reach item.name] }
  | ⟨_, []⟩ :: below => some { now with calls := below, path := now.path.dropLast }
  | ⟨item, b :: pending⟩ :: below =>
    if scope.frozen b then some { now with calls := ⟨item, pending⟩ :: below }
    else
      match scope.item? b with
      | none => none
      | some next =>
        if b ∈ now.path then
          some { now with
            calls := ⟨item, pending⟩ :: below
            steps := now.steps ++ [.reach b, .close (closing now.path b)] }
        else
          some { now with
            calls := ⟨next, next.dependencies⟩ :: ⟨item, pending⟩ :: below
            path := now.path ++ [b]
            steps := now.steps ++ [.reach b] }

def Runs (scope : Scope) : Walking → Walking → Prop :=
  ReflTransGen fun now next => scope.advance now = some next

variable {scope : Scope} {now next : Walking}

theorem advance_cases (h : scope.advance now = some next) :
    (∃ item starts, now.calls = [] ∧ now.starts = item :: starts ∧ next = { now with starts }) ∨
    (∃ item starts, now.calls = [] ∧ now.starts = item :: starts ∧
      scope.frozen item.name = false ∧
      next = ⟨starts, [⟨item, item.dependencies⟩], [item.name], now.steps ++ [.reach item.name]⟩) ∨
    (∃ item below, now.calls = ⟨item, []⟩ :: below ∧
      next = { now with calls := below, path := now.path.dropLast }) ∨
    (∃ item b pending below steps, now.calls = ⟨item, b :: pending⟩ :: below ∧
      next = { now with calls := ⟨item, pending⟩ :: below, steps }) ∨
    ∃ item b pending below found, now.calls = ⟨item, b :: pending⟩ :: below ∧
      scope.frozen b = false ∧ scope.item? b = some found ∧ b ∉ now.path ∧
      next = { now with
        calls := ⟨found, found.dependencies⟩ :: ⟨item, pending⟩ :: below
        path := now.path ++ [b]
        steps := now.steps ++ [.reach b] } := by
  unfold advance at h
  split at h
  · rename_i hcalls
    split at h
    · cases h
    · rename_i item starts hstarts
      split at h <;> rename_i hf <;> obtain rfl := Option.some.inj h
      · exact .inl ⟨item, starts, hcalls, hstarts, rfl⟩
      · exact .inr (.inl ⟨item, starts, hcalls, hstarts, by simpa using hf, rfl⟩)
  · rename_i item below hcalls
    obtain rfl := Option.some.inj h
    exact .inr (.inr (.inl ⟨item, below, hcalls, rfl⟩))
  · rename_i item b pending below hcalls
    split at h
    · obtain rfl := Option.some.inj h
      exact .inr (.inr (.inr (.inl ⟨item, b, pending, below, _, hcalls, rfl⟩)))
    · rename_i hf
      split at h
      · cases h
      · rename_i found hfound
        split at h <;> rename_i hp <;> obtain rfl := Option.some.inj h
        · exact .inr (.inr (.inr (.inl ⟨item, b, pending, below, _, hcalls, rfl⟩)))
        · exact .inr (.inr (.inr (.inr
            ⟨item, b, pending, below, found, hcalls, by simpa using hf, hfound, hp, rfl⟩)))

structure Orderly (scope : Scope) (now : Walking) : Prop where
  starts : ∀ item ∈ now.starts, scope.item? item.name = some item
  calls : ∀ call ∈ now.calls, scope.item? call.item.name = some call.item ∧
    call.pending ⊆ call.item.dependencies
  path_eq : now.path = (now.calls.map (·.item.name)).reverse
  trail : now.path = [] ∨ ∃ name, scope.Trail now.path name

theorem starts_outset {item : Item} (h : item ∈ scope.outset.starts) :
    scope.item? item.name = some item := by
  obtain ⟨name, _, hi⟩ := List.mem_filterMap.mp h
  rwa [(name_of_item? hi).2]

theorem orderly_outset (scope : Scope) : scope.Orderly scope.outset where
  starts := fun _ => starts_outset
  calls := by simp [outset]
  path_eq := rfl
  trail := .inl rfl

namespace Orderly

variable (h : scope.Orderly now)

include h

theorem trail_of_calls {call : Call} {below : List Call} (hc : now.calls = call :: below) :
    scope.Trail now.path call.item.name := by
  have hpath : now.path = (below.map (·.item.name)).reverse ++ [call.item.name] := by
    rw [h.path_eq, hc, List.map_cons, List.reverse_cons]
  rcases h.trail with hnil | ⟨name, htrail⟩
  · simp [hnil] at hpath
  · obtain ⟨before, hbefore⟩ := htrail.exists_eq_concat
    obtain ⟨_, rfl⟩ := List.append_singleton_inj.mp (hbefore.symm.trans hpath)
    exact htrail

theorem calls_pass {item : Item} {b : String} {pending : List String} {below : List Call}
    (hc : now.calls = ⟨item, b :: pending⟩ :: below) :
    ∀ call ∈ ⟨item, pending⟩ :: below, scope.item? call.item.name = some call.item ∧
      call.pending ⊆ call.item.dependencies := by
  intro call hcall
  rcases List.mem_cons.mp hcall with rfl | hcall
  · obtain ⟨hitem, hsubset⟩ := h.calls ⟨item, b :: pending⟩ (hc ▸ List.mem_cons_self)
    exact ⟨hitem, List.Subset.trans (List.subset_cons_self b pending) hsubset⟩
  · exact h.calls call (hc ▸ List.mem_cons_of_mem _ hcall)

theorem needs {item found : Item} {pending : List String} {below : List Call}
    (hc : now.calls = ⟨item, found.name :: pending⟩ :: below)
    (hf : scope.frozen found.name = false) (hfound : scope.item? found.name = some found) :
    scope.Needs item.name found.name := by
  obtain ⟨hitem, hsubset⟩ := h.calls ⟨item, found.name :: pending⟩ (hc ▸ List.mem_cons_self)
  have hfree := ((scope.free_iff item.name).mp (h.trail_of_calls hc).free_last).2
  exact needs_of_mem hitem hfree (hsubset List.mem_cons_self) hf
    ((scope.exists_item?_iff _).mp ⟨found, hfound⟩)

theorem advance (hs : scope.advance now = some next) : scope.Orderly next := by
  rcases advance_cases hs with
    ⟨item, starts, hcalls, hstarts, rfl⟩ | ⟨item, starts, hcalls, hstarts, hf, rfl⟩ |
    ⟨item, below, hcalls, rfl⟩ | ⟨item, b, pending, below, steps, hcalls, rfl⟩ |
    ⟨item, b, pending, below, found, hcalls, hf, hfound, hp, rfl⟩
  · exact { h with starts := fun other ho => h.starts other (hstarts ▸ List.mem_cons_of_mem _ ho) }
  · have hitem := h.starts item (hstarts ▸ List.mem_cons_self)
    have hfree := (scope.free_iff item.name).mpr
      ⟨(scope.exists_item?_iff item.name).mp ⟨item, hitem⟩, hf⟩
    exact {
      starts := fun other ho => h.starts other (hstarts ▸ List.mem_cons_of_mem _ ho)
      calls := by simpa using hitem
      path_eq := rfl
      trail := .inr ⟨item.name, .start hfree⟩ }
  · have htrail := h.trail_of_calls hcalls
    exact {
      starts := h.starts
      calls := fun call hc => h.calls call (hcalls ▸ List.mem_cons_of_mem _ hc)
      path_eq := by rw [h.path_eq, hcalls, List.map_cons, List.reverse_cons, List.dropLast_concat]
      trail := htrail.dropLast }
  · refine { h with calls := h.calls_pass hcalls, path_eq := ?_ }
    rw [h.path_eq, hcalls]
    rfl
  · obtain rfl := (name_of_item? hfound).2
    have htrail := (h.trail_of_calls hcalls).move (h.needs hcalls hf hfound) hp
    refine {
      starts := h.starts
      calls := ?_
      path_eq := ?_
      trail := .inr ⟨found.name, htrail⟩ }
    · intro call hc
      rcases List.mem_cons.mp hc with rfl | hc
      · exact ⟨hfound, List.Subset.refl _⟩
      · exact h.calls_pass hcalls call hc
    · rw [List.map_cons, List.reverse_cons, h.path_eq, hcalls]
      rfl

theorem run (hr : scope.Runs now next) : scope.Orderly next := by
  induction hr with
  | refl => exact h
  | tail _ hs ih => exact ih.advance hs

theorem nodup : now.path.Nodup := by
  rcases h.trail with hnil | ⟨_, htrail⟩
  · exact hnil ▸ List.nodup_nil
  · exact htrail.nodup

theorem free : ∀ name ∈ now.path, scope.Free name := by
  rcases h.trail with hnil | ⟨_, htrail⟩
  · simp [hnil]
  · exact htrail.free

theorem isChain : now.path.IsChain scope.Needs := by
  rcases h.trail with hnil | ⟨_, htrail⟩
  · exact hnil ▸ .nil
  · exact htrail.isChain

theorem length_calls_le : now.calls.length ≤ scope.names.length := by
  have hnames : now.path ⊆ scope.names := fun name hn =>
    ((scope.free_iff name).mp (h.free name hn)).1
  have hlength : now.path.length = now.calls.length := by
    rw [h.path_eq, List.length_reverse, List.length_map]
  rw [← hlength]
  exact (h.nodup.subperm hnames).length_le

end Orderly

theorem length_names_le (scope : Scope) : scope.names.length ≤ scope.items.length := by
  have hsubset : scope.names ⊆ scope.items.map (·.name) := fun _ hn => List.mem_eraseDups.mp hn
  simpa using (scope.nodup_names.subperm hsubset).length_le

end Scope

end ApplianceScript
