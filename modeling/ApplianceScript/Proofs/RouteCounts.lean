import ApplianceScript.Proofs.FallingWeights

/-!
What a weight counts.

A route starts at a free item and takes an entry of the dependency list of the item it has come to,
as long as the entry names a free item. An item weighs as much as there are routes that end at it
and pass no item twice before that end. An entry that stands twice in a list makes two routes.
-/

namespace ApplianceScript

theorem encard_pairs {α β : Type} {l : List α} (hn : l.Nodup) (part : α → Set β) :
    {p : α × β | p.1 ∈ l ∧ p.2 ∈ part p.1}.encard = (l.map fun a => (part a).encard).sum := by
  induction l with
  | nil => simp
  | cons a l ih =>
    obtain ⟨ha, hn⟩ := List.nodup_cons.mp hn
    have hsplit : {p : α × β | p.1 ∈ a :: l ∧ p.2 ∈ part p.1} =
        Prod.mk a '' part a ∪ {p : α × β | p.1 ∈ l ∧ p.2 ∈ part p.1} := by
      ext ⟨b, c⟩
      simp only [Set.mem_ofPred_eq, List.mem_cons, Set.mem_union, Set.mem_image, Prod.mk.injEq]
      constructor
      · rintro ⟨rfl | hb, hc⟩
        · exact .inl ⟨c, hc, rfl, rfl⟩
        · exact .inr ⟨hb, hc⟩
      · rintro (⟨_, hc, rfl, rfl⟩ | ⟨hb, hc⟩)
        · exact ⟨.inl rfl, hc⟩
        · exact ⟨.inr hb, hc⟩
    have hdisjoint : Disjoint (Prod.mk a '' part a) {p : α × β | p.1 ∈ l ∧ p.2 ∈ part p.1} := by
      rw [Set.disjoint_left]
      rintro _ ⟨c, _, rfl⟩ ⟨hb, _⟩
      exact ha hb
    rw [hsplit, Set.encard_union_eq hdisjoint, (Prod.mk_right_injective a).encard_image, ih hn,
      List.map_cons, List.sum_cons]

namespace Scope

def Defines (scope : Scope) (name : String) (item : Item) : Prop :=
  ∃ before after, scope.items = before ++ item :: after ∧ item.name = name ∧
    ∀ other ∈ after, other.name ≠ name

def Free (scope : Scope) (name : String) : Prop :=
  (∃ item, scope.Defines name item) ∧ scope.frozen name = false

/-- Moves from one free item to the next: the index of an entry in the dependency list of the item
that was come to, and the free item that the entry names. -/
inductive Route (scope : Scope) : String → List (Nat × String) → String → Prop
  | stay {name : String} (hf : scope.Free name) : Route scope name [] name
  | move {name next last : String} {item : Item} {index : Nat} {moves : List (Nat × String)}
    (hf : scope.Free name) (hi : scope.Defines name item)
    (hd : item.dependencies[index]? = some next) (h : Route scope next moves last) :
    Route scope name ((index, next) :: moves) last

def stops (start : String) (moves : List (Nat × String)) : List String :=
  start :: moves.map (·.2)

def routesTo (scope : Scope) (last : String) : Set (String × List (Nat × String)) :=
  {route | scope.Route route.1 route.2 last ∧ (stops route.1 route.2).dropLast.Nodup}

theorem defines_iff (scope : Scope) (name : String) (item : Item) :
    scope.Defines name item ↔ scope.item? name = some item := by
  unfold Defines item?
  rw [List.findRev?_eq_find?_reverse, List.find?_eq_some_iff_append]
  constructor
  · rintro ⟨before, after, heq, rfl, hlast⟩
    refine ⟨by simp, after.reverse, before.reverse, by simp [heq], ?_⟩
    intro other hother
    simpa using hlast other (List.mem_reverse.mp hother)
  · rintro ⟨hname, after, before, heq, hlast⟩
    refine ⟨before.reverse, after.reverse, ?_, by simpa using hname, ?_⟩
    · rw [← List.reverse_reverse scope.items, heq]
      simp
    · intro other hother
      simpa using hlast other (List.mem_reverse.mp hother)

theorem free_iff (scope : Scope) (name : String) :
    scope.Free name ↔ name ∈ scope.names ∧ scope.frozen name = false := by
  simp only [Free, defines_iff, exists_item?_iff]

/-- The routes from a name that is come to by a path, as far as the path and they repeat no name
before the last stop. -/
def onward (scope : Scope) (path : List String) (name last : String) :
    Set (List (Nat × String)) :=
  {moves | scope.Route name moves last ∧ (path ++ (stops name moves).dropLast).Nodup}

def onwardVia (scope : Scope) (path : List String) (dependencies : List String) (last : String) :
    Set (List (Nat × String)) :=
  {moves | ∃ index next rest, moves = (index, next) :: rest ∧
    dependencies[index]? = some next ∧ rest ∈ scope.onward path next last}

variable {scope : Scope} {path : List String} {name last : String}

theorem Route.free (h : scope.Route name moves last) : scope.Free name := by
  cases h with
  | stay hf => exact hf
  | move hf => exact hf

theorem onward_of_not_free (hf : ¬ scope.Free name) : scope.onward path name last = ∅ := by
  ext moves
  simp only [Set.mem_empty_iff_false, iff_false]
  exact fun h => hf h.1.free

theorem nil_mem_onward_iff (hf : scope.Free name) (hp : path.Nodup) :
    [] ∈ scope.onward path name last ↔ name = last := by
  constructor
  · rintro ⟨h, _⟩
    cases h
    rfl
  · rintro rfl
    exact ⟨.stay hf, by simpa [stops] using hp⟩

theorem cons_mem_onward_iff (hf : scope.Free name) {item : Item} (hi : scope.item? name = some item)
    (index : Nat) (next : String) (rest : List (Nat × String)) :
    (index, next) :: rest ∈ scope.onward path name last ↔
      item.dependencies[index]? = some next ∧ rest ∈ scope.onward (path ++ [name]) next last := by
  have hstops : path ++ (stops name ((index, next) :: rest)).dropLast =
      path ++ [name] ++ (stops next rest).dropLast := by
    simp [stops]
  unfold onward
  rw [Set.mem_ofPred_eq, Set.mem_ofPred_eq, hstops]
  constructor
  · rintro ⟨h, hn⟩
    cases h with
    | move _ hi' hd h =>
      obtain rfl := Option.some.inj (hi.symm.trans ((scope.defines_iff ..).mp hi'))
      exact ⟨hd, h, hn⟩
  · rintro ⟨hd, h, hn⟩
    exact ⟨.move hf ((scope.defines_iff ..).mpr hi) hd h, hn⟩

theorem encard_nil_when (name last : String) :
    {moves : List (Nat × String) | moves = [] ∧ name = last}.encard =
      ([Step.reach name].count (.reach last) : ℕ∞) := by
  by_cases h : name = last
  · simp [h]
  · simp [h]

theorem onward_closed (hf : scope.Free name) (hp : path.Nodup) (hm : name ∈ path) :
    scope.onward path name last = {moves | moves = [] ∧ name = last} := by
  obtain ⟨item, hi⟩ := (scope.exists_item?_iff name).mpr ((scope.free_iff name).mp hf).1
  ext moves
  cases moves with
  | nil => simp [nil_mem_onward_iff hf hp]
  | cons move rest =>
    obtain ⟨index, next⟩ := move
    simp only [cons_mem_onward_iff hf hi, Set.mem_ofPred_eq, reduceCtorEq, false_and, iff_false]
    rintro ⟨_, _, hn⟩
    have hpath := (List.nodup_append.mp hn).1
    exact (List.nodup_append.mp hpath).2.2 name hm name (List.mem_singleton_self name) rfl

theorem onward_open (hf : scope.Free name) (hp : path.Nodup) {item : Item}
    (hi : scope.item? name = some item) :
    scope.onward path name last = {moves | moves = [] ∧ name = last} ∪
      scope.onwardVia (path ++ [name]) item.dependencies last := by
  ext moves
  cases moves with
  | nil => simp [nil_mem_onward_iff hf hp, onwardVia]
  | cons move rest =>
    obtain ⟨index, next⟩ := move
    simp [cons_mem_onward_iff hf hi, onwardVia]

theorem encard_onwardVia (scope : Scope) (path dependencies : List String) (last : String) :
    (scope.onwardVia path dependencies last).encard =
      (dependencies.map fun next => (scope.onward path next last).encard).sum := by
  let begin (p : (String × Nat) × List (Nat × String)) : List (Nat × String) :=
    (p.1.2, p.1.1) :: p.2
  have hinjective : begin.Injective := by
    rintro ⟨⟨_, _⟩, _⟩ ⟨⟨_, _⟩, _⟩ h
    simpa [begin, and_comm, and_assoc] using h
  have himage : scope.onwardVia path dependencies last = begin ''
      {p | p.1 ∈ dependencies.zipIdx ∧ p.2 ∈ scope.onward path p.1.1 last} := by
    ext moves
    constructor
    · rintro ⟨index, next, rest, rfl, hd, hrest⟩
      exact ⟨((next, index), rest), ⟨List.mk_mem_zipIdx_iff_getElem?.mpr hd, hrest⟩, rfl⟩
    · rintro ⟨⟨⟨next, index⟩, rest⟩, ⟨hd, hrest⟩, rfl⟩
      exact ⟨index, next, rest, rfl, List.mk_mem_zipIdx_iff_getElem?.mp hd, hrest⟩
  have hnodup : dependencies.zipIdx.Nodup := by
    apply List.Nodup.of_map (·.2)
    rw [List.zipIdx_map_snd]
    exact List.nodup_range'
  have hmap : dependencies.zipIdx.map (fun entry => (scope.onward path entry.1 last).encard) =
      dependencies.map fun next => (scope.onward path next last).encard := by
    conv_rhs => rw [← List.zipIdx_map_fst 0 dependencies, List.map_map]
    rfl
  rw [himage, hinjective.encard_image,
    encard_pairs hnodup fun entry => scope.onward path entry.1 last, hmap]

theorem encard_onward_branch (item : Item) (hp : path.Nodup)
    (hopen : ∀ next, scope.frozen name = false → scope.item? name = some next → name ∉ path →
      (scope.onwardVia (path ++ [name]) next.dependencies last).encard =
        ((scope.follow (path ++ [name]) next).count (.reach last) : ℕ∞)) :
    (scope.onward path name last).encard =
      ((scope.branch path item name).count (.reach last) : ℕ∞) := by
  cases hf : scope.frozen name with
  | true =>
    have hnot : ¬ scope.Free name := by simp [free_iff, hf]
    simp [onward_of_not_free hnot, branch_frozen scope path item hf]
  | false =>
    by_cases hn : name ∈ scope.names
    · have hfree := (scope.free_iff name).mpr ⟨hn, hf⟩
      by_cases hm : name ∈ path
      · rw [onward_closed hfree hp hm, encard_nil_when, branch_closed scope path item hf hn hm]
        simp [List.count_cons]
      · obtain ⟨next, hnext⟩ := (scope.exists_item?_iff name).mpr hn
        have hdisjoint : Disjoint {moves : List (Nat × String) | moves = [] ∧ name = last}
            (scope.onwardVia (path ++ [name]) next.dependencies last) := by
          rw [Set.disjoint_left]
          rintro _ ⟨rfl, _⟩ ⟨_, _, _, h, _⟩
          cases h
        rw [onward_open hfree hp hnext, Set.encard_union_eq hdisjoint, encard_nil_when,
          hopen next hf hnext hm, branch_open scope path item hf hnext hm, ← Nat.cast_add,
          ← List.count_append, List.singleton_append]
    · have hnot : ¬ scope.Free name := by simp [free_iff, hn]
      simp [onward_of_not_free hnot, branch_missing scope path item hf hn]

theorem encard_onwardVia_eq_count (path : List String) (item : Item) (hp : path.Nodup)
    (last : String) :
    (scope.onwardVia path item.dependencies last).encard =
      ((scope.follow path item).count (.reach last) : ℕ∞) := by
  induction path, item using follow.induct scope with
  | case1 path item ih =>
    rw [encard_onwardVia, follow_eq, List.count_flatMap, Nat.cast_list_sum, List.map_map]
    congr 1
    apply List.map_congr_left
    intro name _
    apply encard_onward_branch item hp
    intro next _ hnext hm
    apply ih name next hnext hm
    rw [List.nodup_append]
    refine ⟨hp, List.nodup_singleton name, ?_⟩
    rintro a ha b hb rfl
    exact hm (List.mem_singleton.mp hb ▸ ha)

theorem encard_onward_nil (name last : String) :
    (scope.onward [] name last).encard = ((scope.walkFrom name).count (.reach last) : ℕ∞) := by
  have hbranch : (scope.onward [] name last).encard =
      ((scope.branch [] ⟨name, []⟩ name).count (.reach last) : ℕ∞) :=
    encard_onward_branch ⟨name, []⟩ List.nodup_nil fun next _ _ _ =>
      encard_onwardVia_eq_count [name] next (List.nodup_singleton name) last
  rw [hbranch]
  congr 1
  cases hf : scope.frozen name with
  | true => rw [branch_frozen scope _ _ hf, walkFrom_frozen scope hf]
  | false =>
    cases hi : scope.item? name with
    | none =>
      rw [branch_missing scope _ _ hf ((scope.item?_eq_none_iff name).mp hi), walkFrom, hi]
      simp
    | some item =>
      obtain rfl := (name_of_item? hi).2
      rw [branch_open scope _ _ hf hi List.not_mem_nil, walkFrom_eq hi hf, List.nil_append]

theorem encard_routesTo (scope : Scope) (last : String) :
    (scope.routesTo last).encard = (scope.walk.count (.reach last) : ℕ∞) := by
  have hroutes : scope.routesTo last =
      {route | route.1 ∈ scope.names ∧ route.2 ∈ scope.onward [] route.1 last} := by
    ext ⟨start, moves⟩
    constructor
    · intro h
      exact ⟨((scope.free_iff start).mp h.1.free).1, h⟩
    · exact fun h => h.2
  rw [hroutes, encard_pairs scope.nodup_names fun start => scope.onward [] start last, walk,
    List.count_flatMap, Nat.cast_list_sum, List.map_map]
  congr 1
  apply List.map_congr_left
  intro start _
  exact encard_onward_nil start last

theorem routesTo_of_frozen (hf : scope.frozen last = true) : scope.routesTo last = ∅ := by
  have hnot : ∀ start moves, ¬ scope.Route start moves last := by
    intro start moves h
    induction h with
    | stay hfree => simp [hfree.2] at hf
    | move _ _ _ _ ih => exact ih hf
  ext ⟨start, moves⟩
  simp only [Set.mem_empty_iff_false, iff_false]
  exact fun h => hnot start moves h.1

theorem weight_eq_encard_routesTo {label : String} {table : WeightTable}
    (weighed : (scope.weigh label).result = .ok table) :
    (table.entries.map (·.1)).Pairwise (fun a b =>
        (scope.items.map (·.name)).idxOf a < (scope.items.map (·.name)).idxOf b) ∧
      ∀ name, (table.weight? name = none ↔ ∀ item ∈ scope.items, item.name ≠ name) ∧
        ∀ weight, table.weight? name = some weight →
          (scope.frozen name = true → weight = 0) ∧
          (scope.frozen name = false → (scope.routesTo name).encard = weight) := by
  have hweight : ∀ name ∈ scope.names,
      table.weight? name = some (scope.walk.count (.reach name)) :=
    fun _ => weight?_of_weigh weighed
  obtain ⟨_, rfl⟩ := (scope.weigh_eq_ok_iff label table).mp weighed
  constructor
  · have hnames : (WeightTable.ofSteps scope.names scope.walk).entries.map (·.1) = scope.names := by
      simp [WeightTable.ofSteps, Function.comp_def]
    rw [hnames]
    exact pairwise_idxOf_eraseDups _
  · intro name
    have hmem := scope.mem_names_iff name
    constructor
    · by_cases hn : name ∈ scope.names
      · simp only [hweight name hn, reduceCtorEq, false_iff, not_forall]
        obtain ⟨item, hitem, hname⟩ := hmem.mp hn
        exact ⟨item, hitem, by simpa using hname⟩
      · rw [WeightTable.weight?_ofSteps, if_neg hn]
        simpa using fun item hitem hname => hn (hmem.mpr ⟨item, hitem, hname⟩)
    · intro weight hw
      have hn : name ∈ scope.names := by
        by_contra hn
        rw [WeightTable.weight?_ofSteps, if_neg hn] at hw
        cases hw
      obtain rfl := Option.some.inj ((hweight name hn).symm.trans hw)
      have hcount := scope.encard_routesTo name
      constructor
      · intro hf
        rw [routesTo_of_frozen hf, Set.encard_empty] at hcount
        exact_mod_cast hcount.symm
      · exact fun _ => hcount

end Scope

namespace Sample

def redefined : Scope where
  items := [⟨"vlan", ["acl"]⟩, ⟨"acl", ["vlan", "base", "vlan"]⟩, ⟨"vlan", ["vlan"]⟩]
  frozen name := name == "base"

def redefinedTable : WeightTable where
  entries := [("vlan", 6), ("acl", 1)]
  cycles := [["vlan", "vlan"], ["vlan", "vlan"], ["vlan", "vlan"]]

theorem weigh_redefined : (redefined.weigh "test").result = .ok redefinedTable := by cbv

end Sample

namespace Scope

theorem sample_six_routes :
    (Sample.redefined.weigh "test").result = .ok Sample.redefinedTable ∧
      (Sample.redefined.routesTo "vlan").encard = 6 :=
  ⟨Sample.weigh_redefined,
    (((weight_eq_encard_routesTo Sample.weigh_redefined).2 "vlan").2 6 (by decide)).2 (by decide)⟩

end Scope

end ApplianceScript
