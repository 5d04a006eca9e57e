import ApplianceScript.Proofs.Rearrangement

namespace ApplianceScript.Catalog

def offer (catalog : Catalog) (m : ConfigModule) : Catalog × Option ConfigModule :=
  match catalog.insert m with
  | .ok larger => (larger, none)
  | .error rejected => (catalog, some rejected)

def offered (modules : List ConfigModule) : Catalog :=
  modules.foldl (fun catalog m => (catalog.offer m).1) empty

def firstOfEach (modules : List ConfigModule) : List ConfigModule :=
  (modules.map (·.name)).eraseDups.filterMap fun name => modules.find? (·.name == name)

variable {catalog : Catalog} {m : ConfigModule}

theorem offer_of_mem (h : m.name ∈ catalog.names) : catalog.offer m = (catalog, some m) := by
  rw [offer, insert_of_mem h]

theorem exists_offer (h : m.name ∉ catalog.names) :
    ∃ larger, catalog.offer m = (larger, none) ∧ larger.modules = catalog.modules ++ [m] := by
  obtain ⟨larger, hinsert, hmodules⟩ := exists_insert h
  exact ⟨larger, by rw [offer, hinsert], hmodules⟩

theorem offered_concat (modules : List ConfigModule) (m : ConfigModule) :
    offered (modules ++ [m]) = ((offered modules).offer m).1 := by
  rw [offered, List.foldl_append]
  rfl

theorem names_offered (modules : List ConfigModule) :
    (offered modules).names = (modules.map (·.name)).eraseDups := by
  induction modules using List.reverseRecOn with
  | nil => rfl
  | append_singleton modules m ih =>
    have hiff : m.name ∈ (offered modules).names ↔ m.name ∈ modules.map (·.name) := by
      rw [ih, List.mem_eraseDups]
    rw [offered_concat, List.map_append, List.map_singleton, eraseDups_concat, ← ih]
    split <;> rename_i hm
    · rw [offer_of_mem (hiff.mpr hm)]
    · obtain ⟨larger, hoffer, hmodules⟩ := exists_offer (mt hiff.mp hm)
      rw [hoffer, names, hmodules, List.map_append]
      rfl

theorem mem_names_offered_iff (modules : List ConfigModule) (name : String) :
    name ∈ (offered modules).names ↔ name ∈ modules.map (·.name) := by
  rw [names_offered, List.mem_eraseDups]

theorem get?_or_find?_singleton (h : m.name ∈ catalog.names) (name : String) :
    (catalog.get? name).or ([m].find? (·.name == name)) = catalog.get? name := by
  by_cases hname : m.name = name
  · obtain ⟨found, hfound, hkey⟩ := List.mem_map.mp h
    have hget := (catalog.get?_eq_some_iff name found).mpr ⟨hfound, hkey.trans hname⟩
    rw [hget, Option.some_or]
  · have hnone : [m].find? (·.name == name) = none := by simpa using hname
    rw [hnone, Option.or_none]

theorem get?_offered (modules : List ConfigModule) (name : String) :
    (offered modules).get? name = modules.find? (·.name == name) := by
  induction modules using List.reverseRecOn with
  | nil => rfl
  | append_singleton modules m ih =>
    rw [offered_concat, List.find?_append, ← ih]
    by_cases hm : m.name ∈ (offered modules).names
    · rw [offer_of_mem hm, get?_or_find?_singleton hm]
    · obtain ⟨larger, hoffer, hmodules⟩ := exists_offer hm
      rw [hoffer, get?, hmodules, List.find?_append]
      rfl

theorem modules_offered (modules : List ConfigModule) :
    (offered modules).modules = firstOfEach modules := by
  rw [← filterMap_get?_names, names_offered, firstOfEach]
  congr 1
  funext name
  exact get?_offered modules name

theorem offer_offered (modules : List ConfigModule) (m : ConfigModule) :
    (offered modules).offer m =
      if m.name ∈ modules.map (·.name) then (offered modules, some m)
      else (offered (modules ++ [m]), none) := by
  have hiff := mem_names_offered_iff modules m.name
  rw [offered_concat]
  split <;> rename_i hm
  · exact offer_of_mem (hiff.mpr hm)
  · obtain ⟨larger, hoffer, _⟩ := exists_offer (mt hiff.mp hm)
    rw [hoffer]

/-- Two modules of a list have one name, and up to the second of them no name occurs twice. The
positions of the two are counted from one. -/
def FirstClash (modules : List ConfigModule) (name : String) (first second : Nat) : Prop :=
  ∃ before earlier between later after,
    modules = before ++ earlier :: between ++ later :: after ∧
    ((before ++ earlier :: between).map (·.name)).Nodup ∧
    earlier.name = name ∧ later.name = name ∧
    first = before.length + 1 ∧ second = (before ++ earlier :: between).length + 1

variable {modules : List ConfigModule}

theorem exists_firstClash (h : ¬ (modules.map (·.name)).Nodup) :
    ∃ name first second, FirstClash modules name first second := by
  obtain ⟨front, later, after, rfl, hfront, hmem⟩ := exists_first_repeat h
  obtain ⟨earlier, hearlier, hname⟩ := List.mem_map.mp hmem
  obtain ⟨before, between, rfl⟩ := List.append_of_mem hearlier
  exact ⟨later.name, _, _, before, earlier, between, later, after, rfl, hfront, hname, rfl, rfl, rfl⟩

theorem FirstClash.ofList_eq {name : String} {first second : Nat}
    (h : FirstClash modules name first second) :
    ofList modules = .error (.duplicateModule name ("definition #" ++ toString first)
      ("definition #" ++ toString second)) := by
  obtain ⟨before, earlier, between, later, after, rfl, hn, hearlier, rfl, rfl, rfl⟩ := h
  have hnames : (empty.names ++ (before ++ earlier :: between).map (·.name)).Nodup := hn
  obtain ⟨catalog, hmodules, hextend⟩ := exists_extend_append hnames 1 (later :: after)
  have hlist : catalog.names =
      before.map (·.name) ++ later.name :: between.map (·.name) := by
    rw [names, hmodules, ← hearlier]
    simp [empty]
  have hmem : later.name ∈ catalog.names := by simp [hlist]
  have hfresh : later.name ∉ before.map (·.name) := by
    rw [← hearlier]
    rw [List.map_append, List.map_cons] at hn
    exact fun hb => (List.nodup_append.mp hn).2.2 _ hb _ List.mem_cons_self rfl
  -- The earlier module stands in the catalog where it stands in the list.
  have hfirst : catalog.names.idxOf? later.name = some before.length := by
    rw [hlist, idxOf?_append_cons hfresh, List.length_map]
  rw [ofList, hextend, extend, insert_of_mem hmem]
  simp only [hfirst, Option.getD_some, Nat.add_comm 1]

theorem modules_injective {other : Catalog} (h : catalog.modules = other.modules) :
    catalog = other := by
  cases catalog
  cases other
  congr

theorem ofList_eq_ok_iff : ofList modules = .ok catalog ↔ catalog.modules = modules := by
  constructor
  · intro h
    by_cases hn : (modules.map (·.name)).Nodup
    · obtain ⟨found, hfound, hmodules⟩ := exists_ofList hn
      cases h.symm.trans hfound
      exact hmodules
    · obtain ⟨_, _, _, hclash⟩ := exists_firstClash hn
      cases h.symm.trans hclash.ofList_eq
  · rintro rfl
    obtain ⟨found, hfound, hmodules⟩ := exists_ofList catalog.distinct
    rw [hfound, modules_injective hmodules]

theorem exists_ofList_eq_ok_iff :
    (∃ catalog, ofList modules = .ok catalog) ↔ (modules.map (·.name)).Nodup := by
  constructor
  · rintro ⟨catalog, h⟩
    exact ofList_eq_ok_iff.mp h ▸ catalog.distinct
  · intro hn
    obtain ⟨catalog, h, _⟩ := exists_ofList hn
    exact ⟨catalog, h⟩

theorem ofList_eq_error_iff {error : CompileError} :
    ofList modules = .error error ↔ ∃ name first second, FirstClash modules name first second ∧
      error = .duplicateModule name ("definition #" ++ toString first)
        ("definition #" ++ toString second) := by
  constructor
  · intro h
    have hn : ¬ (modules.map (·.name)).Nodup := by
      intro hn
      obtain ⟨_, hok⟩ := exists_ofList_eq_ok_iff.mpr hn
      cases h.symm.trans hok
    obtain ⟨name, first, second, hclash⟩ := exists_firstClash hn
    exact ⟨name, first, second, hclash, Except.error.inj (h.symm.trans hclash.ofList_eq)⟩
  · rintro ⟨name, first, second, hclash, rfl⟩
    exact hclash.ofList_eq

theorem first_offers_kept (modules : List ConfigModule) :
    (offered modules).modules = firstOfEach modules ∧
      (offered modules).names = (modules.map (·.name)).eraseDups ∧
      (offered modules).names.Nodup ∧
      (∀ name m, (offered modules).get? name = some m ↔
        m ∈ (offered modules).modules ∧ m.name = name) ∧
      (∀ m, (offered modules).offer m =
        if m.name ∈ modules.map (·.name) then (offered modules, some m)
        else (offered (modules ++ [m]), none)) ∧
      ((∃ catalog, ofList modules = .ok catalog) ↔ (modules.map (·.name)).Nodup) ∧
      (∀ catalog, ofList modules = .ok catalog ↔ catalog.modules = modules) ∧
      ∀ error, ofList modules = .error error ↔
        ∃ name first second, FirstClash modules name first second ∧
          error = .duplicateModule name ("definition #" ++ toString first)
            ("definition #" ++ toString second) :=
  ⟨modules_offered modules, names_offered modules, (offered modules).nodup_names,
    (offered modules).get?_eq_some_iff, offer_offered modules, exists_ofList_eq_ok_iff,
    fun _ => ofList_eq_ok_iff, fun _ => ofList_eq_error_iff⟩

example : ofList [{ name := "Core" }, { name := "Network" }, { name := "Access" },
    { name := "Network" }, { name := "Core" }] =
      .error (.duplicateModule "Network" "definition #2" "definition #4") := by cbv

end ApplianceScript.Catalog
