import ApplianceScript.Proofs.ModuleFiles
import Mathlib

namespace ApplianceScript

namespace LibraryFile

structure Holds (parse : String → Option ConfigModule) (file : LibraryFile) (m : ConfigModule) :
    Prop where
  parsed : ∃ text : String, file.content = text.toUTF8 ∧ parse text = some m
  named : Text.isBlank m.name = false

inductive Refused (parse : String → Option ConfigModule)
    (earlier : List (LibraryFile × ConfigModule)) (file : LibraryFile) : Failure → Prop
  | unreadable : (∀ text : String, file.content ≠ text.toUTF8) →
      Refused parse earlier file
        (.ofIo ("Failed to read module file: " ++ file.path.text) IoErrorKind.invalidData.error)
  | notModule {text : String} : file.content = text.toUTF8 → parse text = none →
      Refused parse earlier file
        (.ofCompile (.moduleSyntax file.path.text "not a module definition in YAML"))
  | blank {text : String} {m : ConfigModule} : file.content = text.toUTF8 → parse text = some m →
      Text.isBlank m.name = true →
      Refused parse earlier file
        (.ofCompile (.moduleSyntax file.path.text "module name is empty"))
  | repeated {m other : ConfigModule} {first : LibraryFile} : Holds parse file m →
      (first, other) ∈ earlier → other.name = m.name →
      Refused parse earlier file
        (.ofCompile (.duplicateModule m.name first.path.text file.path.text))

theorem ofContentWith_cases (parse : String → Option ConfigModule) (file : LibraryFile) :
    (∃ m, ConfigModule.ofContentWith parse file.path file.content = .ok m ∧ Holds parse file m) ∨
      ∃ failure, ConfigModule.ofContentWith parse file.path file.content = .error failure ∧
        ∀ earlier, Refused parse earlier file failure := by
  unfold ConfigModule.ofContentWith
  cases hdecode : Disk.decodeText file.content with
  | error kind =>
    obtain ⟨hno, rfl⟩ := Disk.decodeText_eq_error_iff.mp hdecode
    exact .inr ⟨_, rfl, fun _ => .unreadable hno⟩
  | ok text =>
    have htext := Disk.decodeText_eq_ok_iff.mp hdecode
    simp only [ConfigModule.readWith]
    cases hparse : parse text with
    | none => exact .inr ⟨_, rfl, fun _ => .notModule htext hparse⟩
    | some m =>
      cases hblank : Text.isBlank m.name with
      | true =>
        refine .inr ⟨_, ?_, fun _ => .blank htext hparse hblank⟩
        simp only [hblank, if_true]
        rfl
      | false => exact .inl ⟨m, by simp [hblank], ⟨text, htext, hparse⟩, hblank⟩

end LibraryFile

namespace Library

open LibraryFile

variable {parse : String → Option ConfigModule}

structure Taken (parse : String → Option ConfigModule)
    (loaded : List (LibraryFile × ConfigModule)) : Prop where
  holds : ∀ taken ∈ loaded, Holds parse taken.1 taken.2
  distinct : (loaded.map (·.2.name)).Nodup

/-- What comes of files: the modules in all of them, or why the first that is not taken is
refused. -/
inductive Gives (parse : String → Option ConfigModule) (files : List LibraryFile) :
    Except Failure Catalog → Prop
  | all {loaded : List (LibraryFile × ConfigModule)} {catalog : Catalog} : Taken parse loaded →
      files = loaded.map (·.1) → catalog.modules = loaded.map (·.2) →
      Gives parse files (.ok catalog)
  | stopped {loaded : List (LibraryFile × ConfigModule)} {file : LibraryFile}
      {after : List LibraryFile} {failure : Failure} : Taken parse loaded →
      files = loaded.map (·.1) ++ file :: after → Refused parse loaded file failure →
      Gives parse files (.error failure)

def sourcesOf (loaded : List (LibraryFile × ConfigModule)) : List (String × Path) :=
  (loaded.map fun taken => (taken.2.name, taken.1.path)).reverse

variable {loaded : List (LibraryFile × ConfigModule)} {file : LibraryFile} {m : ConfigModule}

theorem Taken.append (taken : Taken parse loaded) (holds : Holds parse file m)
    (fresh : m.name ∉ loaded.map (·.2.name)) : Taken parse (loaded ++ [(file, m)]) := by
  constructor
  · intro other hm
    rcases List.mem_append.mp hm with hm | hm
    · exact taken.holds other hm
    · obtain rfl := List.mem_singleton.mp hm
      exact holds
  · rw [List.map_append, List.map_singleton, List.nodup_append_comm, List.singleton_append,
      List.nodup_cons]
    exact ⟨fresh, taken.distinct⟩

theorem Taken.lookup_sourcesOf (taken : Taken parse loaded) (name : String) (path : Path) :
    (sourcesOf loaded).lookup name = some path ↔
      ∃ first other, (first, other) ∈ loaded ∧ other.name = name ∧ first.path = path := by
  have hkeys : ((sourcesOf loaded).map (·.1)).Nodup := by
    rw [sourcesOf, List.map_reverse, List.map_map, List.nodup_reverse]
    exact taken.distinct
  rw [lookup_eq_some_iff hkeys, sourcesOf, List.mem_reverse, List.mem_map]
  simp only [Prod.mk.injEq, Prod.exists]

theorem gives_extend {catalog : Catalog} (taken : Taken parse loaded)
    (hcatalog : catalog.modules = loaded.map (·.2)) (rest : List LibraryFile) :
    Gives parse (loaded.map (·.1) ++ rest) (extend parse catalog (sourcesOf loaded) rest) := by
  induction rest generalizing loaded catalog with
  | nil =>
    rw [List.append_nil]
    exact .all taken rfl hcatalog
  | cons file rest ih =>
    have hnames : catalog.names = loaded.map (·.2.name) := by
      rw [Catalog.names, hcatalog, List.map_map]
      rfl
    rcases ofContentWith_cases parse file with ⟨m, hread, holds⟩ | ⟨failure, hread, refused⟩
    · by_cases hm : m.name ∈ catalog.names
      · rw [extend, hread]
        simp only [Catalog.insert_of_mem hm]
        obtain ⟨⟨first, other⟩, hfirst, hname⟩ := List.mem_map.mp (hnames ▸ hm)
        have hsource : (sourcesOf loaded).lookup m.name = some first.path :=
          (taken.lookup_sourcesOf _ _).mpr ⟨first, other, hfirst, hname, rfl⟩
        rw [hsource]
        exact .stopped taken rfl (.repeated holds hfirst hname)
      · obtain ⟨larger, hinsert, hlarger⟩ := Catalog.exists_insert hm
        rw [extend, hread]
        simp only [hinsert]
        have hsources : (m.name, file.path) :: sourcesOf loaded =
            sourcesOf (loaded ++ [(file, m)]) := by simp [sourcesOf]
        have hmodules : larger.modules = (loaded ++ [(file, m)]).map (·.2) := by
          rw [hlarger, hcatalog, List.map_append, List.map_singleton]
        have hnext := ih (taken.append holds (hnames ▸ hm)) hmodules
        rwa [← hsources, List.map_append, List.append_assoc] at hnext
    · rw [extend, hread]
      exact .stopped taken rfl (refused loaded)

theorem load_result (parse : String → Option ConfigModule) {disk : Disk} {searchPath : Path}
    (extensions : List String) (tree : disk.IsTree)
    (existing : disk.isDirectory searchPath = true) :
    ∃ directory found, disk.locate searchPath = .ok directory ∧
      Considers disk directory extensions found ∧
      Gives parse (found.map (LibraryFile.under searchPath))
        (loadWith parse disk searchPath extensions) ∧
      ∀ (other : Disk) (place : Location), other.IsTree →
        other.locate searchPath = .ok place → other.hasDirectory place = true →
        (∀ front name content, Wanted extensions name →
          (other.lookup (place ++ (front ++ [name])) = some (.file content) ↔
            disk.lookup (directory ++ (front ++ [name])) = some (.file content))) →
        loadWith parse other searchPath extensions = loadWith parse disk searchPath extensions := by
  obtain ⟨directory, hl, hd⟩ := Disk.isDirectory_iff.mp existing
  have hload {disk : Disk} {directory : Location} (hl : disk.locate searchPath = .ok directory)
      (hd : disk.hasDirectory directory = true) : loadWith parse disk searchPath extensions =
        extend parse .empty [] ((considered disk directory extensions).map
          (LibraryFile.under searchPath)) := by
    rw [loadWith, hl]
    simp only [hd, if_true, files_eq_map]
  have considers := considers_considered tree directory extensions
  refine ⟨directory, _, hl, considers, ?_, ?_⟩
  · rw [hload hl hd]
    have taken : Taken parse [] := ⟨by simp, List.nodup_nil⟩
    exact gives_extend taken rfl _
  · intro other place treeOther hlo hdo hsame
    rw [hload hl hd, hload hlo hdo,
      considers.eq_of_lookup_iff (considers_considered treeOther place extensions) hsame]

end Library

namespace Sample

def bareModule? (text : String) : Option ConfigModule :=
  if text = "" then none else some { name := text }

def shelves : Disk :=
  { current := ["w"]
    entries := [(["w"], .directory), (["w", "m"], .directory),
      (["w", "m", "b.yaml"], .file "Core".toUTF8), (["w", "m", "a-b.yaml"], .file "Net".toUTF8),
      (["w", "m", "a"], .directory), (["w", "m", "a", "z.YML"], .file "Core".toUTF8),
      (["w", "m", "c.yaml"], .file "".toUTF8)] }

def notedShelves : Disk :=
  shelves.insert ["w", "m", "README.md"] (.file "Net".toUTF8)

theorem isTree_shelves : shelves.IsTree := by
  constructor <;> (unfold shelves; decide)

theorem isTree_notedShelves : notedShelves.IsTree := by
  constructor <;> (unfold notedShelves shelves; decide)

theorem below_shelves : shelves.below ["w", "m"] =
    [(["a"], .directory), (["a", "z.YML"], .file "Core".toUTF8), (["a-b.yaml"], .file "Net".toUTF8),
      (["b.yaml"], .file "Core".toUTF8), (["c.yaml"], .file "".toUTF8)] := by
  refine eq_of_pairwise_of_mem_iff (r := fun a b : Location × Entry => a.1 < b.1)
    (fun a b hab => List.lt_asymm hab) (isTree_shelves.pairwise_below _) ?_ ?_
  · simp only [List.pairwise_cons, List.mem_cons, List.not_mem_nil, or_false, forall_eq_or_imp,
      forall_eq, List.Pairwise.nil, and_true, IsEmpty.forall_iff, implies_true]
    decide
  · intro found
    rw [Disk.below_eq, List.mem_mergeSort]
    change found ∈ [(["b.yaml"], Entry.file "Core".toUTF8), (["a-b.yaml"], .file "Net".toUTF8),
      (["a"], .directory), (["a", "z.YML"], .file "Core".toUTF8),
      (["c.yaml"], .file "".toUTF8)] ↔ _
    simp only [List.mem_cons, List.not_mem_nil, or_false]
    grind

theorem loadWith_shelves :
    Library.loadWith bareModule? shelves (.ofText "m") ["Yaml", "yml"] =
      .error (.ofCompile (.duplicateModule "Core" "m/a/z.YML" "m/b.yaml")) := by
  have hl : shelves.locate (.ofText "m") = .ok ["w", "m"] := by cbv
  have hd : shelves.hasDirectory ["w", "m"] = true := by cbv
  have hfound : Library.considered shelves ["w", "m"] ["Yaml", "yml"] =
      [(["a", "z.YML"], "Core".toUTF8), (["a-b.yaml"], "Net".toUTF8), (["b.yaml"], "Core".toUTF8),
        (["c.yaml"], "".toUTF8)] := by
    rw [Library.considered, below_shelves]
    cbv
  have hcore (path : Path) : ConfigModule.ofContentWith bareModule? path "Core".toUTF8 =
      .ok { name := "Core" } := by
    rw [ConfigModule.ofContentWith, Disk.decodeText_toUTF8]
    cbv
  have hnet (path : Path) : ConfigModule.ofContentWith bareModule? path "Net".toUTF8 =
      .ok { name := "Net" } := by
    rw [ConfigModule.ofContentWith, Disk.decodeText_toUTF8]
    cbv
  rw [Library.loadWith, hl]
  simp only [hd, if_true, Library.files_eq_map, hfound, List.map_cons, LibraryFile.under,
    Library.extend, hcore, hnet]
  cbv

end Sample

namespace Library

theorem sample_shelves_loaded :
    Sample.shelves.IsTree ∧ Sample.shelves.isDirectory (.ofText "m") = true ∧
      (∃ found, Considers Sample.shelves ["w", "m"] ["Yaml", "yml"] found ∧
        Gives Sample.bareModule? (found.map (LibraryFile.under (.ofText "m")))
          (.error (.ofCompile (.duplicateModule "Core" "m/a/z.YML" "m/b.yaml")))) ∧
      loadWith Sample.bareModule? Sample.notedShelves (.ofText "m") ["Yaml", "yml"] =
        .error (.ofCompile (.duplicateModule "Core" "m/a/z.YML" "m/b.yaml")) := by
  have hexisting : Sample.shelves.isDirectory (.ofText "m") = true := by cbv
  have hplace : Sample.shelves.locate (.ofText "m") = .ok ["w", "m"] := by cbv
  obtain ⟨directory, found, hl, considers, gives, hsame⟩ :=
    load_result Sample.bareModule? ["Yaml", "yml"] Sample.isTree_shelves hexisting
  obtain rfl := Except.ok.inj (hl.symm.trans hplace)
  rw [Sample.loadWith_shelves] at gives hsame
  refine ⟨Sample.isTree_shelves, hexisting, ⟨found, considers, gives⟩, ?_⟩
  refine hsame Sample.notedShelves ["w", "m"] Sample.isTree_notedShelves (by cbv) (by cbv) ?_
  intro front name content wanted
  have hreadme : hasExtension ["Yaml", "yml"] "README.md" = false := by cbv
  rw [Sample.notedShelves, Disk.lookup_insert (by simp), if_neg]
  intro heq
  have hlast : (["w", "m"] ++ front ++ [name]).getLast? = some "README.md" := by
    rw [List.append_assoc, heq]
    rfl
  obtain rfl : name = "README.md" := by
    simpa only [List.getLast?_concat, Option.some.injEq] using hlast
  rw [hasExtension_iff.mpr wanted] at hreadme
  cases hreadme

end Library

end ApplianceScript
