import ApplianceScript.Module.Reader
import ApplianceScript.Proofs.LineByLine
import ApplianceScript.Proofs.StampedCommands

namespace ApplianceScript

namespace Text

def fileLines (content : String) : List String :=
  (pieces content.toList).dropLast.map String.ofList

def cut (text : String) : List String :=
  (pieces text.toList).map String.ofList

def IsComment (line : String) : Prop :=
  line.toList.head? = some '#'

theorem pieces_append_feed (text rest : List Char) :
    pieces (text ++ '\n' :: rest) = pieces text ++ pieces rest := by
  rw [pieces_eq_splitOn, pieces_eq_splitOn, pieces_eq_splitOn, List.splitOn_append_cons_self]

theorem pieces_append_of_not_mem {front : List Char} (h : '\n' ∉ front) (text : List Char) :
    pieces (front ++ text) = (pieces text).modifyHead (front ++ ·) := by
  induction front with
  | nil =>
    change pieces text = _
    cases pieces text <;> rfl
  | cons c front ih =>
    obtain ⟨hc, hfront⟩ := List.ne_and_not_mem_of_not_mem_cons h
    rw [pieces_eq_splitOn] at ih ⊢
    rw [List.cons_append, List.splitOn_cons_eq_if_modifyHead, if_neg (by simpa using Ne.symm hc),
      ih hfront, List.modifyHead_modifyHead]
    rfl

theorem feed_not_mem_of_mem_pieces {text piece : List Char} (h : piece ∈ pieces text) :
    '\n' ∉ piece := by
  induction text using cut_induction with
  | whole line hline =>
    rw [pieces_of_not_mem hline, List.mem_singleton] at h
    exact h ▸ hline
  | cut line rest hline ih =>
    rw [pieces_append_cons hline] at h
    rcases List.mem_cons.mp h with rfl | h
    · exact hline
    · exact ih h

theorem feed_not_mem_of_mem_lines {text line : String} (h : line ∈ lines text) :
    '\n' ∉ line.toList := by
  obtain ⟨found, hfound, rfl⟩ := List.mem_map.mp h
  obtain ⟨piece, hpiece, hp⟩ := exists_piece_of_mem hfound
  rw [String.toList_ofList]
  exact fun hmem => feed_not_mem_of_mem_pieces hpiece (hp.subset hmem)

theorem cut_ne_nil (text : String) : cut text ≠ [] := by
  simp [cut, pieces_eq_splitOn]

theorem cut_eq_singleton_iff (text : String) : cut text = [text] ↔ '\n' ∉ text.toList := by
  constructor
  · intro h hmem
    obtain ⟨line, rest, htext, hline⟩ := List.eq_append_cons_of_mem hmem
    rw [cut, htext, pieces_append_cons hline] at h
    simp [pieces_eq_splitOn] at h
  · intro h
    rw [cut, pieces_of_not_mem h, List.map_singleton, String.ofList_toList]

theorem length_le_length_flatMap_cut (lines : List String) :
    lines.length ≤ (lines.flatMap cut).length := by
  induction lines with
  | nil => exact Nat.le_refl 0
  | cons line rest ih =>
    have hpos := List.length_pos_iff.mpr (cut_ne_nil line)
    rw [List.flatMap_cons, List.length_append, List.length_cons]
    omega

theorem flatMap_cut_eq_self_iff (lines : List String) :
    lines.flatMap cut = lines ↔ ∀ line ∈ lines, '\n' ∉ line.toList := by
  induction lines with
  | nil => simp
  | cons line rest ih =>
    rw [List.flatMap_cons, List.forall_mem_cons, ← ih, ← cut_eq_singleton_iff]
    constructor
    · intro h
      -- No cut is empty, so the cut of the first line leaves too little room for a second piece.
      have hlength : (cut line).length = [line].length := by
        have hrest := length_le_length_flatMap_cut rest
        have hpos := List.length_pos_iff.mpr (cut_ne_nil line)
        have htotal := congrArg List.length h
        rw [List.length_append, List.length_cons] at htotal
        rw [List.length_singleton]
        omega
      exact List.append_inj h hlength
    · rintro ⟨hline, hrest⟩
      rw [hline, hrest]
      rfl

theorem pieces_intercalate (first : String) (rest : List String) :
    pieces ("\n".intercalate (first :: rest)).toList =
      (first :: rest).flatMap (pieces ·.toList) := by
  have hfeed : "\n".toList = ['\n'] := rfl
  rw [String.toList_intercalate, List.map_cons, hfeed]
  induction rest generalizing first with
  | nil => simp
  | cons next rest ih =>
    rw [List.map_cons, List.intercalate_cons_cons, List.append_assoc, List.singleton_append,
      pieces_append_feed, ih]
    rfl

theorem intercalate_ne_empty {first : String} (hfirst : first ≠ "") (rest : List String) :
    "\n".intercalate (first :: rest) ≠ "" := by
  intro h
  have hlist := congrArg String.toList h
  rw [String.toList_intercalate] at hlist
  cases rest with
  | nil => exact hfirst (by simpa using hlist)
  | cons next rest =>
    rw [List.map_cons, List.map_cons, List.intercalate_cons_cons] at hlist
    simp at hlist

theorem pieces_joinLines {lines : List String} (h : lines.head? ≠ some "") :
    pieces (joinLines lines).toList = lines.flatMap (pieces ·.toList) ++ [[]] := by
  cases lines with
  | nil => rfl
  | cons first rest =>
    have hfirst : first ≠ "" := fun hempty => h (by rw [hempty]; rfl)
    have hcontent := intercalate_ne_empty hfirst rest
    rw [joinLines, if_neg (by simpa using hcontent), String.toList_append]
    change pieces (_ ++ '\n' :: []) = _
    rw [pieces_append_feed, pieces_intercalate]
    rfl

theorem fileLines_joinLines {lines : List String} (h : lines.head? ≠ some "") :
    fileLines (joinLines lines) = lines.flatMap cut := by
  rw [fileLines, pieces_joinLines h, List.dropLast_concat, List.map_flatMap]
  rfl

end Text

namespace Banner

theorem feed_not_mem_lines_iff {word : String} (hword : '\n' ∉ word.toList) (name : String) :
    (∀ line ∈ lines word name, '\n' ∉ line.toList) ↔ '\n' ∉ name.toList := by
  simp [lines, rule, hword]

theorem cut_lines {word : String} (hword : '\n' ∉ word.toList) (name : String) :
    ∃ heading, Text.IsComment heading ∧
      (lines word name).flatMap Text.cut = rule :: heading :: ((Text.cut name).tail ++ [rule]) := by
  have hrule : Text.cut rule = [rule] := (Text.cut_eq_singleton_iff rule).mpr (by decide)
  have hfront : '\n' ∉ ("# " ++ word ++ " MODULE: ").toList := by simp [hword]
  cases hpieces : Text.pieces name.toList with
  | nil => exact absurd hpieces (by simp [Text.pieces_eq_splitOn])
  | cons first more =>
    have hheading : Text.cut ("# " ++ word ++ " MODULE: " ++ name) =
        String.ofList (("# " ++ word ++ " MODULE: ").toList ++ first) :: (Text.cut name).tail := by
      rw [Text.cut, String.toList_append, Text.pieces_append_of_not_mem hfront, Text.cut, hpieces]
      rfl
    refine ⟨String.ofList (("# " ++ word ++ " MODULE: ").toList ++ first), ?_, ?_⟩
    · simp [Text.IsComment]
    · simp [lines, hrule, hheading]

theorem isComment_lines_iff {word : String} (hword : '\n' ∉ word.toList) (name : String) :
    (∀ line ∈ (lines word name).flatMap Text.cut, Text.IsComment line) ↔
      ∀ line ∈ (Text.cut name).tail, Text.IsComment line := by
  obtain ⟨heading, hheading, hlines⟩ := cut_lines hword name
  have hrule : Text.IsComment rule := rfl
  rw [hlines, List.forall_mem_cons, List.forall_mem_cons, List.forall_mem_append,
    List.forall_mem_singleton]
  exact ⟨fun h => h.2.2.1, fun h => ⟨hrule, hheading, h, hrule⟩⟩

end Banner

def Group.banners (group : Group) : List String :=
  (Banner.start group.owner.name ++ Banner.finish group.owner.name).flatMap Text.cut

namespace Plan

def printed (plan : Plan) (direction : Direction) (group : Group) : List String :=
  (Banner.start group.owner.name).flatMap Text.cut ++
    group.elements.flatMap (plan.commands direction) ++
    (Banner.finish group.owner.name).flatMap Text.cut

variable {plan : Plan} {scripts : Scripts} {catalog : Catalog} {direction : Direction}

theorem feed_not_mem_of_mem_commands {element : Element} {command : String}
    (h : command ∈ plan.commands direction element) : '\n' ∉ command.toList := by
  unfold commands at h
  split at h
  · exact Text.feed_not_mem_of_mem_lines (List.mem_filter.mp h).1
  · cases h

theorem flatMap_cut_framed (group : Group) :
    (plan.framed direction group).flatMap Text.cut = plan.printed direction group := by
  have hcommands : (group.elements.flatMap (plan.commands direction)).flatMap Text.cut =
      group.elements.flatMap (plan.commands direction) := by
    rw [Text.flatMap_cut_eq_self_iff]
    intro command hmem
    obtain ⟨element, _, hcommand⟩ := List.mem_flatMap.mp hmem
    exact feed_not_mem_of_mem_commands hcommand
  rw [framed, List.flatMap_append, List.flatMap_append, hcommands, printed]

theorem feed_not_mem_framed_iff (group : Group) :
    (∀ line ∈ plan.framed direction group, '\n' ∉ line.toList) ↔
      '\n' ∉ group.owner.name.toList := by
  have hstart := Banner.feed_not_mem_lines_iff (by decide : '\n' ∉ "BEGIN".toList) group.owner.name
  have hfinish := Banner.feed_not_mem_lines_iff (by decide : '\n' ∉ "END".toList) group.owner.name
  constructor
  · intro h
    exact hstart.mp fun line hline =>
      h line (List.mem_append_left _ (List.mem_append_left _ hline))
  · intro h line hline
    rcases List.mem_append.mp hline with hline | hline
    · rcases List.mem_append.mp hline with hline | hline
      · exact hstart.mpr h line hline
      · obtain ⟨element, _, hcommand⟩ := List.mem_flatMap.mp hline
        exact feed_not_mem_of_mem_commands hcommand
    · exact hfinish.mpr h line hline

theorem isComment_banners_iff (group : Group) :
    (∀ line ∈ group.banners, Text.IsComment line) ↔
      ∀ line ∈ (Text.cut group.owner.name).tail, Text.IsComment line := by
  have hstart := Banner.isComment_lines_iff (by decide : '\n' ∉ "BEGIN".toList) group.owner.name
  have hfinish := Banner.isComment_lines_iff (by decide : '\n' ∉ "END".toList) group.owner.name
  rw [Group.banners, List.flatMap_append, List.forall_mem_append]
  change (∀ line ∈ (Banner.lines "BEGIN" _).flatMap _, _) ∧
    (∀ line ∈ (Banner.lines "END" _).flatMap _, _) ↔ _
  rw [hstart, hfinish, and_self_iff]

theorem IsLayout.forall_owner_iff {layout : List Group} (h : plan.IsLayout direction layout)
    (hp : plan.IsPlanOf catalog) (p : String → Prop) :
    (∀ group ∈ layout, p group.owner.name) ↔ ∀ m ∈ catalog.modules, p m.name := by
  have hnames (name : String) : name ∈ layout.map (·.owner.name) ↔ name ∈ catalog.names := by
    rw [h.modules, ← hp.mem_installOrder_iff]
    cases direction with
    | install => exact Iff.rfl
    | uninstall => exact List.mem_reverse
  constructor
  · intro hall m hm
    obtain ⟨group, hgroup, howner⟩ := List.mem_map.mp ((hnames _).mpr (List.mem_map_of_mem hm))
    exact howner ▸ hall group hgroup
  · intro hall group hgroup
    obtain ⟨m, hm, hname⟩ := List.mem_map.mp ((hnames _).mp (List.mem_map_of_mem hgroup))
    exact hname ▸ hall m hm

theorem head?_framed_ne (plan : Plan) (direction : Direction) (layout : List Group) :
    (layout.flatMap (plan.framed direction)).head? ≠ some "" := by
  cases layout with
  | nil => simp
  | cons group rest =>
    change some Banner.rule ≠ some ""
    decide

theorem IsPlanOf.exists_layout_of_emit (hp : plan.IsPlanOf catalog) {lines : List String}
    (hemit : plan.emit direction = .ok lines) :
    ∃ layout, plan.IsLayout direction layout ∧ lines = layout.flatMap (plan.framed direction) := by
  obtain ⟨layout, hlayout, hblocks⟩ := hp.exists_layout direction
  have hframed := emit_of_resolved hblocks fun group hgroup element he =>
    resolvedText?_ne_none hblocks hemit hgroup he
  exact ⟨layout, hlayout, Except.ok.inj (hemit.symm.trans hframed)⟩

theorem compiled_fileLines {schedule : Schedule} {width : Nat}
    (compiled : (scriptsBy schedule width catalog).result = .ok scripts) :
    ∃ plan, (buildBy schedule width catalog).result = .ok plan ∧
      ∀ direction, ∃ layout, plan.IsLayout direction layout ∧
        scripts.lines direction = layout.flatMap (plan.framed direction) ∧
        (Text.pieces (Text.joinLines (scripts.lines direction)).toList).getLast? = some [] ∧
        Text.fileLines (Text.joinLines (scripts.lines direction)) =
          layout.flatMap (plan.printed direction) ∧
        ((∀ line ∈ scripts.lines direction, '\n' ∉ line.toList) ↔
          ∀ m ∈ catalog.modules, '\n' ∉ m.name.toList) ∧
        (Text.fileLines (Text.joinLines (scripts.lines direction)) = scripts.lines direction ↔
          ∀ m ∈ catalog.modules, '\n' ∉ m.name.toList) ∧
        ((∀ group ∈ layout, ∀ line ∈ group.banners, Text.IsComment line) ↔
          ∀ m ∈ catalog.modules, ∀ line ∈ (Text.cut m.name).tail, Text.IsComment line) := by
  obtain ⟨plan, built, hscripts⟩ := Warned.result_bind_eq_ok_iff.mp compiled
  refine ⟨plan, built, ?_⟩
  intro direction
  have hp := isPlanOf_of_buildBy built
  obtain ⟨layout, hlayout, hlines⟩ := hp.exists_layout_of_emit (emit_of_scripts hscripts direction)
  have hhead := head?_framed_ne plan direction layout
  have hfile : Text.fileLines (Text.joinLines (scripts.lines direction)) =
      (scripts.lines direction).flatMap Text.cut := Text.fileLines_joinLines (hlines ▸ hhead)
  have hfeeds : (∀ line ∈ scripts.lines direction, '\n' ∉ line.toList) ↔
      ∀ m ∈ catalog.modules, '\n' ∉ m.name.toList := by
    rw [hlines, ← hlayout.forall_owner_iff hp fun name => '\n' ∉ name.toList]
    simp only [List.forall_mem_flatMap, feed_not_mem_framed_iff]
  refine ⟨layout, hlayout, hlines, ?_, ?_, hfeeds, ?_, ?_⟩
  · rw [Text.pieces_joinLines (hlines ▸ hhead), List.getLast?_concat]
  · rw [hfile, hlines, List.flatMap_assoc]
    simp only [flatMap_cut_framed]
  · rw [hfile, Text.flatMap_cut_eq_self_iff, hfeeds]
  · rw [← hlayout.forall_owner_iff hp fun name =>
      ∀ line ∈ (Text.cut name).tail, Text.IsComment line]
    simp only [isComment_banners_iff]

end Plan

namespace Sample

def broken : ConfigModule := { name := "Net\nreboot" }

def brokenCatalog : Catalog :=
  ⟨[{ name := "Core", version := some ⟨2, 1⟩ }, broken], by decide⟩

def brokenPlan : Plan :=
  { catalog := brokenCatalog
    installOrder := ["Core", "Net\nreboot"]
    elementOrders := [("Core", ⟨[]⟩), ("Net\nreboot", ⟨[]⟩)]
    placeholders := ⟨[]⟩
    version := ⟨2, 1⟩ }

def brokenScripts : Scripts :=
  { install := Banner.start "Core" ++ Banner.finish "Core" ++
      Banner.start "Net\nreboot" ++ Banner.finish "Net\nreboot"
    uninstall := Banner.start "Net\nreboot" ++ Banner.finish "Net\nreboot" ++
      Banner.start "Core" ++ Banner.finish "Core" }

theorem built_broken : (Plan.buildBy [] 1 brokenCatalog).result = .ok brokenPlan := by cbv

theorem emit_broken (direction : Direction) :
    brokenPlan.emit direction = .ok (brokenScripts.lines direction) := by
  cases direction <;> cbv

theorem compiled_broken : (Plan.scriptsBy [] 1 brokenCatalog).result = .ok brokenScripts := by
  refine Warned.result_bind_eq_ok_iff.mpr ⟨brokenPlan, built_broken, ?_⟩
  change brokenPlan.scripts = _
  unfold Plan.scripts
  rw [emit_broken, emit_broken]
  rfl

theorem exists_read_broken :
    ∀ m ∈ brokenCatalog.modules, ∃ content, ConfigModule.read content = .ok m := by
  refine List.forall_mem_cons.mpr ⟨⟨"name: Core\nversion:\n  major: 2\n  minor: 1\n", ?_⟩,
    List.forall_mem_singleton.mpr ⟨"name: \"Net\\nreboot\"\n", ?_⟩⟩ <;> decide +kernel

end Sample

namespace Plan

theorem sample_named_fileLines :
    (scriptsBy [] 1 Sample.namedCatalog).result = .ok Sample.namedScripts ∧
      ∀ direction, Text.fileLines (Text.joinLines (Sample.namedScripts.lines direction)) =
        Sample.namedScripts.lines direction := by
  obtain ⟨_, _, hall⟩ := compiled_fileLines Sample.compiled_named
  refine ⟨Sample.compiled_named, ?_⟩
  intro direction
  obtain ⟨_, _, _, _, _, _, hwhole, _⟩ := hall direction
  exact hwhole.mpr (by decide)

theorem not_isComment_of_broken_name :
    (∀ m ∈ Sample.brokenCatalog.modules, ∃ content, ConfigModule.read content = .ok m) ∧
      (∀ m ∈ Sample.brokenCatalog.modules, m.elements = []) ∧
      (scriptsBy [] 1 Sample.brokenCatalog).result = .ok Sample.brokenScripts ∧
      ∀ direction,
        Text.fileLines (Text.joinLines (Sample.brokenScripts.lines direction)) ≠
          Sample.brokenScripts.lines direction ∧
        ∃ line ∈ Text.fileLines (Text.joinLines (Sample.brokenScripts.lines direction)),
          ¬ Text.IsComment line := by
  refine ⟨Sample.exists_read_broken, by decide, Sample.compiled_broken, ?_⟩
  intro direction
  have hfile : Text.fileLines (Text.joinLines (Sample.brokenScripts.lines direction)) =
      (Sample.brokenScripts.lines direction).flatMap Text.cut :=
    Text.fileLines_joinLines (by cases direction <;> decide)
  have hheading : "# BEGIN MODULE: Net\nreboot" ∈ Sample.brokenScripts.lines direction := by
    cases direction <;> decide
  rw [hfile]
  constructor
  · intro hwhole
    exact (Text.flatMap_cut_eq_self_iff _).mp hwhole _ hheading (by decide)
  · exact ⟨"reboot", List.mem_flatMap.mpr ⟨_, hheading, by decide⟩, by unfold Text.IsComment; decide⟩

end Plan

end ApplianceScript
