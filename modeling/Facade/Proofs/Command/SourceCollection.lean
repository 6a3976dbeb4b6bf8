import Facade.Command.Sources
import Facade.Proofs.Binding.Merging
import Facade.Proofs.Disk.Entries

/-!
# The sources that paths lead to

A run is given files and directories. The files are sources whatever they are called; below the directories
names decide, those of the directories on the way down too. Nobody looks whether an entry with the name of a
source is a file.

* `fileEnding_eq_iff`: the ending of a file name;
* `IsWayToSource`, `isSourceWay_iff`: the ways down to sources;
* `Disk.IsGiven`, `Disk.IsFoundBelow`: places that paths lead to, and places below them;
* `Disk.mem_sourcesBelow`, `Reporter.mem_collectPaths`: what one directory adds, and all paths;
* `Reporter.items_collectPaths`: what is said of paths that lead nowhere;
* **`Reporter.sources_of_collect`**: the sources of a run.
-/

namespace Facade

/-! ## Names -/

/-- A file name has an ending if that is what stands from its last dot on, and something is before it. -/
theorem fileEnding_eq_iff {name : String} {ending : List Char} (hdot : '.' ∉ ending)
    (hending : ending ≠ []) :
    fileEnding name = String.ofList ('.' :: ending) ↔
      ∃ stem, stem ≠ [] ∧ name.toList = stem ++ '.' :: ending := by
  simp only [fileEnding]
  constructor
  · intro h
    split_ifs at h with hshort
    · simp [← String.toList_inj] at h
    · rw [Bool.or_eq_true, not_or, decide_eq_true_iff, not_le] at hshort
      simp only [String.ofList_inj, List.cons.injEq, true_and] at h
      have hdivided := List.takeWhile_append_dropWhile (p := (· != '.')) (l := name.toList.reverse)
      obtain ⟨c, rest, hrest⟩ : ∃ c rest, name.toList.reverse.dropWhile (· != '.') = c :: rest := by
        refine List.exists_cons_of_ne_nil fun hnil => ?_
        rw [hnil, List.append_nil] at hdivided
        rw [hdivided] at hshort
        omega
      have hc : c = '.' := by
        have hhead := List.head_dropWhile_not (· != '.') (l := name.toList.reverse)
          (by rw [hrest]; exact List.cons_ne_nil _ _)
        simpa [hrest] using hhead
      have hname : name.toList = rest.reverse ++ '.' :: ending := by
        rw [← List.reverse_reverse name.toList, ← hdivided, hrest, hc, ← h]
        simp
      refine ⟨rest.reverse, fun hnil => ?_, hname⟩
      have htaken := congrArg List.length h
      have hlength := congrArg List.length hname
      rw [List.length_reverse] at htaken
      rw [hnil, List.nil_append, List.length_cons] at hlength
      rw [List.length_reverse] at hshort
      omega
  · rintro ⟨stem, hstem, hname⟩
    have htake : name.toList.reverse.takeWhile (· != '.') = ending.reverse := by
      rw [hname, List.reverse_append, List.reverse_cons, List.append_assoc, List.singleton_append,
        List.takeWhile_append_of_pos fun c hc => by
          simpa using ne_of_mem_of_not_mem (List.mem_reverse.mp hc) hdot]
      simp
    have hlength : ending.length + 1 < name.toList.length := by
      have hpos := List.length_pos_iff.mpr hstem
      rw [hname, List.length_append, List.length_cons]
      omega
    rw [htake, if_neg, List.reverse_reverse]
    rw [Bool.or_eq_true, not_or, decide_eq_true_iff, List.length_reverse, List.length_reverse]
    exact ⟨by simpa using hending, by omega⟩

theorem endsWith_iff {name ending : String} :
    name.endsWith ending = true ↔ ending.toList <:+ name.toList := by
  rw [String.endsWith, String.Slice.endsWith_string_iff, String.copy_toSlice]

/-- The name of a source: it ends in `.cs`, but not in `.generated.cs`. -/
structure HasSourceEnding (name : String) : Prop where
  source : ".cs".toList <:+ name.toList
  generated : ¬".generated.cs".toList <:+ name.toList

theorem isSourceName_iff {name : String} :
    isSourceName name = true ↔ HasSourceEnding name ∧ name ≠ ".cs" := by
  have hsource : fileEnding name = ".cs" ↔ ".cs".toList <:+ name.toList ∧ name ≠ ".cs" := by
    have hiff : fileEnding name = String.ofList ('.' :: ['c', 's']) ↔ _ :=
      fileEnding_eq_iff (by decide) (by decide)
    rw [show String.ofList ('.' :: ['c', 's']) = ".cs" from rfl] at hiff
    rw [hiff]
    constructor
    · rintro ⟨stem, hstem, hname⟩
      refine ⟨⟨stem, hname.symm⟩, ?_⟩
      rintro rfl
      exact hstem (List.self_eq_append_left.mp hname)
    · rintro ⟨⟨stem, hname⟩, hne⟩
      refine ⟨stem, ?_, hname.symm⟩
      rintro rfl
      exact hne (String.toList_inj.mp hname.symm)
  rw [isSourceName, Bool.and_eq_true, beq_iff_eq, Bool.not_eq_true', ← Bool.not_eq_true,
    endsWith_iff, hsource]
  exact ⟨fun ⟨⟨hcs, hne⟩, hgenerated⟩ => ⟨⟨hcs, hgenerated⟩, hne⟩,
    fun ⟨⟨hcs, hgenerated⟩, hne⟩ => ⟨⟨hcs, hne⟩, hgenerated⟩⟩

/-- A way down to a source: it goes through no excluded directory, and leads to an entry with the name of a
source. -/
structure IsWayToSource (way : List String) : Prop where
  directories : ∀ name ∈ way.dropLast, name ∉ excludedDirectories
  ending : ∃ name, way.getLast? = some name ∧ HasSourceEnding name

theorem IsWayToSource.ne_nil {way : List String} (h : IsWayToSource way) : way ≠ [] := by
  rintro rfl
  obtain ⟨name, hname, -⟩ := h.ending
  cases hname

theorem isSourceWay_iff {way : List String} :
    isSourceWay way = true ↔ IsWayToSource way ∧ way.getLast? ≠ some ".cs" := by
  have hdirectories : way.dropLast.any excludedDirectories.contains = false ↔
      ∀ name ∈ way.dropLast, name ∉ excludedDirectories := by
    simp [List.any_eq_false]
  have hending : isSourceName (way.getLast?.getD "") = true ↔
      (∃ name, way.getLast? = some name ∧ HasSourceEnding name) ∧ way.getLast? ≠ some ".cs" := by
    cases hlast : way.getLast? with
    | none => exact ⟨fun h => absurd h (by decide), fun ⟨⟨_, h, _⟩, _⟩ => by cases h⟩
    | some name => simp [isSourceName_iff]
  rw [isSourceWay, Bool.and_eq_true, Bool.not_eq_true', hdirectories, hending]
  exact ⟨fun ⟨hway, hname, hne⟩ => ⟨⟨hway, hname⟩, hne⟩,
    fun ⟨⟨hway, hname⟩, hne⟩ => ⟨hway, hname, hne⟩⟩

/-! ## Places -/

namespace Disk

variable (d : Disk)

theorem isPresent_iff {d : Disk} {place : Location} (hplace : place ≠ []) :
    d.isPresent place = true ↔ ∃ e, (place, e) ∈ d.entries := by
  simp [isPresent, entry?, hplace]

theorem mem_below {d : Disk} {place : Location} {way : List String} :
    way ∈ d.below place ↔ way ≠ [] ∧ d.isPresent (place ++ way) = true := by
  by_cases hway : way = []
  · simp [below, hway]
  · rw [isPresent_iff (by simp [hway])]
    simp only [below, List.mem_filterMap, Option.filter_eq_some_iff, below?_eq_some]
    constructor
    · rintro ⟨⟨_, e⟩, he, rfl, -⟩
      exact ⟨hway, e, he⟩
    · rintro ⟨-, e, he⟩
      exact ⟨_, he, rfl, by simpa using hway⟩

/-- One of the paths leads to the file at a place. -/
def IsGiven (base : Location) (paths : List Path) (place : Location) : Prop :=
  ∃ p ∈ paths, ∃ content, d.find? (p.absolute base) = some (place, .file content)

/-- One of the paths leads to a directory, from which a way of this kind leads down to what is at a place. -/
def IsFoundBelow (base : Location) (paths : List Path) (isWay : List String → Prop)
    (place : Location) : Prop :=
  d.isPresent place = true ∧ ∃ p ∈ paths, ∃ root way,
    d.find? (p.absolute base) = some (root, .directory) ∧ isWay way ∧ place = root ++ way

theorem mem_sourcesBelow {d : Disk} {root place : Location} :
    place ∈ d.sourcesBelow root ↔ d.isPresent place = true ∧
      ∃ way, (IsWayToSource way ∧ way.getLast? ≠ some ".cs") ∧ place = root ++ way := by
  simp only [sourcesBelow, List.mem_map, (List.mergeSort_perm _ _).mem_iff, List.mem_filter,
    mem_below, isSourceWay_iff]
  constructor
  · rintro ⟨way, ⟨⟨-, hpresent⟩, hway⟩, rfl⟩
    exact ⟨hpresent, way, hway, rfl⟩
  · rintro ⟨hpresent, way, hway, rfl⟩
    exact ⟨way, ⟨⟨hway.1.ne_nil, hpresent⟩, hway⟩, rfl⟩

theorem IsFoundBelow.exists_name {d : Disk} {base : Location} {paths : List Path} {place : Location}
    (h : d.IsFoundBelow base paths IsWayToSource place) :
    ∃ name, place.getLast? = some name ∧ HasSourceEnding name := by
  obtain ⟨-, -, -, root, way, -, hway, rfl⟩ := h
  rw [List.getLast?_append_of_ne_nil _ hway.ne_nil]
  exact hway.ending

end Disk

namespace Reporter

variable {d : Disk} {base : Location} {r : Reporter} {paths : List Path} {place : Location}

/-! ## Paths -/

/-- What is said of a path that leads nowhere. -/
def missingNote (r : Reporter) (p : Path) : Diagnostic :=
  ⟨.error, "FG1002", "cannot read source file: no such file or directory", none,
    if p.text.isEmpty then r.filename else p.text⟩

theorem items_addMissing (p : Path) : (r.addMissing p).items = r.items ++ [r.missingNote p] := rfl

theorem mem_collectPath {p : Path} : place ∈ (collectPath d base r p).2 ↔
    (∃ content, d.find? (p.absolute base) = some (place, .file content)) ∨
      ∃ root, d.find? (p.absolute base) = some (root, .directory) ∧
        place ∈ d.sourcesBelow root := by
  unfold collectPath
  split
  · next h => simp [h]
  · next h => simp [h, eq_comm]
  · next h => simp [h]

theorem collectPath_fst {p : Path} : (collectPath d base r p).1 =
    if d.isThere (p.absolute base) then r else r.addMissing p := by
  unfold collectPath Disk.isThere
  split <;> next h => simp [h]

/-- The places that paths add are those of each of them. -/
theorem mem_collectPaths : place ∈ (collectPaths d base r paths).2 ↔
    d.IsGiven base paths place ∨ d.IsFoundBelow base paths
      (fun way => IsWayToSource way ∧ way.getLast? ≠ some ".cs") place := by
  have hpaths : place ∈ (collectPaths d base r paths).2 ↔
      ∃ p ∈ paths, (∃ content, d.find? (p.absolute base) = some (place, .file content)) ∨
        ∃ root, d.find? (p.absolute base) = some (root, .directory) ∧
          place ∈ d.sourcesBelow root := by
    induction paths generalizing r with
    | nil => simp [collectPaths]
    | cons p ps ih =>
      simp only [collectPaths, List.mem_append, List.exists_mem_cons_iff, ih, mem_collectPath]
  rw [hpaths]
  simp only [Disk.mem_sourcesBelow]
  constructor
  · rintro ⟨p, hp, ⟨content, hfind⟩ | ⟨root, hfind, hpresent, way, hway, hplace⟩⟩
    · exact .inl ⟨p, hp, content, hfind⟩
    · exact .inr ⟨hpresent, p, hp, root, way, hfind, hway, hplace⟩
  · rintro (⟨p, hp, content, hfind⟩ | ⟨hpresent, p, hp, root, way, hfind, hway, hplace⟩)
    · exact ⟨p, hp, .inl ⟨content, hfind⟩⟩
    · exact ⟨p, hp, .inr ⟨root, hfind, hpresent, way, hway, hplace⟩⟩

/-- Each path that leads nowhere is reported, once for each time that it is given, and nothing else. -/
theorem items_collectPaths : (collectPaths d base r paths).1.items = r.items ++
    (paths.filter fun p => !d.isThere (p.absolute base)).map r.missingNote := by
  induction paths generalizing r with
  | nil => simp [collectPaths]
  | cons p ps ih =>
    change (collectPaths d base (collectPath d base r p).1 ps).1.items = _
    rw [ih, collectPath_fst, List.filter_cons]
    cases d.isThere (p.absolute base) with
    | true => rfl
    | false =>
      simp only [Bool.false_eq_true, if_false, Bool.not_false, if_true, items_addMissing,
        List.append_assoc, List.map_cons]
      rfl

/-! ## Runs -/

theorem mem_collect : place ∈ (collect d base r paths).2 ↔
    d.IsGiven base paths place ∨ d.IsFoundBelow base paths
      (fun way => IsWayToSource way ∧ way.getLast? ≠ some ".cs") place := by
  rw [collect, List.mem_eraseDups]
  exact mem_collectPaths

/-- **The sources of a run**, each once: the files that it is given, and below the directories that it is
given whatever a way to a source leads to, unless its name is nothing but the ending. Where such ways lead
to files only, and to none of this name, these are the files with the names of sources. Each path that is
neither a file nor a directory is reported once. -/
theorem sources_of_collect (d : Disk) (base : Location) (r : Reporter) (paths : List Path) :
    (collect d base r paths).2.Nodup ∧
    (∀ place, place ∈ (collect d base r paths).2 ↔
      d.IsGiven base paths place ∨ d.IsFoundBelow base paths
        (fun way => IsWayToSource way ∧ way.getLast? ≠ some ".cs") place) ∧
    ((∀ place, d.IsFoundBelow base paths IsWayToSource place →
        d.isDirectory place = false ∧ place.getLast? ≠ some ".cs") →
      ∀ place, place ∈ (collect d base r paths).2 ↔
        d.IsGiven base paths place ∨ (∃ content, d.entry? place = some (.file content)) ∧
          d.IsFoundBelow base paths IsWayToSource place) ∧
    (collect d base r paths).1.items = r.items ++
      (paths.filter fun p => !d.isThere (p.absolute base)).map r.missingNote := by
  refine ⟨nodup_eraseDups _, fun _ => mem_collect, fun hplain place => ?_, items_collectPaths⟩
  rw [mem_collect]
  refine or_congr_right ⟨?_, ?_⟩
  · rintro ⟨hpresent, p, hp, root, way, hfind, hway, hplace⟩
    have hbelow : d.IsFoundBelow base paths IsWayToSource place :=
      ⟨hpresent, p, hp, root, way, hfind, hway.1, hplace⟩
    have hfile := (hplain place hbelow).1
    obtain ⟨e, he⟩ := Option.isSome_iff_exists.mp hpresent
    cases e with
    | file content => exact ⟨⟨content, he⟩, hbelow⟩
    | directory => rw [Disk.isDirectory_iff.mpr he] at hfile; cases hfile
  · rintro ⟨-, hbelow⟩
    have hname := (hplain place hbelow).2
    obtain ⟨hpresent, p, hp, root, way, hfind, hway, rfl⟩ := hbelow
    rw [List.getLast?_append_of_ne_nil _ hway.ne_nil] at hname
    exact ⟨hpresent, p, hp, root, way, hfind, ⟨hway, hname⟩, rfl⟩

/-- A directory with sources, generated files and output of a build. -/
def projectDisk : Disk := ⟨[(["w"], .directory), (["w", "src"], .directory),
  (["w", "src", "A.cs"], .file []), (["w", "src", "bin"], .directory),
  (["w", "src", "bin", "B.cs"], .file []), (["w", "src", "sub"], .directory),
  (["w", "src", "sub", "C.generated.cs"], .file []), (["w", "src", "sub", "D.cs"], .file [])]⟩

/-- A directory, one in it, a file in an excluded one, and a path that leads nowhere. -/
def projectPaths : List Path := ["src", "src/sub", "src/bin/B.cs", "none.cs"].map Path.ofString

/-- Overlapping directories of files. -/
theorem sources_of_collect_project :
    (∀ place, projectDisk.IsFoundBelow ["w"] projectPaths IsWayToSource place →
      projectDisk.isDirectory place = false ∧ place.getLast? ≠ some ".cs") ∧
    ∀ place, place ∈ (collect projectDisk ["w"] .fresh projectPaths).2 ↔
      projectDisk.IsGiven ["w"] projectPaths place ∨
        (∃ content, projectDisk.entry? place = some (.file content)) ∧
          projectDisk.IsFoundBelow ["w"] projectPaths IsWayToSource place := by
  have hplain : ∀ place, projectDisk.IsFoundBelow ["w"] projectPaths IsWayToSource place →
      projectDisk.isDirectory place = false ∧ place.getLast? ≠ some ".cs" := fun place h => by
    obtain ⟨name, hname, hending⟩ := h.exists_name
    have hne : place ≠ [] := by rintro rfl; cases hname
    obtain ⟨e, he⟩ := (Disk.isPresent_iff hne).mp h.1
    have hentries : ∀ e ∈ projectDisk.entries, (∃ name ∈ e.1.getLast?, ".cs".toList <:+ name.toList) →
        projectDisk.isDirectory e.1 = false ∧ e.1.getLast? ≠ some ".cs" := by decide
    exact hentries _ he ⟨name, hname, hending.source⟩
  exact ⟨hplain, (sources_of_collect projectDisk ["w"] .fresh projectPaths).2.2.1 hplain⟩

/-- A directory that is called like a source, and a file that is called like the ending. -/
def lookalikeDisk : Disk := ⟨[(["w"], .directory), (["w", "Box.cs"], .directory),
  (["w", ".cs"], .file [])]⟩

/-- A directory may be taken for a source, and a file whose name ends like that of a source may be passed
over. -/
theorem not_sources_of_lookalikes :
    ¬(∀ place, place ∈ (collect lookalikeDisk ["w"] .fresh [.ofString "."]).2 →
      ∃ content, lookalikeDisk.entry? place = some (.file content)) ∧
    ¬(∀ place, (∃ content, lookalikeDisk.entry? place = some (.file content)) →
      lookalikeDisk.IsFoundBelow ["w"] [.ofString "."] IsWayToSource place →
      place ∈ (collect lookalikeDisk ["w"] .fresh [.ofString "."]).2) := by
  have hroot : lookalikeDisk.find? ((Path.ofString ".").absolute ["w"]) =
      some (["w"], .directory) := by decide
  refine ⟨fun h => ?_, fun h => ?_⟩
  · have hway : IsWayToSource ["Box.cs"] := ⟨by decide, _, rfl, ⟨by decide, by decide⟩⟩
    obtain ⟨content, hcontent⟩ := h ["w", "Box.cs"] (mem_collect.mpr (.inr ⟨by decide, _,
      List.mem_singleton_self _, _, _, hroot, ⟨hway, by decide⟩, rfl⟩))
    cases hcontent
  · have hway : IsWayToSource [".cs"] := ⟨by decide, _, rfl, ⟨by decide, by decide⟩⟩
    have hmem := h ["w", ".cs"] ⟨[], rfl⟩
      ⟨by decide, _, List.mem_singleton_self _, _, _, hroot, hway, rfl⟩
    rcases mem_collect.mp hmem with ⟨p, hp, content, hfind⟩ | ⟨-, -, -, root, way, -, ⟨hway, hname⟩, hplace⟩
    · rw [List.mem_singleton.mp hp, hroot] at hfind
      cases hfind
    · have hlast := congrArg List.getLast? hplace
      rw [List.getLast?_append_of_ne_nil _ hway.ne_nil] at hlast
      exact hname hlast.symm

end Reporter

end Facade
