import Facade.Proofs.Command.Histories

/-!
# Files after a source fails

What becomes of the files of earlier runs when a run cannot load some of its sources. Whether a file is
removed depends on the units of the run alone: it goes if the cache knows it and no unit has its name. A
source that fails has no units, so that the files of its containers go as well.

* `OutputPlan.writeAll_presence`, `OutputPlan.removeAll_presence`, `OutputPlan.finish_presence`: which
  files are there, step by step, whatever their contents are;
* `Succeeded`, `Succeeded.stands`: disks after a run that came to its end;
* `Disk.Hosts`, `Options.hosts_of_gather`: a unit of a run has a host in a source that was loaded;
* **`removed_iff_not_generated`**: which files a run removes.
-/

namespace Facade

open Disk

namespace OutputPlan

variable {p : OutputPlan} {units : List GeneratedUnit} {d d' : Disk}

/-! ## Files that are there -/

/-- Writing units leaves all their files and fingerprints, and no others than were there. It makes no
directories, and fails only where files have no place. -/
theorem writeAll_presence (hout : p.outDirectory.IsPlain) (hready : p.Ready d)
    (hnames : ∀ u ∈ units, IsHintName u.hintName) :
    (units.mapM p.writeUnit).Ends d
      (fun _ d' => p.Ready d' ∧
        (∀ q, d'.entry? q = some .directory ↔ d.entry? q = some .directory) ∧ ∀ n,
        (d'.entry? (p.fileAt n) = none ↔
          n ∉ units.map GeneratedUnit.hintName ∧ d.entry? (p.fileAt n) = none) ∧
        (d'.entry? (p.fingerprintAt n) = none ↔
          n ∉ units.map GeneratedUnit.hintName ∧ d.entry? (p.fingerprintAt n) = none))
      (fun _ => ∃ n, ¬ p.HasPlace d n) := by
  refine DiskAction.ends_mapM (I := fun as _ d' => p.Ready d' ∧
    (∀ q, d'.entry? q = some .directory ↔ d.entry? q = some .directory) ∧ ∀ n,
    (d'.entry? (p.fileAt n) = none ↔
      n ∉ as.map GeneratedUnit.hintName ∧ d.entry? (p.fileAt n) = none) ∧
    (d'.entry? (p.fingerprintAt n) = none ↔
      n ∉ as.map GeneratedUnit.hintName ∧ d.entry? (p.fingerprintAt n) = none)) ?_
    ⟨hready, fun _ => Iff.rfl, fun n => by simp⟩
  rintro as u - d₁ hu ⟨hready₁, hdirectories, hpresent⟩
  refine (writeUnit_ends hout hready₁ (hnames u hu)).mono ?_
    fun _ h => ⟨_, fun hplace => h.1 ((HasPlace.congr hdirectories).mpr hplace)⟩
  rintro _ d₂ hd₂
  have hready₂ : p.Ready d₂ := by
    rcases hd₂ with ⟨-, rfl⟩ | ⟨hplace, rfl⟩
    · exact hready₁
    · exact hplace.ready_stored hready₁ (hnames u hu)
  have hdirectories₂ : ∀ q, d₂.entry? q = some .directory ↔ d₁.entry? q = some .directory := by
    rcases hd₂ with ⟨-, rfl⟩ | ⟨hplace, rfl⟩
    · exact fun _ => Iff.rfl
    · exact hplace.directory_stored
  -- the files of the unit are there, and those of others as they were
  have hfile : ∀ n, d₂.entry? (p.fileAt n) = none ↔
      n ≠ u.hintName ∧ d₁.entry? (p.fileAt n) = none := by
    intro n
    rcases hd₂ with ⟨⟨hthere, -⟩, rfl⟩ | ⟨-, rfl⟩
    · exact ⟨fun h => ⟨by rintro rfl; exact hthere h, h⟩, And.right⟩
    · rw [entry?_stored, if_neg fileAt_ne_fingerprintAt]
      by_cases hn : n = u.hintName
      · simp [hn]
      · rw [if_neg fun h => hn (fileAt_injective h).2]
        simp [hn]
  have hfingerprint : ∀ n, d₂.entry? (p.fingerprintAt n) = none ↔
      n ≠ u.hintName ∧ d₁.entry? (p.fingerprintAt n) = none := by
    intro n
    rcases hd₂ with ⟨⟨-, text, htext, -⟩, rfl⟩ | ⟨-, rfl⟩
    · refine ⟨fun h => ⟨?_, h⟩, And.right⟩
      rintro rfl
      obtain ⟨content, hcontent⟩ := Disk.exists_file_of_readText? htext
      rw [h] at hcontent
      cases hcontent
    · rw [entry?_stored]
      by_cases hn : n = u.hintName
      · simp [hn]
      · rw [if_neg fun h => hn (fingerprintAt_injective h).2,
          if_neg (Ne.symm fileAt_ne_fingerprintAt)]
        simp [hn]
  refine ⟨hready₂, fun q => (hdirectories₂ q).trans (hdirectories q), fun n => ⟨?_, ?_⟩⟩
  · rw [hfile, (hpresent n).1]
    simp only [List.map_append, List.map_singleton, List.mem_append, List.mem_singleton, not_or]
    tauto
  · rw [hfingerprint, (hpresent n).2]
    simp only [List.map_append, List.map_singleton, List.mem_append, List.mem_singleton, not_or]
    tauto

/-- Removing units leaves none of their files and fingerprints. It fails only where these are
directories. -/
theorem removeAll_presence {names : List String} (hout : p.outDirectory.IsPlain) (hready : p.Ready d)
    (hnames : ∀ n ∈ names, IsHintName n) :
    (names.mapM p.removeUnit).Ends d
      (fun _ d' => p.Ready d' ∧
        (∀ q, d'.entry? q = some .directory ↔ d.entry? q = some .directory) ∧ ∀ n,
        (d'.entry? (p.fileAt n) = none ↔ n ∈ names ∨ d.entry? (p.fileAt n) = none) ∧
        (d'.entry? (p.fingerprintAt n) = none ↔
          n ∈ names ∨ d.entry? (p.fingerprintAt n) = none))
      (fun _ => ∃ n, ¬ p.HasPlace d n) := by
  refine DiskAction.ends_mapM (I := fun as _ d' => p.Ready d' ∧
    (∀ q, d'.entry? q = some .directory ↔ d.entry? q = some .directory) ∧ ∀ n,
    (d'.entry? (p.fileAt n) = none ↔ n ∈ as ∨ d.entry? (p.fileAt n) = none) ∧
    (d'.entry? (p.fingerprintAt n) = none ↔
      n ∈ as ∨ d.entry? (p.fingerprintAt n) = none)) ?_
    ⟨hready, fun _ => Iff.rfl, fun n => by simp⟩
  rintro as m - d₁ hm ⟨hready₁, hdirectories, hpresent⟩
  refine (removeUnit_ends hout hready₁ (hnames m hm)).mono ?_ ?_
  · rintro _ d₃ ⟨hfile, hfingerprint, d₂, hwithout, hwithout'⟩
    have hready₂ := hready₁.without hwithout hfile (fileAt_ne_manifestAt (q := p))
    have hfingerprint₂ : d₂.entry? (p.fingerprintAt m) ≠ some .directory := by
      rwa [hwithout, if_neg (Ne.symm fileAt_ne_fingerprintAt)]
    refine ⟨hready₂.without hwithout' hfingerprint₂ (fingerprintAt_ne_manifestAt (q := p)),
      fun q => ?_, fun n => ?_⟩
    · rw [hwithout'.directory_iff hfingerprint₂, hwithout.directory_iff hfile, hdirectories]
    rw [hwithout', hwithout', hwithout, hwithout, if_neg fileAt_ne_fingerprintAt,
      if_neg (Ne.symm fileAt_ne_fingerprintAt)]
    by_cases hn : n = m
    · simp [hn]
    · rw [if_neg fun h => hn (fileAt_injective h).2, if_neg fun h => hn (fingerprintAt_injective h).2,
        (hpresent n).1, (hpresent n).2]
      simp [hn]
  · rintro _ ⟨hfile | hfingerprint, -⟩
    · exact ⟨m, fun hplace => hplace.file ((hdirectories _).mp hfile)⟩
    · exact ⟨m, fun hplace => hplace.fingerprint ((hdirectories _).mp hfingerprint)⟩

/-- Which files are there once all units are written and what is stale is removed. -/
theorem finish_presence (hout : p.outDirectory.IsPlain) (hready : p.Ready d)
    (hnames : ∀ u ∈ units, IsHintName u.hintName) :
    (p.finish units).Ends d
      (fun _ d' => p.Ready d' ∧ ∀ n,
        (d'.entry? (p.fileAt n) = none ↔ n ∉ units.map GeneratedUnit.hintName ∧
          (d.entry? (p.fileAt n) = none ∨ d.entry? (p.fingerprintAt n) ≠ none)) ∧
        (d'.entry? (p.fingerprintAt n) = none ↔ n ∉ units.map GeneratedUnit.hintName))
      (fun _ => ∃ n, ¬ p.HasPlace d n) := by
  refine (writeAll_presence hout hready hnames).bind ?_
  rintro _ d₁ ⟨hready₁, hdirectories, hpresent⟩
  refine DiskAction.ends_get_bind ?_
  have hstale : ∀ n, n ∈ p.staleNames d₁ units ↔
      n ∉ units.map GeneratedUnit.hintName ∧ d.entry? (p.fingerprintAt n) ≠ none := by
    intro n
    rw [staleNames, List.mem_filter, hready₁.made.mem_unitNames]
    change d₁.entry? (p.fingerprintAt n) ≠ none ∧ _ ↔ _
    rw [ne_eq, (hpresent n).2]
    simp only [Bool.not_eq_true', List.contains_eq_mem, decide_eq_false_iff_not]
    tauto
  have hstaleNames : ∀ n ∈ p.staleNames d₁ units, IsHintName n := fun n hn =>
    Cache.isHintName_of_entry? hready.tree ((hstale n).mp hn).2
  refine ((removeAll_presence hout hready₁ hstaleNames).mono (fun _ _ h => h) ?_).bind ?_
  · rintro _ ⟨n, hn⟩
    exact ⟨n, fun hplace => hn ((HasPlace.congr hdirectories).mpr hplace)⟩
  rintro _ d₂ ⟨hready₂, -, hgone⟩
  refine DiskAction.ends_pure ⟨hready₂, fun n => ?_⟩
  rw [(hgone n).1, (hgone n).2, hstale, (hpresent n).1, (hpresent n).2]
  tauto

theorem writeUnits_fingerprints (hp : p.IsProper) (hd : d.IsTree)
    (hnames : ∀ u ∈ units, IsHintName u.hintName) :
    (p.writeUnits units).Ends d
      (fun _ d' => p.Ready d' ∧ ∀ n,
        d'.entry? (p.fingerprintAt n) = none ↔ n ∉ units.map GeneratedUnit.hintName)
      (fun _ => True) := by
  rw [writeUnits_eq]
  refine ((prepare_ends hp hd).mono (fun _ _ h => h) fun _ _ => trivial).bind ?_
  rintro _ d₁ ⟨hready, -, -⟩
  exact (finish_presence hp.out hready hnames).mono (fun _ _ h => ⟨h.1, fun n => (h.2 n).2⟩)
    fun _ _ => trivial

/-- A file is in the way of a call, or a directory in the place of one of its files, or one of the
directories that it makes is. -/
def IsBlocked (p : OutputPlan) (d : Disk) : Prop :=
  (∃ stop ∈ p.ways, (d.read? stop).isSome = true) ∨ ∃ n, p.fingerprintAt n ∈ p.ways ∨
    d.entry? (p.fileAt n) = some .directory ∨ d.entry? (p.fingerprintAt n) = some .directory

/-- **Which files a call removes** if it finds the cache in use: those with a fingerprint in the cache
that are not of its units. It comes to its end if nothing is in its way. -/
theorem writeUnits_presence (hp : p.IsProper) (hinc : p.incremental = true) (hready : p.Ready d)
    (hnames : ∀ u ∈ units, IsHintName u.hintName) :
    (p.writeUnits units).Ends d
      (fun _ d' => ∀ n, d.entry? (p.fileAt n) ≠ none →
        (d'.entry? (p.fileAt n) = none ↔
          n ∉ units.map GeneratedUnit.hintName ∧ d.entry? (p.fingerprintAt n) ≠ none))
      (fun _ => p.IsBlocked d) := by
  rw [writeUnits_eq]
  refine ((prepare_ends_of_ready hp hinc hready).mono (fun _ _ h => h) fun _ => .inl).bind ?_
  rintro _ d₁ ⟨hready₁, hgrow, hout⟩
  refine (finish_presence hp.out hready₁ hnames).mono ?_ ?_
  · rintro _ d' ⟨-, hpresent⟩ n hfile
    have hfingerprint : d₁.entry? (p.fingerprintAt n) = d.entry? (p.fingerprintAt n) := by
      rcases hgrow (p.fingerprintAt n) with heq | ⟨hstop, hnone, -⟩
      · exact heq
      · -- what is above a file was there before
        have hprefix := (prefix_of_mem_stops hp.out.names hstop).trans
          (List.prefix_append p.outDirectory [n ++ ".cs"])
        rw [hready.tree.above_prefix hprefix (Ne.symm fileAt_ne_fingerprintAt) hfile] at hnone
        cases hnone
    rw [(hpresent n).1, hgrow.entry?_eq hfile, hfingerprint]
    simp [hfile]
  · rintro _ ⟨n, hn⟩
    by_contra hclear
    simp only [IsBlocked, not_or, not_exists] at hclear
    obtain ⟨hway, hfile, hfingerprint⟩ := hclear.2 n
    refine hn ⟨hout, ?_, ?_⟩
    · rwa [hgrow.entry?_eq_of_not (fileAt_not_mem_stops hp.out)]
    · rwa [hgrow.entry?_eq_of_not fun hstop => hway (mem_ways_of_out hstop)]

end OutputPlan

/-! ## Units and their sources -/

/-- The source has a declaration that can host the unit of this name. -/
def CompilationUnit.Hosts (c : CompilationUnit) (hintName : String) : Prop :=
  ∃ i, ∃ site ∈ c.candidates i, hintName = site.head.name ++ ".generated"

/-- The file at the place can be read and parses, and hosts the unit of this name. -/
def Disk.Hosts (d : Disk) (place : Location) (hintName : String) : Prop :=
  ∃ e, (Reporter.fresh.loadFile d place).2 = some e ∧ e.2.Hosts hintName

/-- The places of the sources of a run. -/
def Options.places (o : Options) (s : Setting) (d : Disk) : List Location :=
  (Reporter.fresh.collect d s.workingDirectory o.sourcePaths).2

theorem Reporter.loadFile_snd (r : Reporter) (d : Disk) (place : Location) :
    (r.loadFile d place).2 = (Reporter.fresh.loadFile d place).2 := by
  unfold loadFile
  cases d.textOf place with
  | error reason => rfl
  | ok text =>
    simp only [parseSource]
    cases CompilationUnit.parseWithTree (Location.text place) text <;> rfl

theorem Reporter.mem_load {d : Disk} {r : Reporter} {places : List Location}
    {e : Tree × CompilationUnit} (he : e ∈ (r.load d places).2) :
    ∃ place ∈ places, (Reporter.fresh.loadFile d place).2 = some e := by
  induction places generalizing r with
  | nil => simp [load] at he
  | cons place rest ih =>
    rw [load] at he
    rcases List.mem_append.mp he with he | he
    · rw [Option.mem_toList, loadFile_snd] at he
      exact ⟨place, List.mem_cons_self, he⟩
    · obtain ⟨found, hfound, hload⟩ := ih he
      exact ⟨found, List.mem_cons_of_mem _ hfound, hload⟩

/-- **Every unit of a run has a host** in a source that was loaded, but for those of the generator
itself. -/
theorem Options.hosts_of_gather {o : Options} {s : Setting} {d : Disk} {g : Generated}
    (h : o.gather s d = some g) {u : GeneratedUnit} (hu : u ∈ g.result.outputUnits) :
    u.hintName ∈ markerSources.map Prod.fst ∨ ∃ place ∈ o.places s d, d.Hosts place u.hintName := by
  unfold gather at h
  split at h
  next r places hcollect =>
  split at h
  · cases h
  split at h
  next r' sources hload =>
  split at h
  · next result after hrun =>
    cases h
    rcases List.mem_append.mp hu with hu | hu
    · obtain ⟨source, hsource, rfl⟩ := List.mem_map.mp hu
      exact .inl (List.mem_map_of_mem hsource)
    · obtain ⟨site, hsite, hname⟩ := Generator.namedAfter_run hrun u hu
      obtain ⟨candidates, hcandidates, hmem⟩ := List.mem_flatten.mp hsite
      obtain ⟨i, hi, rfl⟩ := List.mem_mapIdx.mp hcandidates
      obtain ⟨e, he, heq⟩ := List.mem_map.mp (List.getElem_mem hi)
      have hloaded : e ∈ (r.load d places).2 := by
        rw [hload]
        exact he
      obtain ⟨place, hplace, hfound⟩ := Reporter.mem_load hloaded
      have hplaces : o.places s d = places := by rw [Options.places, hcollect]
      refine .inr ⟨place, hplaces ▸ hplace, e, hfound, i, site, ?_, hname⟩
      rw [heq]
      exact hmem
  · cases h

/-! ## Runs -/

/-- A disk after a run that came to its end and wrote these units, and after changes that leave its cache
alone. -/
inductive Succeeded (p : OutputPlan) : List GeneratedUnit → Disk → Prop
  | run {d : Disk} {s : Setting} {arguments : List String} {units : List GeneratedUnit}
      (tree : d.IsTree) (writes : Writes s arguments d p units)
      (ended : (run s arguments d).facades.isSome = true) :
      Succeeded p units (Facade.run s arguments d).disk
  | change {d d' : Disk} {units : List GeneratedUnit} (before : Succeeded p units d)
      (tree : d'.IsTree)
      (directories : ∀ stop ∈ p.cache.unitsPath.stops, d'.entry? stop = d.entry? stop)
      (manifest : d'.entry? p.manifestAt = d.entry? p.manifestAt)
      (fingerprints : ∀ n, d'.entry? (p.fingerprintAt n) = d.entry? (p.fingerprintAt n)) :
      Succeeded p units d'

variable {p : OutputPlan} {last units : List GeneratedUnit} {d : Disk} {s : Setting}
  {arguments : List String}

/-- The cache is in use then, and knows the units of the last run. -/
theorem Succeeded.stands (hp : p.IsProper) (h : Succeeded p last d) :
    p.Ready d ∧ ∀ n, d.entry? (p.fingerprintAt n) = none ↔
      n ∉ last.map GeneratedUnit.hintName := by
  induction h with
  | run tree writes ended =>
    obtain ⟨report, hrun⟩ := writes.disk_run.2 ended
    exact (OutputPlan.writeUnits_fingerprints hp tree writes.isHintName).of_ok hrun
  | change before tree directories manifest fingerprints ih =>
    obtain ⟨hready, hknown⟩ := ih
    refine ⟨⟨tree, fun stop hstop => ?_, hready.agrees.congr (readText?_congr manifest)⟩, fun n => ?_⟩
    · rw [directories stop hstop]
      exact hready.made stop hstop
    · rw [fingerprints n, hknown n]

/-- **A run removes the files of the last run that it does not generate again**, whichever of its sources
it could load. A unit that it does generate has a host in a source that it could load; so nothing is left
of the units of a source that fails, unless another source hosts them as well. -/
theorem removed_iff_not_generated (hp : p.IsProper) (hinc : p.incremental = true)
    (hlast : Succeeded p last d) (hwrites : Writes s arguments d p units)
    (hend : (run s arguments d).facades.isSome = true) {n : String}
    (hfile : d.entry? (p.fileAt n) ≠ none) :
    ((run s arguments d).disk.entry? (p.fileAt n) = none ↔
      n ∈ last.map GeneratedUnit.hintName ∧ n ∉ units.map GeneratedUnit.hintName) ∧
    (n ∈ units.map GeneratedUnit.hintName → n ∈ markerSources.map Prod.fst ∨
      ∃ o, Options.parse arguments = .ok (.run o) ∧ ∃ place ∈ o.places s d, d.Hosts place n) := by
  obtain ⟨hready, hknown⟩ := hlast.stands hp
  obtain ⟨report, hrun⟩ := hwrites.disk_run.2 hend
  have hpresence := (OutputPlan.writeUnits_presence hp hinc hready hwrites.isHintName).of_ok hrun
  refine ⟨?_, fun hn => ?_⟩
  · rw [hpresence n hfile, ne_eq, hknown n, not_not, and_comm]
  · obtain ⟨o, g, hparse, -, -, -, hgather, -, rfl, rfl⟩ := hwrites
    obtain ⟨u, hu, rfl⟩ := List.mem_map.mp hn
    exact (Options.hosts_of_gather hgather hu).imp id fun hhost => ⟨o, hparse, hhost⟩

section Example

/-- A source with a declaration that hosts a unit. -/
def hostSource : String :=
  "using FacadeGenerator;namespace N\x7binterface I\x7b\x7dpartial class A:IFacadeGenerator<I>\x7b\x7d\x7d"

/-- Its unit. -/
def hostUnit : GeneratedUnit :=
  ⟨"A", "A.generated", "#nullable enable\nusing FacadeGenerator;\n\nnamespace N\n\x7b\n    internal partial class A : N.I\n    \x7b\n        private partial N.I GetImplementation();\n    \x7d\n\x7d\n"⟩

/-- A working directory with that source, and an empty one. -/
def hostDisk : Disk :=
  ⟨[(["w"], .directory), (["w", "a.cs"], .file (Utf8.encode hostSource)), (["w", "b.cs"], .file [])]⟩

/-- The words of a run on both. -/
def hostArguments : List String := ["--no-banner", "-o", "out", "--cache-dir", "c", "a.cs", "b.cs"]

/-- What they ask for. -/
def hostOptions : Options := { sampleOptions with sources := ["a.cs", "b.cs"] }

/-- What a run leaves. -/
def hostAfter : Disk := (run sampleSetting hostArguments hostDisk).disk

/-- What the writer leaves: a disk to be computed by the kernel only. -/
@[irreducible] def hostWritten : Disk := (samplePlan.writeUnitsSorted [sampleUnit, hostUnit]).disk hostDisk

/-- A disk with a source that is broken. -/
def withBroken (name : String) (d : Disk) : Disk := d.put ["w", name] (.file [123])

/-- What is left when a source is broken after the run. -/
def broken (name : String) : Disk := withBroken name hostAfter

/-- What a run on the disk has to write, if its plan is the one of the examples. -/
def hostUnits? (d : Disk) : Option (List GeneratedUnit) :=
  if hostOptions.plan sampleSetting d = samplePlan then
    (hostOptions.gather sampleSetting d).map fun g => g.result.outputUnits
  else none

theorem host_parse : Options.parse hostArguments = .ok (.run hostOptions) := by decide +kernel

theorem host_writes {d : Disk} {units : List GeneratedUnit} (h : hostUnits? d = some units) :
    Writes sampleSetting hostArguments d samplePlan units := by
  unfold hostUnits? at h
  split_ifs at h with hplan
  exact (writes_iff host_parse ⟨rfl, rfl, rfl, by decide⟩ hplan h).mpr ⟨rfl, rfl⟩

/-- The units of the runs on the two sources, of which none, the one or the other is broken. -/
theorem host_units : hostUnits? hostDisk = some [sampleUnit, hostUnit] ∧
    hostUnits? (withBroken "b.cs" hostWritten) = some [sampleUnit, hostUnit] ∧
    hostUnits? (withBroken "a.cs" hostWritten) = some [sampleUnit] ∧
    (Reporter.fresh.loadFile hostDisk ["w", "a.cs"]).2.any (fun e =>
      (e.2.candidates 0).any fun site => "A.generated" == site.head.name ++ ".generated") ∧
    ∀ name ∈ ["a.cs", "b.cs"],
      (Reporter.fresh.parseSource ⟨Location.text ["w", name], "\x7b"⟩).2 = none :=
  -- one after the other, so that no two of them are evaluated at the same time
  ⟨by decide +kernel, by decide +kernel, by decide +kernel, by decide +kernel, by decide +kernel⟩

/-- What the writer has put on the disk. -/
theorem hostWritten_entries :
    (samplePlan.writeUnitsSorted [sampleUnit, hostUnit]).succeeds hostDisk ∧
    (∀ e ∈ hostWritten.entries, e.2 = .directory →
      e.1 ∈ [["w"], ["w", "out"], ["w", "c"], ["w", "c", "units"]]) ∧
    (∀ stop ∈ samplePlan.ways, hostWritten.entry? stop = some .directory) ∧
    (∀ name ∈ ["a.cs", "b.cs"], hostWritten.entry? (["w"] ++ [name]) ≠ some .directory) ∧
    hostWritten.entry? (samplePlan.fileAt "A.generated") ≠ none := by
  decide +kernel

theorem hostDisk_isTree : hostDisk.IsTree := by
  refine Disk.isTree_of_entries ?_
  simp only [hostDisk, List.forall_mem_cons]
  exact ⟨⟨[], "w", rfl, by decide, Disk.entry?_nil⟩,
    ⟨["w"], "a.cs", rfl, by decide, by decide⟩,
    ⟨["w"], "b.cs", rfl, by decide, by decide⟩, fun _ h => by cases h⟩

theorem hostDisk_writes : Writes sampleSetting hostArguments hostDisk samplePlan [sampleUnit, hostUnit] :=
  host_writes host_units.1

theorem hostAfter_eq : hostAfter = hostWritten := by
  rw [hostAfter, hostDisk_writes.disk_run.1, OutputPlan.writeUnits_eq_writeUnitsSorted, hostWritten]

theorem hostAfter_succeeded : Succeeded samplePlan [sampleUnit, hostUnit] hostAfter := by
  obtain ⟨report, d', hrun⟩ : ∃ report d',
      (samplePlan.writeUnits [sampleUnit, hostUnit]).run hostDisk = .ok report d' := by
    rw [OutputPlan.writeUnits_eq_writeUnitsSorted]
    exact DiskAction.exists_ok_of_succeeds hostWritten_entries.1
  exact .run hostDisk_isTree hostDisk_writes (hostDisk_writes.isSome_facades hrun)

theorem samplePlan_length (n : String) :
    (samplePlan.fileAt n).length = 3 ∧ (samplePlan.fingerprintAt n).length = 4 := ⟨rfl, rfl⟩

section

variable {name : String} (hname : name ∈ ["a.cs", "b.cs"])

include hname

theorem entry?_broken {q : Location} (hq : q.length ≠ 2 ∨ q ∈ samplePlan.ways) :
    Disk.entry? (broken name) q = hostWritten.entry? q := by
  have hways : ∀ name ∈ ["a.cs", "b.cs"], ["w", name] ∉ samplePlan.ways := by decide
  rw [broken, hostAfter_eq, withBroken, Disk.entry?_put (by simp), if_neg]
  rintro rfl
  exact hq.elim (absurd rfl) (hways name hname)

theorem broken_succeeded : Succeeded samplePlan [sampleUnit, hostUnit] (broken name) := by
  have hp : samplePlan.IsProper := sample_orderly.proper _ rfl
  have hfile : ∀ name ∈ ["a.cs", "b.cs"], IsFileName name := by decide
  obtain ⟨-, -, hways, hnames, -⟩ := hostWritten_entries
  have hafter := hostAfter_succeeded
  rw [hostAfter_eq] at hafter
  refine hafter.change ?_ (fun stop hstop => ?_) ?_ fun n => ?_
  · rw [broken, hostAfter_eq]
    exact (hafter.stands hp).1.tree.put_file (hfile name hname) (hways _ (by decide)) (hnames name hname)
  · exact entry?_broken hname (.inr (OutputPlan.mem_ways_of_units hstop))
  · exact entry?_broken hname (.inl (by decide))
  · exact entry?_broken hname (.inl (by rw [(samplePlan_length n).2]; decide))

theorem not_isBlocked_broken : ¬ samplePlan.IsBlocked (broken name) := by
  obtain ⟨-, hlisted, hways, -⟩ := hostWritten_entries
  rintro (⟨stop, hstop, hfile⟩ | ⟨n, hway | hfile | hfingerprint⟩)
  · obtain ⟨content, hcontent⟩ := Option.isSome_iff_exists.mp hfile
    rw [Disk.read?_eq_some, entry?_broken hname (.inr hstop), hways stop hstop] at hcontent
    cases hcontent
  · have hshort : ∀ stop ∈ samplePlan.ways, stop.length < 4 := by decide
    exact absurd (hshort _ hway) (by rw [(samplePlan_length n).2]; decide)
  · rw [entry?_broken hname (.inl (by rw [(samplePlan_length n).1]; decide))] at hfile
    have hplace : samplePlan.fileAt n = ["w", "out", n ++ ".cs"] := rfl
    have hmem := hlisted _ (Disk.mem_entries_of_eq_some OutputPlan.fileAt_ne_nil hfile) rfl
    simp [hplace] at hmem
  · rw [entry?_broken hname (.inl (by rw [(samplePlan_length n).2]; decide))] at hfingerprint
    have hmem := hlisted _ (Disk.mem_entries_of_eq_some OutputPlan.fingerprintAt_ne_nil hfingerprint) rfl
    have hshort : ∀ q ∈ [["w"], ["w", "out"], ["w", "c"], ["w", "c", "units"]], q.length < 4 := by decide
    exact absurd (hshort _ hmem) (by rw [(samplePlan_length n).2]; decide)

theorem broken_ends {units : List GeneratedUnit}
    (hwrites : Writes sampleSetting hostArguments (broken name) samplePlan units) :
    (run sampleSetting hostArguments (broken name)).facades.isSome = true := by
  have hp : samplePlan.IsProper := sample_orderly.proper _ rfl
  have hends := OutputPlan.writeUnits_presence hp rfl ((broken_succeeded hname).stands hp).1
    hwrites.isHintName
  cases hrun : (samplePlan.writeUnits units).run (broken name) with
  | ok report d' => exact hwrites.isSome_facades hrun
  | error fault d' => exact absurd (hends.of_error hrun) (not_isBlocked_broken hname)

theorem loadFile_broken : (Reporter.fresh.loadFile (broken name) ["w", name]).2 = none := by
  have htext : (broken name).textOf ["w", name] = .ok "\x7b" := by
    rw [Disk.textOf, broken, withBroken, Disk.entry?_put (by simp), if_pos rfl]
    rfl
  rw [Reporter.loadFile, htext]
  exact host_units.2.2.2.2 name hname

end

/-- **One of two sources is broken**: the file of the other one stays, and that one hosts its unit. -/
theorem removed_iff_not_generated_broken :
    (Reporter.fresh.loadFile (broken "b.cs") ["w", "b.cs"]).2 = none ∧
    (run sampleSetting hostArguments (broken "b.cs")).disk.entry?
      (samplePlan.fileAt "A.generated") ≠ none ∧
    ∃ place ∈ hostOptions.places sampleSetting (broken "b.cs"),
      (broken "b.cs").Hosts place "A.generated" := by
  have hwrites : Writes sampleSetting hostArguments (broken "b.cs") samplePlan [sampleUnit, hostUnit] := by
    rw [broken, hostAfter_eq]
    exact host_writes host_units.2.1
  have hfile : Disk.entry? (broken "b.cs") (samplePlan.fileAt "A.generated") ≠ none := by
    rw [entry?_broken (by simp) (.inl (by decide))]
    exact hostWritten_entries.2.2.2.2
  obtain ⟨hremoved, hhost⟩ := removed_iff_not_generated (sample_orderly.proper _ rfl) rfl
    (broken_succeeded (by simp)) hwrites (broken_ends (by simp) hwrites) hfile
  refine ⟨loadFile_broken (by simp), fun hnone => (hremoved.mp hnone).2 (by decide), ?_⟩
  obtain ⟨o, ho, hhosts⟩ := (hhost (by decide)).resolve_left (by decide)
  rw [host_parse, Except.ok.injEq, Request.run.injEq] at ho
  exact ho ▸ hhosts

/-- **A source that fails costs the file of its unit.** A run generates a unit, its source is broken, and
the next run removes the file. -/
theorem file_of_failed_source_removed : ¬ ∀ n, hostDisk.Hosts ["w", "a.cs"] n →
    (Reporter.fresh.loadFile (broken "a.cs") ["w", "a.cs"]).2 = none →
    Disk.entry? (broken "a.cs") (samplePlan.fileAt n) ≠ none →
    (run sampleSetting hostArguments (broken "a.cs")).disk.entry? (samplePlan.fileAt n) ≠ none := by
  intro h
  have hhosts : hostDisk.Hosts ["w", "a.cs"] "A.generated" := by
    obtain ⟨e, hload, hcandidate⟩ := (Option.any_eq_true _ _).mp host_units.2.2.2.1
    obtain ⟨site, hsite, hname⟩ := List.any_eq_true.mp hcandidate
    exact ⟨e, hload, 0, site, hsite, beq_iff_eq.mp hname⟩
  have hfile : Disk.entry? (broken "a.cs") (samplePlan.fileAt "A.generated") ≠ none := by
    rw [entry?_broken (by simp) (.inl (by decide))]
    exact hostWritten_entries.2.2.2.2
  have hwrites : Writes sampleSetting hostArguments (broken "a.cs") samplePlan [sampleUnit] := by
    rw [broken, hostAfter_eq]
    exact host_writes host_units.2.2.1
  obtain ⟨report, hrun⟩ := hwrites.disk_run.2 (broken_ends (by simp) hwrites)
  have hp : samplePlan.IsProper := sample_orderly.proper _ rfl
  obtain ⟨hready, hknown⟩ := (@broken_succeeded "a.cs" (by simp)).stands hp
  have hpresence := (OutputPlan.writeUnits_presence hp rfl hready hwrites.isHintName).of_ok hrun
  refine h "A.generated" hhosts (loadFile_broken (by simp)) hfile ((hpresence _ hfile).mpr ⟨by decide, ?_⟩)
  rw [ne_eq, hknown]
  decide

end Example

end Facade
