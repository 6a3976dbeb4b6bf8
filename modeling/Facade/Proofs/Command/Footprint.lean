import Facade.Proofs.Disk.Footprint
import Facade.Proofs.Command.Histories

/-!
# What a run leaves alone

A run writes and removes files of units and their fingerprints, and it may begin its cache anew, with
everything that lies in the directory of the cache. All other files stay as they are, however the run ends.

* `OutputPlan.IsSpelled`: plans of written paths;
* `OutputPlan.Handles`, `OutputPlan.Owns`: the units that a plan deals with, and the files that it may change;
* `OutputPlan.prepare_confined`, `OutputPlan.touches_writeUnit`, `OutputPlan.touches_removeUnit`: the steps;
* **`run_spares`**: a run changes no file that is not its own.
-/

namespace Facade

open Disk

/-! ## Caches -/

namespace Cache

variable {c : Cache} {d d' : Disk} {n : String}

theorem place_manifestPath : c.manifestPath.place = c.manifestAt :=
  Path.place_child isFileName_manifestName c.path

theorem parts_fingerprintPath_of_slash (hn : '/' ∉ n.toList) :
    (c.fingerprintPath n).parts = c.unitsPath.parts ++ [n ++ fingerprintEnding] :=
  Path.parts_child_ending hn (by decide) (by decide) c.unitsPath

theorem place_fingerprintPath (hn : '/' ∉ n.toList) :
    (c.fingerprintPath n).place = c.fingerprintAt n := by
  rw [fingerprintPath, Path.place_child_ending hn (by decide) (by decide), place_unitsPath]
  rfl

theorem isValid_of_confined {T : Location → Prop} (hc : c.remembered = none)
    (h : Confined (fun _ => False) T d d') (hvalid : c.isValid d = true) : c.isValid d' = true := by
  obtain ⟨hreach, hagrees⟩ := (isValid_iff hc).mp hvalid
  refine (isValid_iff hc).mpr ⟨reach?_mono (fun q hq => ?_) hreach, hagrees.congr ?_⟩
  · rw [h.entry?_eq (by rw [hq]; simp) id, hq]
  · obtain ⟨content, hcontent⟩ := hagrees.exists_file
    exact readText?_congr (h.entry?_eq (by rw [hcontent]; simp) id)

theorem confined_wiped (d : Disk) : Confined (c.home <+: ·) (fun _ => False) d (c.wiped d) := by
  unfold wiped
  split_ifs
  · exact .eraseTree c.home
  · exact .refl _ _ d

theorem touches_rebuild :
    c.rebuild.Touches (c.home <+: ·) (fun q => q ∈ c.unitsPath.stops ∨ q = c.manifestAt) := by
  intro d
  have hwipe := wipe_ends (c := c) (d := d)
  refine (hwipe.mono (fun _ _ h => h) ?_).bind ?_
  · rintro _ (⟨rfl, -⟩ | ⟨rfl, -⟩)
    · exact .refl _ _ _
    · exact (Confined.eraseBelow c.home).mono (fun _ => id) fun _ h => h.elim
  rintro _ _ ⟨rfl, rfl⟩
  have hwiped := (confined_wiped (c := c) d).mono (V := fun q => q ∈ c.unitsPath.stops ∨ q = c.manifestAt)
    (fun _ => id) fun _ h => h.elim
  have hmake := (touches_makeDirectories c.unitsPath).mono (U := (c.home <+: ·))
    (V := fun q => q ∈ c.unitsPath.stops ∨ q = c.manifestAt) (fun _ h => h.elim) fun _ => .inl
  have hwrite := (touches_write c.manifestPath (Utf8.encode c.manifest.text)).mono (U := (c.home <+: ·))
    (V := fun q => q ∈ c.unitsPath.stops ∨ q = c.manifestAt)
    (fun q hq => by rw [hq, place_manifestPath]; exact List.prefix_append _ _)
    (fun q hq => .inr (hq.trans place_manifestPath))
  have hrest := hmake.bind fun _ => hwrite.bind fun _ =>
    DiskAction.touches_pure { c with remembered := Json.parse c.manifest.text }
  exact (hrest (c.wiped d)).mono (fun _ _ h => hwiped.trans h) fun _ h => hwiped.trans h

theorem touches_storeFingerprint (hn : '/' ∉ n.toList) (fingerprint : String) :
    (c.storeFingerprint n fingerprint).Touches (· = c.fingerprintAt n)
      (fun q => q ∈ c.unitsPath.stops ∨ q = c.fingerprintAt n) := by
  have hparent : (c.fingerprintPath n).parent.stops = c.unitsPath.stops := by
    simp [Path.stops, Path.parent, parts_fingerprintPath_of_slash hn]
  have hwrite := touches_writeWithParents (c.fingerprintPath n) (Utf8.encode fingerprint)
  rwa [hparent, place_fingerprintPath hn] at hwrite

theorem touches_forgetUnit (hn : '/' ∉ n.toList) :
    (c.forgetUnit n).Touches (· = c.fingerprintAt n) (fun _ => False) := by
  refine DiskAction.touches_get_bind fun d => ?_
  split_ifs
  · have hremove := touches_removeFile (c.fingerprintPath n)
    rwa [place_fingerprintPath hn] at hremove
  · exact DiskAction.touches_pure ()

theorem entry?_of_mem_unitNames (hn : n ∈ c.unitNames d) : d.entry? (c.fingerprintAt n) ≠ none := by
  simp only [unitNames, List.mem_mergeSort, List.mem_filterMap, namesAt] at hn
  obtain ⟨name, hname, hending⟩ := hn
  rw [withoutEnding?_eq_some] at hending
  cases hreach : d.reach? c.unitsPath with
  | none => simp [hreach] at hname
  | some place =>
    obtain rfl := (reach?_eq_some hreach).trans place_unitsPath
    rw [hreach, Option.map_some, Option.getD_some, mem_names, hending] at hname
    exact hname

end Cache

/-! ## Plans -/

namespace OutputPlan

variable {p : OutputPlan} {d d' : Disk} {units : List GeneratedUnit} {u : GeneratedUnit} {n : String}

/-- The paths of the plan are made of parts of written paths, and the one to the directory of generated
files takes no steps back. -/
structure IsSpelled (p : OutputPlan) : Prop where
  names : ∀ name ∈ p.outDirectory, Location.isDots name = false
  out : ∀ name ∈ p.outDirectory, '/' ∉ name.toList
  cache : ∀ part ∈ p.cachePath.parts, '/' ∉ part.toList

theorem IsSpelled.slash_not_mem (h : p.IsSpelled) {q : Location} (hq : q ∈ p.ways) :
    ∀ name ∈ q, '/' ∉ name.toList := by
  have hroot : ∀ name ∈ ([] : Location), '/' ∉ name.toList := fun _ hname => by cases hname
  rcases List.mem_append.mp hq with hq | hq
  · exact Location.of_mem_stops hroot (fun part hpart => .inr (h.out part hpart)) hq
  · refine Location.of_mem_stops hroot (fun part hpart => ?_) hq
    rw [Cache.parts_unitsPath, List.mem_append, List.mem_singleton] at hpart
    rcases hpart with hpart | rfl
    · exact .inr (h.cache part hpart)
    · exact .inr (by decide)

theorem IsSpelled.place_filePath (h : p.IsSpelled) (hn : '/' ∉ n.toList) :
    (p.filePath (n ++ ".cs")).place = p.fileAt n := by
  rw [filePath, Path.place_child_ending hn (by decide) (by decide)]
  exact congrArg (· ++ [n ++ ".cs"]) (Location.foldl_step_of_names h.names [])

variable (p d) in
/-- The run does not go on with the cache that is there: it is not incremental, or the path of the cache
leads to no manifest of this version for this directory. -/
def StartsAnew : Prop := p.incremental = false ∨ p.cache.isValid d = false

variable (p d units) in
/-- The run writes the unit of this name, or finds a fingerprint of it: on the disk as it was, or in a
directory that is made on the way to the cache. -/
def Handles (n : String) : Prop :=
  n ∈ units.map GeneratedUnit.hintName ∨ d.entry? (p.fingerprintAt n) ≠ none ∨
    p.fingerprintAt n ∈ p.cache.unitsPath.stops

variable (p d units) in
/-- The places of what a run may write and remove. -/
inductive Owns : Location → Prop
  | file {n : String} (handled : p.Handles d units n) : Owns (p.fileAt n)
  | fingerprint {n : String} (handled : p.Handles d units n) : Owns (p.fingerprintAt n)
  | cache {q : Location} (anew : p.StartsAnew d) (below : p.cache.home <+: q) : Owns q

/-- Making the directories changes nothing but a cache that begins anew. -/
theorem prepare_confined (d : Disk) :
    p.prepare.Ends d
      (fun _ => Confined (fun q => p.StartsAnew d ∧ p.cache.home <+: q)
        (fun q => q ∈ p.ways ∨ q = p.manifestAt) d)
      (Confined (fun q => p.StartsAnew d ∧ p.cache.home <+: q)
        (fun q => q ∈ p.ways ∨ q = p.manifestAt) d) := by
  have hmake := touches_makeDirectories (.ofLocation p.outDirectory)
  refine ((hmake d).mono (fun _ _ h => h) ?_).bind ?_
  · exact fun _ h => h.mono (fun _ h => h.elim) fun _ hq => .inl (mem_ways_of_out hq)
  intro _ d₁ hd₁
  have hstart := hd₁.mono (U := fun q => p.StartsAnew d ∧ p.cache.home <+: q)
    (V := fun q => q ∈ p.ways ∨ q = p.manifestAt) (fun _ h => h.elim)
    fun _ hq => .inl (mem_ways_of_out hq)
  refine DiskAction.ends_get_bind ?_
  split_ifs with hvalid
  · have hunits := (touches_makeDirectories p.cache.unitsPath).mono
      (U := fun q => p.StartsAnew d ∧ p.cache.home <+: q)
      (V := fun q => q ∈ p.ways ∨ q = p.manifestAt) (fun _ h => h.elim)
      fun _ hq => .inl (mem_ways_of_units hq)
    exact (hunits d₁).mono (fun _ _ h => hstart.trans h) fun _ h => hstart.trans h
  · have hanew : p.StartsAnew d := by
      by_contra hanew
      simp only [StartsAnew, not_or, Bool.not_eq_false] at hanew
      exact hvalid (by rw [hanew.1, Cache.isValid_of_confined rfl hd₁ hanew.2]; rfl)
    have hrebuild := (Cache.touches_rebuild (c := p.cache)).mono
      (U := fun q => p.StartsAnew d ∧ p.cache.home <+: q)
      (V := fun q => q ∈ p.ways ∨ q = p.manifestAt) (fun _ hq => ⟨hanew, hq⟩)
      fun _ hq => hq.imp mem_ways_of_units id
    exact (hrebuild.discard d₁).mono (fun _ _ h => hstart.trans h) fun _ h => hstart.trans h

/-- Writing a unit changes its file and its fingerprint. -/
theorem touches_writeUnit (h : p.IsSpelled) (hu : '/' ∉ u.hintName.toList) :
    (p.writeUnit u).Touches
      (fun q => q = p.fileAt u.hintName ∨ q = p.fingerprintAt u.hintName)
      (fun q => q ∈ p.ways ∨ q = p.fileAt u.hintName ∨ q = p.fingerprintAt u.hintName) := by
  refine DiskAction.touches_get_bind fun d => ?_
  simp only
  split_ifs
  · exact DiskAction.touches_pure _
  · have hwrite := touches_write (p.filePath u.fileName) (Utf8.encode u.text)
    rw [GeneratedUnit.fileName, h.place_filePath hu] at hwrite
    have hstore := Cache.touches_storeFingerprint (c := p.cache) hu (unitFingerprint u)
    exact (hwrite.mono (fun _ => .inl) fun _ hq => .inr (.inl hq)).bind fun _ =>
      (hstore.mono (fun _ => .inr) fun _ hq => hq.elim (fun hq => .inl (mem_ways_of_units hq))
        fun hq => .inr (.inr hq)).bind fun _ => DiskAction.touches_pure _

/-- Removing a unit changes its file and its fingerprint. -/
theorem touches_removeUnit (h : p.IsSpelled) (hn : '/' ∉ n.toList) :
    (p.removeUnit n).Touches (fun q => q = p.fileAt n ∨ q = p.fingerprintAt n)
      (fun _ => False) := by
  have hforget := (Cache.touches_forgetUnit (c := p.cache) hn).mono
    (U := fun q => q = p.fileAt n ∨ q = p.fingerprintAt n) (fun _ => .inr) fun _ => id
  refine DiskAction.touches_get_bind fun d => ?_
  simp only
  split_ifs
  · have hremove := touches_removeFile (p.filePath (n ++ ".cs"))
    rw [h.place_filePath hn] at hremove
    exact (hremove.mono (fun _ => .inl) fun _ => id).bind fun _ =>
      hforget.bind fun _ => DiskAction.touches_pure _
  · exact hforget.bind fun _ => DiskAction.touches_pure _

variable (p units) in
/-- The places of what a run may leave that was not there. -/
def Makes (q : Location) : Prop :=
  q ∈ p.ways ∨ q = p.manifestAt ∨
    ∃ u ∈ units, q = p.fileAt u.hintName ∨ q = p.fingerprintAt u.hintName

/-- A fingerprint that is found once the units are written is that of a unit that the run handles, or
the way to the directory of generated files leads through its place. -/
theorem handles_of_makes (h : d.entry? (p.fingerprintAt n) ≠ none ∨ p.Makes units (p.fingerprintAt n)) :
    p.Handles d units n ∨ p.fingerprintAt n ∈ (Path.ofLocation p.outDirectory).stops := by
  rcases h with h | h | h | ⟨u, hu, h | h⟩
  · exact .inl (.inr (.inl h))
  · exact (List.mem_append.mp h).symm.imp (fun h => .inr (.inr h)) id
  · exact absurd h fingerprintAt_ne_manifestAt
  · exact absurd h.symm fileAt_ne_fingerprintAt
  · exact .inl (.inl (List.mem_map.mpr ⟨u, hu, (fingerprintAt_injective h).2.symm⟩))

theorem owns_of_makes (hp : p.IsSpelled) (hd : d.IsTree)
    (h : d.entry? (p.fingerprintAt n) ≠ none ∨ p.Makes units (p.fingerprintAt n)) {q : Location}
    (hq : q = p.fileAt n ∨ q = p.fingerprintAt n) (hentry : d.entry? q ≠ none) :
    p.Owns d units q := by
  suffices hhandles : p.Handles d units n by
    rcases hq with rfl | rfl
    · exact .file hhandles
    · exact .fingerprint hhandles
  by_contra hhandles
  have hstop := (handles_of_makes h).resolve_left hhandles
  -- the directory at the place of the fingerprint was there, like what is in it
  have hdir : d.entry? (p.fingerprintAt n) ≠ none := by
    rcases hq with rfl | rfl
    · have hprefix := (prefix_of_mem_stops hp.names hstop).trans
        (List.prefix_append p.outDirectory [n ++ ".cs"])
      rw [hd.above_prefix hprefix (Ne.symm fileAt_ne_fingerprintAt) hentry]
      simp
    · exact hentry
  exact hhandles (.inr (.inl hdir))

theorem slash_not_mem_of_makes (hp : p.IsSpelled) (hd : d.IsTree)
    (hunits : ∀ u ∈ units, '/' ∉ u.hintName.toList)
    (h : d.entry? (p.fingerprintAt n) ≠ none ∨ p.Makes units (p.fingerprintAt n)) :
    '/' ∉ n.toList := by
  have hways : p.fingerprintAt n ∈ p.ways → '/' ∉ n.toList := by
    intro hmem hslash
    refine hp.slash_not_mem hmem (n ++ Cache.fingerprintEnding) ?_ ?_
    · exact List.mem_append_right _ List.mem_cons_self
    · simp [hslash]
  rcases handles_of_makes h with (hname | hentry | hstop) | hstop
  · obtain ⟨u, hu, rfl⟩ := List.mem_map.mp hname
    exact hunits u hu
  · exact (Cache.isHintName_of_entry? hd hentry).slash
  · exact hways (mem_ways_of_units hstop)
  · exact hways (mem_ways_of_out hstop)

/-- **Writing units changes what is the run's own only.** -/
theorem writeUnits_confined (hp : p.IsSpelled) (hd : d.IsTree)
    (hunits : ∀ u ∈ units, '/' ∉ u.hintName.toList) :
    (p.writeUnits units).Ends d
      (fun _ => Confined (fun q => d.entry? q ≠ none → p.Owns d units q) (p.Makes units) d)
      (Confined (fun q => d.entry? q ≠ none → p.Owns d units q) (p.Makes units) d) := by
  have hprepare := (prepare_confined (p := p) d).mono
    (R := fun _ => Confined (fun q => d.entry? q ≠ none → p.Owns d units q) (p.Makes units) d)
    (F := Confined (fun q => d.entry? q ≠ none → p.Owns d units q) (p.Makes units) d)
    (fun _ _ h => h.mono (fun q hq _ => .cache hq.1 hq.2) fun q hq => hq.imp id .inl)
    (fun _ h => h.mono (fun q hq _ => .cache hq.1 hq.2) fun q hq => hq.imp id .inl)
  rw [writeUnits_eq]
  refine DiskAction.ends_confined_bind hprepare ?_
  intro _ d₁ hd₁
  have hwrite : (units.mapM p.writeUnit).Touches (fun q => d.entry? q ≠ none → p.Owns d units q)
      (p.Makes units) := by
    refine DiskAction.touches_mapM fun u hu => (touches_writeUnit hp (hunits u hu)).mono ?_ ?_
    · have hhandles : p.Handles d units u.hintName := .inl (List.mem_map_of_mem hu)
      rintro q (rfl | rfl) _
      · exact .file hhandles
      · exact .fingerprint hhandles
    · rintro q (hq | hq)
      · exact .inl hq
      · exact .inr (.inr ⟨u, hu, hq⟩)
  refine DiskAction.ends_confined_bind (hwrite d₁) ?_
  intro _ d₂ hd₂
  refine DiskAction.ends_get_bind ?_
  have hremove : ((p.staleNames d₂ units).mapM p.removeUnit).Touches
      (fun q => d.entry? q ≠ none → p.Owns d units q) (p.Makes units) := by
    refine DiskAction.touches_mapM fun n hn => ?_
    have hmakes := (hd₁.trans hd₂).made _ (Cache.entry?_of_mem_unitNames (List.mem_filter.mp hn).1)
    exact (touches_removeUnit hp (slash_not_mem_of_makes hp hd hunits hmakes)).mono
      (fun q hq hentry => owns_of_makes hp hd hmakes hq hentry) fun _ h => h.elim
  exact (hremove.bind fun _ => DiskAction.touches_pure _) d₂

end OutputPlan

/-! ## Runs -/

theorem Options.isSpelled_plan (o : Options) {s : Setting} (hs : s.workingDirectory.IsPlain)
    (d : Disk) : (o.plan s d).IsSpelled := by
  have hdirectory : ∀ name ∈ s.workingDirectory, '/' ∉ name.toList := fun name hname =>
    (hs name hname).slash
  have hparts : ∀ t ∈ o.sources ++ o.out.toList ++ (o.cacheDir <|> s.cacheDirectory).toList,
      ∀ part ∈ (Path.ofString t).parts, '/' ∉ part.toList := fun _ _ _ =>
    Path.slash_not_mem_of_mem_ofString
  have hnames : '/' ∉ ".".toList ∧ '/' ∉ outDirectoryName.toList ∧ '/' ∉ Cache.directoryName.toList :=
    ⟨by decide, isFileName_outDirectoryName.slash, isFileName_directoryName.slash⟩
  have hbase : ∀ name ∈ (if (o.outPath s d).root.isEmpty then s.workingDirectory else []),
      '/' ∉ name.toList ∧ Location.isDots name = false := by
    split_ifs
    · exact fun name hname => ⟨(hs name hname).slash, (hs name hname).isDots_eq⟩
    · exact fun _ hname => by cases hname
  have hout : ∀ name ∈ (o.plan s d).outDirectory,
      '/' ∉ name.toList ∧ Location.isDots name = false := by
    refine Location.of_mem_foldl_step hbase fun part hpart => ?_
    cases hdots : Location.isDots part with
    | true => exact .inl rfl
    | false => exact .inr ⟨of_mem_outPath hdirectory hnames hparts part hpart, rfl⟩
  exact ⟨fun name hname => (hout name hname).2, fun name hname => (hout name hname).1,
    of_mem_cachePath hdirectory hnames hparts⟩

variable {s : Setting} {arguments : List String} {d : Disk}

/-- **A run changes no file that is not its own.** Unless it is to remove its cache, a run leaves every
file with its content, whether it comes to its end or not, but for the files and fingerprints of its
units and of those with a fingerprint in the cache, and, if the cache begins anew, what lies in the
directory of the cache. -/
theorem run_spares (hd : d.IsTree) (hs : s.workingDirectory.IsPlain)
    (hclean : ∀ o, Options.parse arguments = .ok (.run o) → o.cleanCache = false) {q : Location}
    {content : List UInt8} (hread : d.read? q = some content) :
    (run s arguments d).disk.read? q = some content ∨
      ∃ p units, Writes s arguments d p units ∧ p.Owns d units q := by
  rcases writes_or_same hclean d with ⟨p, units, hwrites⟩ | hsame
  · by_cases howns : p.Owns d units q
    · exact .inr ⟨p, units, hwrites, howns⟩
    · have hspelled : p.IsSpelled := by
        obtain ⟨o, -, -, -, -, -, -, -, rfl, -⟩ := hwrites
        exact o.isSpelled_plan hs d
      have hends := OutputPlan.writeUnits_confined hspelled hd fun u hu =>
        (hwrites.isHintName u hu).slash
      have hentry : d.entry? q ≠ none := by
        rw [read?_eq_some.mp hread]
        simp
      left
      rw [hwrites.disk_run.1]
      exact hends.disk.read?_eq_some (fun h => howns (h hentry)) hread
  · rw [hsame]
    exact .inl hread

/-- The run of an empty source leaves the source. -/
theorem run_spares_source :
    (run sampleSetting sampleArguments sampleDisk).disk.read? ["w", "a.cs"] = some [] := by
  have hclean : ∀ o, Options.parse sampleArguments = .ok (.run o) → o.cleanCache = false := by
    intro o ho
    rw [sample_parse, Except.ok.injEq, Request.run.injEq] at ho
    rw [← ho]
    rfl
  have hdirectory : sampleSetting.workingDirectory.IsPlain := by decide
  refine (run_spares sample_isTree hdirectory hclean (by decide)).resolve_right ?_
  rintro ⟨p, units, hwrites, howns⟩
  obtain ⟨rfl, rfl⟩ := (sample_writes (by decide +kernel) (by decide +kernel)).mp hwrites
  generalize hq : ["w", "a.cs"] = q at howns
  cases howns with
  | file => exact absurd (congrArg List.length hq) (by simp [OutputPlan.fileAt, samplePlan])
  | @fingerprint n =>
    have hplace : samplePlan.fingerprintAt n = ["w", "c", "units", n ++ ".fingerprint"] := rfl
    exact absurd (congrArg List.length hq) (by simp [hplace])
  | cache anew below =>
    rw [← hq] at below
    exact absurd below (by decide +kernel)

/-- The places of files that a run is said to change: those of its units and of other units with a
fingerprint, the fingerprints and the manifest. -/
inductive OutputPlan.Names (p : OutputPlan) (d : Disk) (units : List GeneratedUnit) :
    Location → Prop
  | file {n : String} (known : n ∈ units.map GeneratedUnit.hintName ∨
      d.entry? (p.fingerprintAt n) ≠ none) : Names p d units (p.fileAt n)
  | fingerprint (n : String) : Names p d units (p.fingerprintAt n)
  | manifest : Names p d units p.manifestAt

/-- The run leaves every file with its content, but for those that it is said to change. -/
def LeavesOthers (s : Setting) (arguments : List String) (d : Disk) : Prop :=
  ∀ q content, d.read? q = some content → (run s arguments d).disk.read? q = some content ∨
    ∃ p units, Writes s arguments d p units ∧ p.Names d units q

/-- A file of the user's in the directory of the cache. -/
def crowdedDisk : Disk :=
  ⟨[(["w"], .directory), (["w", "a.cs"], .file []), (["w", "c"], .directory),
    (["w", "c", "notes.txt"], .file [107])]⟩

/-- A file of the user's in the directory of generated files. -/
def sharedDisk : Disk :=
  ⟨[(["w"], .directory), (["w", "a.cs"], .file []), (["w", "out"], .directory),
    (["w", "out", "x.cs"], .file [107])]⟩

/-- The path of the cache leads through a directory with the name of a fingerprint. -/
def detourArguments : List String :=
  ["--no-banner", "-o", "out", "--cache-dir", "c/units/x.fingerprint/../..", "a.cs"]

/-- What they ask for. -/
def detourOptions : Options :=
  { sampleOptions with cacheDir := some "c/units/x.fingerprint/../.." }

theorem not_leavesOthers_crowdedDisk : ¬ LeavesOthers sampleSetting sampleArguments crowdedDisk := by
  intro h
  have hnotes : crowdedDisk.read? ["w", "c", "notes.txt"] = some [107] := by decide
  rcases h _ _ hnotes with hkept | ⟨p, units, hwrites, hnames⟩
  · exact absurd hkept (by decide +kernel)
  · obtain ⟨rfl, rfl⟩ := (sample_writes (by decide +kernel) (by decide +kernel)).mp hwrites
    generalize hq : ["w", "c", "notes.txt"] = q at hnames
    cases hnames with
    | @file n =>
      have hplace : samplePlan.fileAt n = ["w", "out", n ++ ".cs"] := rfl
      rw [hplace] at hq
      exact absurd hq (by simp)
    | fingerprint n =>
      have hplace : samplePlan.fingerprintAt n = ["w", "c", "units", n ++ ".fingerprint"] := rfl
      exact absurd (congrArg List.length hq) (by simp [hplace])
    | manifest => exact absurd hq (by decide)

/-- Where they lead to. -/
def detourPlan : OutputPlan :=
  ⟨["w", "out"], ⟨"/", ["w", "c", "units", "x.fingerprint", "..", ".."]⟩, true⟩

theorem writes_detour {p : OutputPlan} {units : List GeneratedUnit} :
    Writes sampleSetting detourArguments sharedDisk p units ↔
      p = detourPlan ∧ units = [sampleUnit] := by
  have hoptions : Options.parse detourArguments = .ok (.run detourOptions) := by decide +kernel
  exact writes_iff hoptions (by decide +kernel) (by decide +kernel) (by decide +kernel)

theorem not_leavesOthers_sharedDisk : ¬ LeavesOthers sampleSetting detourArguments sharedDisk := by
  intro h
  have hfile : sharedDisk.read? ["w", "out", "x.cs"] = some [107] := by decide
  rcases h _ _ hfile with hkept | ⟨p, units, hwrites, hnames⟩
  · rw [(writes_detour.mpr ⟨rfl, rfl⟩).disk_run.1, OutputPlan.writeUnits_eq_writeUnitsSorted] at hkept
    exact absurd hkept (by decide +kernel)
  · obtain ⟨rfl, rfl⟩ := writes_detour.mp hwrites
    generalize hq : ["w", "out", "x.cs"] = q at hnames
    cases hnames with
    | @file n known =>
      obtain rfl : "x" = n := (String.append_left_inj ".cs").mp (OutputPlan.last_eq
        (show ["w", "out"] ++ ["x" ++ ".cs"] = ["w", "out"] ++ [n ++ ".cs"] from hq))
      exact absurd known (by decide +kernel)
    | fingerprint n =>
      have hplace : detourPlan.fingerprintAt n = ["w", "c", "units", n ++ ".fingerprint"] := rfl
      exact absurd (congrArg List.length hq) (by simp [hplace])
    | manifest => exact absurd hq (by decide +kernel)

/-- **Files of the user's can be lost.** A first run takes what the user kept in the directory of its
cache. Where the path of the cache leads through a directory with the name of a fingerprint, a run takes
that for a fingerprint and removes the file of that name, though it never wrote it. -/
theorem notes_lost_in_cache : ¬ LeavesOthers sampleSetting sampleArguments crowdedDisk ∧
    ¬ LeavesOthers sampleSetting detourArguments sharedDisk :=
  ⟨not_leavesOthers_crowdedDisk, not_leavesOthers_sharedDisk⟩

end Facade
