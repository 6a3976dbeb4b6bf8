import Facade.Command.Run
import Facade.Proofs.Command.HintNames
import Facade.Proofs.Command.Writing

/-!
# Histories of runs

Runs of the program, with any sources, directories and caches, between which the sources may be changed.
As long as every directory of generated files keeps to one cache, the files are those of the last run.

* `Writes`, `Writes.disk_run`, `writes_or`: the units that a run writes, and what else it does;
* `Orderly`: runs that keep out of each other's way;
* `tracks_writeUnits`: no run leads a cache astray, its own or another one;
* `History`, `tracks_of_history`: nor does a history of runs;
* **`files_of_history`**: a run leaves the files of its units.
-/

namespace Facade

open Disk

/-! ## One run -/

/-- The run writes these units by this plan. -/
def Writes (s : Setting) (arguments : List String) (d : Disk) (p : OutputPlan)
    (units : List GeneratedUnit) : Prop :=
  ∃ o g, Options.parse arguments = .ok (.run o) ∧ o.version = false ∧ o.cleanCache = false ∧
    o.sources ≠ [] ∧ o.gather s d = some g ∧ o.dumpUnits = false ∧ p = o.plan s d ∧
    units = g.result.outputUnits

theorem Writes.isHintName {s : Setting} {arguments : List String} {d : Disk} {p : OutputPlan}
    {units : List GeneratedUnit} (h : Writes s arguments d p units) :
    ∀ u ∈ units, IsHintName u.hintName := by
  obtain ⟨o, g, -, -, -, -, hgather, -, -, rfl⟩ := h
  exact Options.isHintName_of_gather hgather

theorem writes_iff {s : Setting} {arguments : List String} {d : Disk} {o : Options}
    (hparse : Options.parse arguments = .ok (.run o))
    (ho : o.version = false ∧ o.cleanCache = false ∧ o.dumpUnits = false ∧ o.sources ≠ [])
    {plan : OutputPlan} (hplan : o.plan s d = plan) {written : List GeneratedUnit}
    (hunits : (o.gather s d).map (fun g => g.result.outputUnits) = some written) {p : OutputPlan}
    {units : List GeneratedUnit} :
    Writes s arguments d p units ↔ p = plan ∧ units = written := by
  obtain ⟨g, hgather, hg⟩ := Option.map_eq_some_iff.mp hunits
  constructor
  · rintro ⟨o', g', hparse', -, -, -, hgather', -, rfl, rfl⟩
    rw [hparse, Except.ok.injEq, Request.run.injEq] at hparse'
    subst hparse'
    rw [hgather, Option.some.injEq] at hgather'
    exact ⟨hplan, hgather' ▸ hg⟩
  · rintro ⟨rfl, rfl⟩
    exact ⟨o, g, hparse, ho.1, ho.2.1, ho.2.2.2, hgather, ho.2.2.1, hplan.symm, hg.symm⟩

theorem Options.within_removeCache (o : Options) (s : Setting) {d : Disk} (hd : d.IsTree) :
    (o.removeCache s d).disk.IsTree ∧ Within (fun _ => False) d (o.removeCache s d).disk := by
  unfold removeCache
  simp only
  split_ifs with hthere
  · obtain ⟨hreach, hentry⟩ := Disk.isThere_iff_exists.mp hthere
    have hends := Disk.removeTree_ends hreach hentry
    split
    · next after hrun =>
      rw [(hends.of_ok hrun).1]
      exact ⟨hd.eraseTree _, .of_eraseTree _ _⟩
    · next fault after hrun =>
      rcases hends.of_error hrun with ⟨rfl, -⟩ | ⟨rfl, -⟩
      · exact ⟨hd, .refl _ _⟩
      · exact ⟨hd.eraseBelow _, .of_eraseBelow _ _⟩
  · exact ⟨hd, .refl _ _⟩

theorem run_of_parse {s : Setting} {arguments : List String} {o : Options}
    (hparse : Options.parse arguments = .ok (.run o)) (hversion : o.version = false) (d : Disk) :
    (run s arguments d).disk = (o.perform s d).disk ∧
      (run s arguments d).facades = (o.perform s d).facades := by
  simp only [run, hparse, hversion, Bool.false_eq_true, if_false]
  split_ifs
  · exact ⟨rfl, rfl⟩
  · exact ⟨rfl, rfl⟩

/-- A run that writes units does to the disk what the writer does. -/
theorem Writes.disk_run {s : Setting} {arguments : List String} {d : Disk} {p : OutputPlan}
    {units : List GeneratedUnit} (h : Writes s arguments d p units) :
    (run s arguments d).disk = (p.writeUnits units).disk d ∧
      ((run s arguments d).facades.isSome = true → ∃ report,
        (p.writeUnits units).run d = .ok report (run s arguments d).disk) := by
  obtain ⟨o, g, hparse, hversion, hclean, hsources, hgather, hdump, rfl, rfl⟩ := h
  have hsources : o.sources.isEmpty = false := by simpa using hsources
  have hgenerate : o.perform s d = o.generate s d := by
    simp only [Options.perform, hclean, hsources, Bool.false_eq_true, if_false]
  rw [(run_of_parse hparse hversion d).1, (run_of_parse hparse hversion d).2, hgenerate]
  simp only [Options.generate, hgather, Options.deliver, hdump, Bool.false_eq_true, if_false,
    EStateM.run_bind, DiskAction.disk]
  cases hrun : ((o.plan s d).writeUnits g.result.outputUnits).run d with
  | ok report d' => exact ⟨rfl, fun _ => ⟨report, rfl⟩⟩
  | error fault d' => exact ⟨rfl, fun h => by simp [Ending.failed] at h⟩

theorem Writes.isSome_facades {s : Setting} {arguments : List String} {d d' : Disk} {p : OutputPlan}
    {units : List GeneratedUnit} (h : Writes s arguments d p units) {report : WriteReport}
    (hrun : (p.writeUnits units).run d = .ok report d') :
    (run s arguments d).facades.isSome = true := by
  obtain ⟨o, g, hparse, hversion, hclean, hsources, hgather, hdump, rfl, rfl⟩ := h
  have hsources : o.sources.isEmpty = false := by simpa using hsources
  rw [(run_of_parse hparse hversion d).2]
  simp only [Options.perform, hclean, hsources, Bool.false_eq_true, if_false, Options.generate, hgather,
    Options.deliver, hdump, EStateM.run_bind, hrun]
  rfl

theorem writes_or_same {s : Setting} {arguments : List String}
    (hclean : ∀ o, Options.parse arguments = .ok (.run o) → o.cleanCache = false) (d : Disk) :
    (∃ p units, Writes s arguments d p units) ∨ (run s arguments d).disk = d := by
  cases hparse : Options.parse arguments with
  | error fault => exact .inr (by simp [run, hparse, Ending.complaint])
  | ok request =>
    cases request with
    | help => exact .inr (by simp [run, hparse])
    | run o =>
      have hclean := hclean o hparse
      cases hversion : o.version with
      | true => exact .inr (by simp [run, hparse, hversion, Ending.message])
      | false =>
        rw [(run_of_parse hparse hversion d).1, Options.perform, hclean]
        simp only [Bool.false_eq_true, if_false]
        split_ifs with hsources
        · exact .inr rfl
        · unfold Options.generate
          cases hgather : o.gather s d with
          | none => exact .inr rfl
          | some g =>
            cases hdump : o.dumpUnits with
            | true =>
              refine .inr ?_
              simp only [Options.deliver, hdump, if_true]
              rfl
            | false =>
              exact .inl ⟨o.plan s d, g.result.outputUnits, o, g, hparse, hversion, hclean,
                by simpa using hsources, hgather, hdump, rfl, rfl⟩

/-- A run writes units, or it does no more than remove something. -/
theorem writes_or (s : Setting) (arguments : List String) {d : Disk} (hd : d.IsTree) :
    (∃ p units, Writes s arguments d p units) ∨
      (run s arguments d).disk.IsTree ∧ Within (fun _ => False) d (run s arguments d).disk := by
  by_cases hclean : ∀ o, Options.parse arguments = .ok (.run o) → o.cleanCache = false
  · refine (writes_or_same hclean d).imp id fun hsame => ?_
    rw [hsame]
    exact ⟨hd, .refl _ _⟩
  · push Not at hclean
    obtain ⟨o, hparse, hclean⟩ := hclean
    right
    cases hversion : o.version with
    | true =>
      rw [show (run s arguments d).disk = d by simp [run, hparse, hversion, Ending.message]]
      exact ⟨hd, .refl _ _⟩
    | false =>
      have hperform : o.perform s d = o.removeCache s d := by
        rw [Options.perform, if_pos (by simpa using hclean)]
      rw [(run_of_parse hparse hversion d).1, hperform]
      exact o.within_removeCache s hd

/-! ## Plans of command lines -/

namespace Options

variable {o : Options} {s : Setting} {d : Disk}

theorem of_mem_child {P : String → Prop} {q : Path} (hq : ∀ part ∈ q.parts, P part) {name : String}
    (hname : IsFileName name) (hP : P name) : ∀ part ∈ (q.child name).parts, P part := by
  intro part hpart
  rw [Path.parts_child hname, List.mem_append, List.mem_singleton] at hpart
  rcases hpart with hpart | rfl
  · exact hq part hpart
  · exact hP

theorem isFileName_outDirectoryName : IsFileName outDirectoryName := by decide

theorem isFileName_directoryName : IsFileName Cache.directoryName := by decide

section

variable {P : String → Prop} (hs : ∀ name ∈ s.workingDirectory, P name)

include hs

theorem of_mem_project (hsources : ∀ t ∈ o.sources, ∀ part ∈ (Path.ofString t).parts, P part) :
    ∀ part ∈ (o.project s d).parts, P part := by
  unfold project
  split
  · exact hs
  · next first more hfirst =>
    have hmem : first ∈ o.sourcePaths := by rw [hfirst]; exact List.mem_cons_self
    obtain ⟨t, ht, rfl⟩ := List.mem_map.mp hmem
    split
    · exact hsources t ht
    · exact fun part hpart => hsources t ht part (List.dropLast_subset _ hpart)

variable (hnames : P "." ∧ P outDirectoryName ∧ P Cache.directoryName)
  (htexts : ∀ t ∈ o.sources ++ o.out.toList ++ (o.cacheDir <|> s.cacheDirectory).toList,
    ∀ part ∈ (Path.ofString t).parts, P part)

include hnames htexts

theorem of_mem_outPath : ∀ part ∈ (o.outPath s d).parts, P part := by
  unfold outPath
  split
  · next t ht =>
    rw [given?, Option.filter_eq_some_iff] at ht
    exact htexts t (by simp [ht.1])
  · refine of_mem_child (of_mem_project hs fun t ht => htexts t ?_) isFileName_outDirectoryName
      hnames.2.1
    simp [ht]

theorem of_mem_cachePath : ∀ part ∈ (o.plan s d).cachePath.parts, P part := by
  have hcache : ∀ part ∈ (o.cachePath s d).parts, P part := by
    unfold cachePath Cache.pathFor
    cases hcase : given? (o.cacheDir <|> s.cacheDirectory) with
    | none =>
      refine of_mem_child (of_mem_project hs fun t ht => htexts t ?_) isFileName_directoryName
        hnames.2.2
      simp [ht]
    | some t =>
      rw [given?, Option.filter_eq_some_iff] at hcase
      exact htexts t (List.mem_append_right _ (Option.mem_toList.mpr hcase.1))
  intro part hpart
  change part ∈ (Path.absolute _ _).parts at hpart
  unfold Path.absolute Path.join at hpart
  split_ifs at hpart
  · rcases List.mem_append.mp hpart with hpart | hpart
    · exact hs part hpart
    · exact List.mem_singleton.mp hpart ▸ hnames.1
  · rcases List.mem_append.mp hpart with hpart | hpart
    · exact hs part hpart
    · exact hcache part hpart
  · exact hcache part hpart

end

theorem isProper_plan (hs : s.workingDirectory.IsPlain)
    (htexts : ∀ t ∈ o.sources ++ o.out.toList ++ (o.cacheDir <|> s.cacheDirectory).toList,
      '\x00' ∉ t.toList) : (o.plan s d).IsProper := by
  have hplain : ∀ name ∈ s.workingDirectory, Location.isDots name = true ∨ IsFileName name :=
    fun name hname => .inr (hs name hname)
  have hparts : ∀ t ∈ o.sources ++ o.out.toList ++ (o.cacheDir <|> s.cacheDirectory).toList,
      ∀ part ∈ (Path.ofString t).parts, Location.isDots part = true ∨ IsFileName part := fun t ht _ =>
    Path.isFileName_of_mem_ofString (htexts t ht)
  have hnames : (Location.isDots "." = true ∨ IsFileName ".") ∧
      (Location.isDots outDirectoryName = true ∨ IsFileName outDirectoryName) ∧
      (Location.isDots Cache.directoryName = true ∨ IsFileName Cache.directoryName) :=
    ⟨.inl rfl, .inr isFileName_outDirectoryName, .inr isFileName_directoryName⟩
  constructor
  · refine Location.isPlain_foldl_step ?_ (of_mem_outPath hplain hnames hparts)
    split_ifs
    · exact hs
    · exact fun _ hname => absurd hname List.not_mem_nil
  · exact of_mem_cachePath hplain hnames hparts

end Options

/-! ## Caches of several plans -/

/-- Plans and units that keep out of each other's way: every directory of generated files keeps to one
cache, and no directory of a plan stands in the place of a file. -/
structure Orderly (plans : OutputPlan → Prop) (written : GeneratedUnit → Prop) : Prop where
  proper : ∀ p, plans p → p.IsProper
  apart : ∀ p q u, plans p → plans q → written u → p.fileAt u.hintName ∉ q.ways
  oneCache : ∀ p q, plans p → plans q → p.outDirectory = q.outDirectory →
    p.cache.home = q.cache.home

namespace OutputPlan

variable {p q : OutputPlan} {written : GeneratedUnit → Prop} {d d' : Disk}

theorem Tracks.of_same (h : p.Tracks written d) (hout : p.outDirectory = q.outDirectory)
    (hhome : p.cache.home = q.cache.home) : q.Tracks written d := by
  have hfile : ∀ n, q.fileAt n = p.fileAt n := fun n => by rw [fileAt, fileAt, hout]
  have hfingerprint : ∀ n, q.fingerprintAt n = p.fingerprintAt n := fun n => by
    simp only [fingerprintAt, Cache.fingerprintAt, Cache.unitsAt, hhome]
  intro hagrees n content hread
  rw [hfingerprint] at hread
  rw [hfile]
  refine h ?_ n content hread
  obtain ⟨text, j, htext, hparse, hj⟩ := hagrees
  refine ⟨text, j, ?_, hparse, ?_⟩
  · rwa [Cache.manifestAt, hhome]
  · rw [Cache.manifest, show p.cache.outDirectory = q.cache.outDirectory by
      simp only [cache, Cache.ofPath, hout]]
    exact hj

/-- The places that a plan looks at are as they were. -/
structure Untouched (p : OutputPlan) (written : GeneratedUnit → Prop) (d d' : Disk) : Prop where
  manifest : d'.entry? p.manifestAt = d.entry? p.manifestAt
  fingerprint : ∀ n, d'.entry? (p.fingerprintAt n) = d.entry? (p.fingerprintAt n)
  file : ∀ u, written u → d'.entry? (p.fileAt u.hintName) = d.entry? (p.fileAt u.hintName)

theorem Tracks.of_untouched (h : p.Tracks written d) (hd' : p.Untouched written d d') :
    p.Tracks written d' := by
  intro hagrees n content hread
  have hagrees' := hagrees.congr (Disk.readText?_congr hd'.manifest.symm)
  obtain ⟨u, hu, rfl, hcontent, hfile⟩ :=
    h hagrees' n content (by rwa [← Disk.read?_congr (hd'.fingerprint n)])
  exact ⟨u, hu, rfl, hcontent, by rwa [hd'.file u hu]⟩

/-- A cache of another directory in the same place is of no use. -/
theorem Tracks.of_other (hp : p.IsProper) (hq : q.IsProper) (h : p.cache.Agrees d)
    (hhome : p.cache.home = q.cache.home) (hout : p.outDirectory ≠ q.outDirectory) :
    q.Tracks written d := fun hagrees =>
  absurd (h.outDirectory_eq hhome rfl rfl hp.out hq.out hagrees) hout

section

variable {plans : OutputPlan → Prop} (horder : Orderly plans written) (hp : plans p)

include horder hp

/-- Making the directories of a plan leads no cache astray. -/
theorem tracks_prepare (hd : d.IsTree)
    (hpath : d.entry? p.cache.home ≠ none → d.isThere p.cachePath = true)
    (h : ∀ q, plans q → q.Tracks written d) :
    p.prepare.Ends d (fun _ d' => p.Ready d' ∧ ∀ q, plans q → q.Tracks written d')
      (fun d' => d'.IsTree ∧ ∀ q, plans q → q.Tracks written d') := by
  have hwithin : ∀ {d' : Disk}, Within (· ∈ p.ways) d d' → ∀ q, plans q → q.Tracks written d' :=
    fun hw q hq => (h q hq).of_within hw fun u hu => horder.apart q p u hq hp hu
  refine (prepare_ends (horder.proper p hp) hd).mono ?_ ?_
  · rintro _ d' ⟨hready, hprepared, -⟩
    refine ⟨hready, fun q hq => ?_⟩
    rcases hprepared with ⟨-, hgrow⟩ | ⟨d₁, hw, hnone, rfl⟩
    · exact hwithin hgrow.within q hq
    · by_cases hhome : p.cache.home = q.cache.home
      · by_cases hout : p.outDirectory = q.outDirectory
        · -- the cache is empty
          refine Tracks.of_same (fun _ n content hread => ?_) hout hhome
          have hkept : Disk.entry? (d₁.put p.manifestAt (.file (Utf8.encode p.cache.manifest.text)))
              (p.fingerprintAt n) = d₁.entry? (p.fingerprintAt n) := by
            rw [Disk.entry?_put manifestAt_ne_nil, if_neg fingerprintAt_ne_manifestAt]
          rw [Disk.read?_congr hkept, hnone hpath n] at hread
          cases hread
        · exact Tracks.of_other (horder.proper p hp) (horder.proper q hq) hready.agrees hhome hout
      · have hmanifest : q.manifestAt ≠ p.manifestAt := fun heq =>
          hhome (List.append_inj' heq rfl).1.symm
        refine (hwithin hw q hq).of_untouched ⟨?_, fun n => ?_, fun u _ => ?_⟩
        · rw [Disk.entry?_put manifestAt_ne_nil, if_neg hmanifest]
        · rw [Disk.entry?_put manifestAt_ne_nil, if_neg fingerprintAt_ne_manifestAt]
        · rw [Disk.entry?_put manifestAt_ne_nil, if_neg fileAt_ne_manifestAt]
  · rintro d' ⟨hd', hw, -⟩
    exact ⟨hd', hwithin hw⟩

theorem Kept.tracks_others (hkept : p.Kept written d d') (h : ∀ q, plans q → q.Tracks written d) :
    ∀ q, plans q → q.Tracks written d' := by
  intro q hq
  by_cases hout : p.outDirectory = q.outDirectory
  · exact hkept.tracks.of_same hout (horder.oneCache p q hp hq hout)
  by_cases hhome : p.cache.home = q.cache.home
  · exact Tracks.of_other (horder.proper p hp) (horder.proper q hq) hkept.ready.agrees hhome hout
  refine (h q hq).of_untouched ⟨?_, fun n => ?_, fun u _ => ?_⟩
  · refine hkept.frame _ fun m => ⟨Ne.symm fileAt_ne_manifestAt, Ne.symm fingerprintAt_ne_manifestAt⟩
  · refine hkept.frame _ fun m => ⟨Ne.symm fileAt_ne_fingerprintAt, fun heq => ?_⟩
    exact hhome (fingerprintAt_injective heq).1.symm
  · refine hkept.frame _ fun m => ⟨fun heq => ?_, fileAt_ne_fingerprintAt⟩
    exact hout (fileAt_injective heq).1.symm

variable (hcollision : NoCollision written)

include hcollision

/-- **No run leads a cache astray**, and one that comes to its end leaves its units. -/
theorem tracks_writeUnits {units : List GeneratedUnit} (hd : d.IsTree)
    (hpath : d.entry? p.cache.home ≠ none → d.isThere p.cachePath = true)
    (hunits : ∀ u ∈ units, written u ∧ IsHintName u.hintName)
    (h : ∀ q, plans q → q.Tracks written d) :
    (p.writeUnits units).Ends d
      (fun _ d' => (d'.IsTree ∧ ∀ q, plans q → q.Tracks written d') ∧
        ∀ n u, latest n units = some u → d'.read? (p.fileAt n) = some (Utf8.encode u.text))
      (fun d' => d'.IsTree ∧ ∀ q, plans q → q.Tracks written d') := by
  rw [writeUnits_eq]
  refine (tracks_prepare horder hp hd hpath h).bind ?_
  rintro _ d₁ ⟨hready, htracks⟩
  refine (finish_ends (horder.proper p hp).out hready (htracks p hp) hcollision hunits).mono ?_ ?_
  · rintro _ d' ⟨hkept, hexact⟩
    refine ⟨⟨hkept.ready.tree, hkept.tracks_others horder hp htracks⟩, fun n u hlatest => ?_⟩
    rw [Disk.read?_eq_some, (hexact n).1, hlatest]
    rfl
  · rintro d' ⟨hkept, -⟩
    exact ⟨hkept.ready.tree, hkept.tracks_others horder hp htracks⟩

end

end OutputPlan

/-! ## Histories -/

/-- What the plan and the units of a run have to do with those of a history. The path of a cache that is
there leads to it. -/
structure Belongs (plans : OutputPlan → Prop) (written : GeneratedUnit → Prop) (d : Disk)
    (p : OutputPlan) (units : List GeneratedUnit) : Prop where
  plan : plans p
  units : ∀ u ∈ units, written u
  path : d.entry? p.cache.home ≠ none → d.isThere p.cachePath = true

/-- Runs, completed and failed ones, and changes of the disk that leave the files of the runs alone. -/
inductive History (plans : OutputPlan → Prop) (written : GeneratedUnit → Prop) (d₀ : Disk) :
    Disk → Prop
  | start : History plans written d₀ d₀
  | run {d : Disk} (before : History plans written d₀ d) (s : Setting) (arguments : List String)
      (belongs : ∀ p units, Writes s arguments d p units → Belongs plans written d p units) :
      History plans written d₀ (Facade.run s arguments d).disk
  | change {d d' : Disk} (before : History plans written d₀ d) (tree : d'.IsTree)
      (untouched : ∀ p, plans p → p.Untouched written d d') : History plans written d₀ d'

variable {plans : OutputPlan → Prop} {written : GeneratedUnit → Prop} {d₀ d : Disk}

/-- **No history leads a cache astray.** -/
theorem tracks_of_history (horder : Orderly plans written) (hcollision : NoCollision written)
    (hd₀ : d₀.IsTree) (hempty : ∀ p, plans p → ∀ n, d₀.read? (p.fingerprintAt n) = none)
    (h : History plans written d₀ d) : d.IsTree ∧ ∀ p, plans p → p.Tracks written d := by
  induction h with
  | start =>
    refine ⟨hd₀, fun p hp _ n content hread => ?_⟩
    rw [hempty p hp n] at hread
    cases hread
  | @run d before s arguments belongs ih =>
    obtain ⟨hd, htracks⟩ := ih
    rcases writes_or s arguments hd with ⟨p, units, hwrites⟩ | ⟨hd', hwithin⟩
    · have hbelongs := belongs p units hwrites
      have hends := OutputPlan.tracks_writeUnits horder hbelongs.plan hcollision hd hbelongs.path
        (fun u hu => ⟨hbelongs.units u hu, hwrites.isHintName u hu⟩) htracks
      rw [hwrites.disk_run.1]
      exact (hends.mono (fun _ _ h => h.1) fun _ h => h).disk
    · exact ⟨hd', fun p hp => (htracks p hp).of_within hwithin fun _ _ => id⟩
  | change before tree untouched ih =>
    exact ⟨tree, fun p hp => (ih.2 p hp).of_untouched (untouched p hp)⟩

/-- **The files are those of the last run.** After any history of runs that begins with empty caches and
keeps every directory of generated files to one cache, a run that writes units and comes to its end
leaves the text of the last unit of each name in its file. -/
theorem files_of_history (horder : Orderly plans written) (hcollision : NoCollision written)
    (hd₀ : d₀.IsTree) (hempty : ∀ p, plans p → ∀ n, d₀.read? (p.fingerprintAt n) = none)
    (h : History plans written d₀ d) {s : Setting} {arguments : List String} {p : OutputPlan}
    {units : List GeneratedUnit} (hwrites : Writes s arguments d p units)
    (hbelongs : Belongs plans written d p units)
    (hend : (run s arguments d).facades.isSome = true) :
    ∀ n u, latest n units = some u →
      (run s arguments d).disk.read? (p.fileAt n) = some (Utf8.encode u.text) := by
  obtain ⟨hd, htracks⟩ := tracks_of_history horder hcollision hd₀ hempty h
  have hends := OutputPlan.tracks_writeUnits horder hbelongs.plan hcollision hd hbelongs.path
    (fun u hu => ⟨hbelongs.units u hu, hwrites.isHintName u hu⟩) htracks
  obtain ⟨report, hrun⟩ := hwrites.disk_run.2 hend
  exact (hends.of_ok hrun).2

section Example

/-- A working directory with an empty source. -/
def sampleDisk : Disk := ⟨[(["w"], .directory), (["w", "a.cs"], .file [])]⟩

/-- Runs in that directory. -/
def sampleSetting : Setting := ⟨["w"], none, ⟨false, false⟩⟩

/-- The words of a run on that source. -/
def sampleArguments : List String := ["--no-banner", "-o", "out", "--cache-dir", "c", "a.cs"]

/-- What they ask for. -/
def sampleOptions : Options :=
  ⟨["a.cs"], false, some "out", false, false, false, false, false, some "c", true⟩

/-- Where the run writes. -/
def samplePlan : OutputPlan := ⟨["w", "out"], ⟨"/", ["w", "c"]⟩, true⟩

/-- What the run writes. -/
def sampleUnit : GeneratedUnit := ⟨"IFacadeGenerator", Marker.hintName, Marker.source⟩

theorem sample_parse : Options.parse sampleArguments = .ok (.run sampleOptions) := by decide +kernel

/-- The disk after one run. -/
def sampleAfter : Disk := (run sampleSetting sampleArguments sampleDisk).disk

theorem sample_writes {d : Disk} (hplan : sampleOptions.plan sampleSetting d = samplePlan)
    (hunits : (sampleOptions.gather sampleSetting d).map (fun g => g.result.outputUnits) =
      some [sampleUnit]) {p : OutputPlan} {units : List GeneratedUnit} :
    Writes sampleSetting sampleArguments d p units ↔ p = samplePlan ∧ units = [sampleUnit] :=
  writes_iff sample_parse ⟨rfl, rfl, rfl, by decide⟩ hplan hunits

theorem sample_orderly : Orderly (· = samplePlan) (· = sampleUnit) where
  proper := by
    rintro _ rfl
    have hproper : (sampleOptions.plan sampleSetting sampleDisk).IsProper :=
      Options.isProper_plan (by decide) (by decide)
    exact (show sampleOptions.plan sampleSetting sampleDisk = samplePlan by decide +kernel) ▸ hproper
  apart := by
    rintro _ _ _ rfl rfl rfl
    decide +kernel
  oneCache := by
    rintro _ _ rfl rfl -
    rfl

theorem sample_entry {q : Location} (hne : q ≠ []) (h : sampleDisk.entry? q ≠ none) :
    q = ["w"] ∨ q = ["w", "a.cs"] := by
  by_contra hq
  rw [not_or] at hq
  refine h ?_
  simp [Disk.entry?, hne, sampleDisk, Ne.symm hq.1, Ne.symm hq.2]

theorem sample_isTree : sampleDisk.IsTree := by
  refine Disk.isTree_of_entries ?_
  simp only [sampleDisk, List.forall_mem_cons]
  exact ⟨⟨[], "w", rfl, by decide, Disk.entry?_nil⟩,
    ⟨["w"], "a.cs", rfl, by decide, by decide⟩, fun _ h => by cases h⟩

/-- The second of two runs finds its unit in the cache, and the file is there. -/
theorem files_of_history_cached :
    (run sampleSetting sampleArguments sampleAfter).disk.read?
      ["w", "out", "IFacadeGenerator.generated.cs"] = some (Utf8.encode Marker.source) := by
  have hcollision : NoCollision (· = sampleUnit) := by
    rintro _ _ rfl rfl -
    rfl
  have hwrites : ∀ {p units}, Writes sampleSetting sampleArguments sampleDisk p units ↔
      p = samplePlan ∧ units = [sampleUnit] :=
    sample_writes (by decide +kernel) (by decide +kernel)
  have hwrites' : ∀ {p units}, Writes sampleSetting sampleArguments sampleAfter p units ↔
      p = samplePlan ∧ units = [sampleUnit] :=
    sample_writes (by decide +kernel) (by decide +kernel)
  have hhistory : History (· = samplePlan) (· = sampleUnit) sampleDisk sampleAfter := by
    refine .run .start sampleSetting sampleArguments fun p units h => ?_
    obtain ⟨rfl, rfl⟩ := hwrites.mp h
    exact ⟨rfl, by simp, by decide +kernel⟩
  have hempty : ∀ p, p = samplePlan → ∀ n, sampleDisk.read? (p.fingerprintAt n) = none := by
    rintro _ rfl n
    by_contra hread
    obtain ⟨content, hcontent⟩ := Option.ne_none_iff_exists'.mp hread
    rw [Disk.read?_eq_some] at hcontent
    have hplace := sample_entry OutputPlan.fingerprintAt_ne_nil (by rw [hcontent]; simp)
    have hlength := congrArg List.length (show samplePlan.fingerprintAt n =
      ["w", "c", "units", n ++ ".fingerprint"] from rfl)
    rcases hplace with hplace | hplace
    · rw [hplace] at hlength
      simp at hlength
    · rw [hplace] at hlength
      simp at hlength
  exact files_of_history sample_orderly hcollision sample_isTree hempty hhistory
    (hwrites'.mpr ⟨rfl, rfl⟩) ⟨rfl, by simp, by decide +kernel⟩ (by decide +kernel)
    Marker.hintName sampleUnit (by decide +kernel)

/-- A unit, and a later one of the same name. -/
def sampleFirst : GeneratedUnit := ⟨"A", "A.generated", "first\n"⟩

/-- The later one. -/
def sampleSecond : GeneratedUnit := ⟨"A", "A.generated", "second\n"⟩

/-- The same directory with another cache. -/
def samplePlanElsewhere : OutputPlan := ⟨["w", "out"], ⟨"/", ["w", "other"]⟩, true⟩

/-- The first unit is written with one cache, the second one with another, and then the first one again
with its cache. -/
def sampleCalls : DiskAction WriteReport := do
  discard (samplePlan.writeUnits [sampleFirst])
  discard (samplePlanElsewhere.writeUnits [sampleSecond])
  samplePlan.writeUnits [sampleFirst]

/-- **Two caches of one directory mislead each other.** The last call takes the file of the second unit
for that of the first one and leaves it. -/
theorem file_of_two_caches : ¬ ∀ report d, sampleCalls.run sampleDisk = .ok report d →
    d.read? (samplePlan.fileAt sampleFirst.hintName) = some (Utf8.encode sampleFirst.text) := by
  intro h
  have heval : (match sampleCalls.run sampleDisk with
    | .ok _ d => d.read? (samplePlan.fileAt sampleFirst.hintName)
    | .error _ _ => none) = some (Utf8.encode sampleSecond.text) := by decide +kernel
  split at heval
  · next report d hrun =>
    rw [h report d hrun] at heval
    exact absurd heval (by decide +kernel)
  · cases heval

end Example

end Facade
