import Facade.Command.Output
import Facade.Proofs.Cache.Keeping

/-!
# Writing units, step by step

What one call of the writer makes of a disk: its directories, then one unit after the other, then what
is left of units that are no longer generated.

* `OutputPlan.Ready`: the directories of a plan are made and its cache is in use;
* `OutputPlan.prepare_ends`, `OutputPlan.writeUnit_ends`, `OutputPlan.removeUnit_ends`: the steps;
* `OutputPlan.Tracks`: every fingerprint that is kept is that of the file it stands for;
* `OutputPlan.finish_ends`: all units and what is stale, once the directories are made.
-/

namespace Facade

open Disk

/-- The units of different texts have different fingerprints, among those that are ever written. -/
def NoCollision (written : GeneratedUnit → Prop) : Prop :=
  ∀ u v, written u → written v → unitFingerprint u = unitFingerprint v → unitStream u = unitStream v

theorem text_eq_of_stream {u v : GeneratedUnit} (hname : u.hintName = v.hintName)
    (h : unitStream u = unitStream v) : u.text = v.text := by
  rw [unitStream, unitStream, hname] at h
  exact (String.append_right_inj _).mp h

theorem append_ne_append {a b s t : String} {c e : Char} (hs : s.toList.getLast? = some c)
    (ht : t.toList.getLast? = some e) (hne : c ≠ e) : a ++ s ≠ b ++ t := by
  intro h
  have hlast := congrArg (fun x : String => x.toList.getLast?) h
  simp only [String.toList_append, List.getLast?_append, hs, ht] at hlast
  exact hne (by simpa using hlast)

/-- The last of some units with this name. -/
def latest (hintName : String) (units : List GeneratedUnit) : Option GeneratedUnit :=
  units.reverse.find? fun u => u.hintName == hintName

theorem latest_append (hintName : String) (units : List GeneratedUnit) (u : GeneratedUnit) :
    latest hintName (units ++ [u]) =
      if u.hintName = hintName then some u else latest hintName units := by
  rw [latest, List.reverse_append, List.reverse_singleton, List.singleton_append, List.find?_cons]
  by_cases h : u.hintName = hintName
  · rw [if_pos h, beq_iff_eq.mpr h]
  · rw [if_neg h, beq_eq_false_iff_ne.mpr h, latest]

theorem latest_eq_none {hintName : String} {units : List GeneratedUnit} :
    latest hintName units = none ↔ hintName ∉ units.map GeneratedUnit.hintName := by
  simp [latest, List.find?_eq_none]

theorem of_latest {hintName : String} {units : List GeneratedUnit} {u : GeneratedUnit}
    (h : latest hintName units = some u) : u ∈ units ∧ u.hintName = hintName := by
  have hmem := List.mem_reverse.mp (List.mem_of_find?_eq_some h)
  have hname := List.find?_some h
  exact ⟨hmem, by simpa using hname⟩

namespace OutputPlan

variable (p : OutputPlan)

/-! ## Places -/

/-- The place of the file of a unit. -/
def fileAt (hintName : String) : Location := p.outDirectory ++ [hintName ++ ".cs"]

/-- The place of the fingerprint of a unit. -/
def fingerprintAt (hintName : String) : Location := p.cache.fingerprintAt hintName

/-- The place of the manifest. -/
def manifestAt : Location := p.cache.manifestAt

/-- The places on the ways to the directories of the plan. -/
def ways : List Location := (Path.ofLocation p.outDirectory).stops ++ p.cache.unitsPath.stops

/-- The paths of the plan are made of names of entries. -/
structure IsProper : Prop where
  out : p.outDirectory.IsPlain
  cache : p.cachePath.IsProper

/-- The directories of the cache are made, and it is in use. -/
structure Ready (d : Disk) : Prop where
  tree : d.IsTree
  made : p.cache.IsMade d
  agrees : p.cache.Agrees d

/-- The file of a unit and its fingerprint can be written. -/
structure HasPlace (d : Disk) (hintName : String) : Prop where
  out : d.entry? p.outDirectory = some .directory
  file : d.entry? (p.fileAt hintName) ≠ some .directory
  fingerprint : d.entry? (p.fingerprintAt hintName) ≠ some .directory

variable {p} {q : OutputPlan} {d d' : Disk} {u : GeneratedUnit} {m n : String}

theorem HasPlace.congr (h : ∀ q, d'.entry? q = some .directory ↔ d.entry? q = some .directory) :
    p.HasPlace d' n ↔ p.HasPlace d n := by
  constructor
  · intro hplace
    exact ⟨(h _).mp hplace.out, fun hf => hplace.file ((h _).mpr hf),
      fun hf => hplace.fingerprint ((h _).mpr hf)⟩
  · intro hplace
    exact ⟨(h _).mpr hplace.out, fun hf => hplace.file ((h _).mp hf),
      fun hf => hplace.fingerprint ((h _).mp hf)⟩

theorem fileAt_ne_nil : p.fileAt n ≠ [] := by simp [fileAt]

theorem fingerprintAt_ne_nil : p.fingerprintAt n ≠ [] := by
  simp [fingerprintAt, Cache.fingerprintAt]

theorem manifestAt_ne_nil : p.manifestAt ≠ [] := by simp [manifestAt, Cache.manifestAt]

theorem last_eq {place other : Location} {a b : String} (h : place ++ [a] = other ++ [b]) : a = b :=
  List.singleton_inj.mp (List.append_inj' h rfl).2

theorem fileAt_injective (h : p.fileAt m = q.fileAt n) :
    p.outDirectory = q.outDirectory ∧ m = n :=
  ⟨(List.append_inj' h rfl).1, (String.append_left_inj _).mp (last_eq h)⟩

theorem fingerprintAt_injective (h : p.fingerprintAt m = q.fingerprintAt n) :
    p.cache.home = q.cache.home ∧ m = n :=
  ⟨(List.append_inj' (List.append_inj' h rfl).1 rfl).1, (String.append_left_inj _).mp (last_eq h)⟩

theorem fileAt_ne_fingerprintAt : p.fileAt m ≠ q.fingerprintAt n := fun h =>
  append_ne_append (c := 's') (e := 't') (by decide) (by decide) (by decide) (last_eq h)

theorem fileAt_ne_manifestAt : p.fileAt m ≠ q.manifestAt := fun h =>
  append_ne_append (b := "") (c := 's') (e := 'n') (by decide) (by decide) (by decide)
    ((last_eq h).trans (String.empty_append).symm)

theorem fingerprintAt_ne_manifestAt : p.fingerprintAt m ≠ q.manifestAt := fun h =>
  append_ne_append (b := "") (c := 't') (e := 'n') (by decide) (by decide) (by decide)
    ((last_eq h).trans (String.empty_append).symm)

theorem isFileName_fileName (hn : IsHintName n) : IsFileName (n ++ ".cs") :=
  hn.isFileName (by decide) (by decide)

theorem reach?_filePath (hout : p.outDirectory.IsPlain) (hd : d.IsTree) (hn : IsHintName n) :
    d.reach? (p.filePath (n ++ ".cs")) =
      if d.entry? p.outDirectory = some .directory then some (p.fileAt n) else none := by
  have hname := isFileName_fileName hn
  have hparts := Path.parts_child hname (Path.ofLocation p.outDirectory)
  cases hreach : d.reach? (Path.ofLocation p.outDirectory) with
  | some place =>
    have hplace : place = p.outDirectory :=
      (Disk.reach?_eq_some hreach).trans (Location.foldl_step_of_plain hout [])
    rw [filePath, Disk.reach?_of_parts hparts hname.isDots_eq hreach, hplace]
    rfl
  | none =>
    rw [filePath, Disk.reach?_of_parts_eq_none hparts hreach, if_neg]
    intro hdir
    rw [hd.reach?_ofLocation (by rw [hdir]; simp)] at hreach
    cases hreach

/-! ## Caches in use -/

theorem Ready.mono (h : p.Ready d) (htree : d'.IsTree)
    (hdirs : ∀ q, d.entry? q = some .directory → d'.entry? q = some .directory)
    (hmanifest : d'.readText? p.manifestAt = d.readText? p.manifestAt) : p.Ready d' :=
  ⟨htree, h.made.mono hdirs, h.agrees.congr hmanifest⟩

theorem entry?_directory_put {place : Location} (hne : place ≠ [])
    (hplace : d.entry? place ≠ some .directory) (content : List UInt8) (q : Location) :
    Disk.entry? (d.put place (.file content)) q = some .directory ↔ d.entry? q = some .directory := by
  rw [Disk.entry?_put hne]
  split_ifs with hq
  · simp [hq, hplace]
  · rfl

theorem Ready.put_file (h : p.Ready d) {place : Location} {name : String} (hname : IsFileName name)
    (hparent : d.entry? place = some .directory)
    (hplace : d.entry? (place ++ [name]) ≠ some .directory)
    (hmanifest : place ++ [name] ≠ p.manifestAt) (content : List UInt8) :
    p.Ready (d.put (place ++ [name]) (.file content)) := by
  refine h.mono (h.tree.put_file hname hparent hplace) ?_ (Disk.readText?_congr ?_)
  · exact fun q => (entry?_directory_put (by simp) hplace content q).mpr
  · rw [Disk.entry?_put (by simp), if_neg (Ne.symm hmanifest)]

theorem Ready.without (h : p.Ready d) {place : Location} (hd' : Without place d d')
    (hplace : d.entry? place ≠ some .directory) (hmanifest : place ≠ p.manifestAt) :
    p.Ready d' := by
  refine h.mono (h.tree.without hd' hplace) (fun q hq => ?_) (Disk.readText?_congr ?_)
  · rw [hd', if_neg (by rintro rfl; exact hplace hq), hq]
  · rw [hd', if_neg (Ne.symm hmanifest)]

/-! ## Directories -/

theorem isProper_ofLocation {place : Location} (h : place.IsPlain) :
    (Path.ofLocation place).IsProper := fun part hpart => .inr (h part hpart)

theorem place_ofLocation {place : Location} (h : place.IsPlain) :
    (Path.ofLocation place).place = place := Location.foldl_step_of_plain h []

theorem directory_of_stops (hout : p.outDirectory.IsPlain)
    (hstops : ∀ stop ∈ (Path.ofLocation p.outDirectory).stops, d.entry? stop = some .directory) :
    d.entry? p.outDirectory = some .directory := by
  rcases Path.place_mem_stops (p := Path.ofLocation p.outDirectory) with hroot | hmem
  · rw [place_ofLocation hout] at hroot
    rw [hroot, Disk.entry?_nil]
  · rw [place_ofLocation hout] at hmem
    exact hstops _ hmem

theorem prefix_of_mem_stops {place other : Location}
    (h : ∀ part ∈ other, Location.isDots part = false) {stop : Location} (hstop : stop ∈ Location.stops place other) : stop <+: place ++ other := by
  induction other generalizing place with
  | nil => exact absurd hstop List.not_mem_nil
  | cons name other ih =>
    have happend : place ++ name :: other = place ++ [name] ++ other := by simp
    rw [Location.stops, Location.step_of_name (h name List.mem_cons_self)] at hstop
    rcases List.mem_cons.mp hstop with rfl | hstop
    · rw [happend]
      exact List.prefix_append _ _
    · rw [happend]
      exact ih (fun part hpart => h part (List.mem_cons_of_mem _ hpart)) hstop

theorem fileAt_not_mem_stops (hout : p.outDirectory.IsPlain) :
    p.fileAt n ∉ (Path.ofLocation p.outDirectory).stops := by
  intro hmem
  have hlength := (prefix_of_mem_stops hout.names hmem).length_le
  simp only [fileAt, List.length_append, List.length_singleton, List.nil_append] at hlength
  change p.outDirectory.length + 1 ≤ p.outDirectory.length at hlength
  omega

theorem mem_ways_of_out {stop : Location} (h : stop ∈ (Path.ofLocation p.outDirectory).stops) :
    stop ∈ p.ways := List.mem_append_left _ h

theorem mem_ways_of_units {stop : Location} (h : stop ∈ p.cache.unitsPath.stops) :
    stop ∈ p.ways := List.mem_append_right _ h

/-- With a cache in use, only the directory of generated files may have to be made. -/
theorem prepare_ends_of_ready (hp : p.IsProper) (hinc : p.incremental = true) (h : p.Ready d) :
    p.prepare.Ends d
      (fun _ d' => p.Ready d' ∧ Grows (· ∈ (Path.ofLocation p.outDirectory).stops) d d' ∧
        d'.entry? p.outDirectory = some .directory)
      (fun _ => ∃ stop ∈ p.ways, (d.read? stop).isSome = true) := by
  have hmake := Disk.makeDirectories_ends (isProper_ofLocation hp.out) h.tree
  refine (hmake.mono (fun _ _ h => h) ?_).bind ?_
  · rintro d' ⟨-, -, stop, hstop, hfile⟩
    exact ⟨stop, mem_ways_of_out hstop, hfile⟩
  rintro _ d₁ ⟨hd₁, hgrow, hstops⟩
  have hready : p.Ready d₁ := h.mono hd₁ (fun q => hgrow.directory) (hgrow.readText?_eq _)
  refine DiskAction.ends_get_bind ?_
  rw [hinc, hready.made.isValid rfl hready.agrees]
  have hnothing : (p.cache.makeDirectories).run d₁ = .ok () d₁ := Disk.makeDirectories_eq hready.made
  simp only [Bool.and_self, if_true]
  unfold DiskAction.Ends
  rw [hnothing]
  exact ⟨hready, hgrow, directory_of_stops hp.out hstops⟩

/-- What the directories of a plan come to: the cache is in use as it was, or begins anew. -/
def Prepared (p : OutputPlan) (d d' : Disk) : Prop :=
  p.cache.Agrees d ∧ Grows (· ∈ p.ways) d d' ∨
    ∃ d₁, Within (· ∈ p.ways) d d₁ ∧
      ((d.entry? p.cache.home ≠ none → d.isThere p.cachePath = true) →
        ∀ n, d₁.read? (p.fingerprintAt n) = none) ∧
      d' = d₁.put p.manifestAt (.file (Utf8.encode p.cache.manifest.text))

theorem no_fingerprint_of_rebuild {d₁ d₂ : Disk} {S T : Location → Prop} (hd : d.IsTree)
    (hd₁ : d₁.IsTree) (hgrow : Grows S d d₁) (hgrow' : Grows T (p.cache.wiped d₁) d₂)
    (hpath : d.entry? p.cache.home ≠ none → d.isThere p.cachePath = true) (n : String) :
    d₂.read? (p.fingerprintAt n) = none := by
  have hplace : p.fingerprintAt n =
      p.cache.home ++ [Cache.unitsName, n ++ Cache.fingerprintEnding] := by
    simp [fingerprintAt, Cache.fingerprintAt, Cache.unitsAt]
  rw [hgrow'.read?_eq]
  by_cases hhome : d.entry? p.cache.home = none
  · have hnone : d.read? (p.fingerprintAt n) = none := by
      rw [Disk.read?]
      split
      · next content hfile =>
        rw [hplace] at hfile
        have hdir := hd.above (List.cons_ne_nil Cache.unitsName [n ++ Cache.fingerprintEnding])
          (by rw [hfile]; simp)
        rw [hhome] at hdir
        cases hdir
      · rfl
    rw [Option.eq_none_iff_forall_not_mem] at hnone ⊢
    intro content hcontent
    exact hnone content ((hgrow.within.trans (Cache.within_wiped S d₁)).read? hcontent)
  · have hthere : d₁.isThere p.cachePath = true := by
      obtain ⟨hreach, hentry⟩ := Disk.isThere_iff_exists.mp (hpath hhome)
      refine Disk.isThere_iff_exists.mpr ⟨Disk.reach?_mono (fun q => hgrow.directory) hreach, ?_⟩
      rw [hgrow.entry?_eq hentry]
      exact hentry
    have hgone := Cache.entry?_wiped (c := p.cache) hd₁ (fun _ => hthere)
      (List.cons_ne_nil Cache.unitsName [n ++ Cache.fingerprintEnding])
    rw [Disk.read?, hplace, hgone]

theorem prepare_ends (hp : p.IsProper) (hd : d.IsTree) :
    p.prepare.Ends d
      (fun _ d' => p.Ready d' ∧ p.Prepared d d' ∧
        ((p.cache.home <+: p.outDirectory →
            p.outDirectory = p.cache.home ∨ p.outDirectory = p.cache.unitsAt) →
          d'.entry? p.outDirectory = some .directory))
      (fun d' => d'.IsTree ∧ Within (· ∈ p.ways) d d' ∧
        ((∃ stop ∈ p.ways, (d.read? stop).isSome = true) ∨ p.manifestAt ∈ p.ways ∨
          d.entry? p.manifestAt = some .directory ∨ p.cachePath.endsInName = false)) := by
  have hmake := Disk.makeDirectories_ends (isProper_ofLocation hp.out) hd
  refine (hmake.mono (fun _ _ h => h) ?_).bind ?_
  · rintro d' ⟨hd', hgrow, stop, hstop, hfile⟩
    exact ⟨hd', hgrow.within.mono fun q => mem_ways_of_out, .inl ⟨stop, mem_ways_of_out hstop, hfile⟩⟩
  rintro _ d₁ ⟨hd₁, hgrow, hstops⟩
  have hways := hgrow.mono (T := (· ∈ p.ways)) fun q => mem_ways_of_out
  have hout := directory_of_stops hp.out hstops
  refine DiskAction.ends_get_bind ?_
  split_ifs with hvalid
  · -- the cache stays as it is
    simp only [Bool.and_eq_true] at hvalid
    obtain ⟨-, hagrees⟩ := (Cache.isValid_iff rfl).mp hvalid.2
    have hunits := Disk.makeDirectories_ends (Cache.isProper_unitsPath (c := p.cache) hp.cache) hd₁
    refine hunits.mono ?_ ?_
    · rintro _ d' ⟨hd', hgrow', hmade⟩
      refine ⟨⟨hd', hmade, hagrees.congr (hgrow'.readText?_eq _)⟩, .inl ⟨?_, ?_⟩, fun _ => ?_⟩
      · exact hagrees.congr (hgrow.readText?_eq _).symm
      · exact hways.trans (hgrow'.mono fun q => mem_ways_of_units)
      · exact hgrow'.directory hout
    · rintro d' ⟨hd', hgrow', stop, hstop, hfile⟩
      refine ⟨hd', hways.within.trans (hgrow'.within.mono fun q => mem_ways_of_units), .inl ?_⟩
      exact ⟨stop, mem_ways_of_units hstop, hgrow.isSome_read? hfile⟩
  · -- a new cache
    refine DiskAction.Ends.discard ((Cache.rebuild_ends (c := p.cache) hp.cache hd₁).mono ?_ ?_)
    · rintro _ d' ⟨hd', hmade, d₂, hgrow', rfl⟩
      have hgrow'' := hgrow'.mono (T := (· ∈ p.ways)) fun q => mem_ways_of_units
      have hwithin : Within (· ∈ p.ways) d d₂ :=
        hways.within.trans ((Cache.within_wiped _ d₁).trans hgrow''.within)
      have hmanifest : Disk.entry? (d₂.put p.manifestAt (.file (Utf8.encode p.cache.manifest.text)))
          p.manifestAt = some (.file (Utf8.encode p.cache.manifest.text)) := by
        rw [Disk.entry?_put manifestAt_ne_nil, if_pos rfl]
      refine ⟨⟨hd', hmade, Cache.agrees_of_text rfl hmanifest⟩,
        .inr ⟨d₂, hwithin, fun hpath n => ?_, rfl⟩, fun hinside => ?_⟩
      · exact no_fingerprint_of_rebuild hd hd₁ hgrow hgrow' hpath n
      · by_cases hbelow : p.cache.home <+: p.outDirectory
        · rcases hinside hbelow with heq | heq
          · rw [heq]
            exact hmade.directory_home
          · rw [heq]
            exact hmade.directory_unitsAt
        · have hkept := Cache.entry?_wiped_of_not_prefix (d := d₁) hbelow
          have hne : p.outDirectory ≠ p.manifestAt := by
            intro heq
            exact hbelow (heq ▸ List.prefix_append _ _)
          exact (Disk.entry?_put manifestAt_ne_nil _ _).trans
            ((if_neg hne).trans (hgrow'.directory (hkept.trans hout)))
    · rintro d' ⟨hd', hwithin, hreason⟩
      refine ⟨hd', hways.within.trans (hwithin.mono fun q => mem_ways_of_units), ?_⟩
      rcases hreason with ⟨stop, hstop, hfile⟩ | hmem | hdir | hunnamed
      · exact .inl ⟨stop, mem_ways_of_units hstop, hgrow.isSome_read? hfile⟩
      · exact .inr (.inl (mem_ways_of_units hmem))
      · rcases hways p.manifestAt with heq | ⟨hmem, -⟩
        · exact .inr (.inr (.inl (heq ▸ hdir)))
        · exact .inr (.inl hmem)
      · exact .inr (.inr (.inr hunnamed))

/-! ## One unit -/

variable (p) in
/-- The disk after a unit was written. -/
def stored (u : GeneratedUnit) (d : Disk) : Disk :=
  (d.put (p.fileAt u.hintName) (.file (Utf8.encode u.text))).put (p.fingerprintAt u.hintName)
    (.file (Utf8.encode (unitFingerprint u)))

variable (p) in
/-- The file of a unit is there, and the cache keeps its fingerprint. -/
def IsCached (u : GeneratedUnit) (d : Disk) : Prop :=
  d.entry? (p.fileAt u.hintName) ≠ none ∧
    ∃ text, d.readText? (p.fingerprintAt u.hintName) = some text ∧
      Text.trimBlanks text = unitFingerprint u

theorem entry?_stored (q : Location) :
    Disk.entry? (p.stored u d) q =
      if q = p.fingerprintAt u.hintName then some (.file (Utf8.encode (unitFingerprint u)))
      else if q = p.fileAt u.hintName then some (.file (Utf8.encode u.text))
      else d.entry? q := by
  rw [stored, Disk.entry?_put fingerprintAt_ne_nil, Disk.entry?_put fileAt_ne_nil]

theorem HasPlace.ready_stored (hplace : p.HasPlace d u.hintName) (h : p.Ready d)
    (hu : IsHintName u.hintName) : p.Ready (p.stored u d) := by
  have hfile := h.put_file (isFileName_fileName hu) hplace.out hplace.file
    (fileAt_ne_manifestAt (q := p)) (Utf8.encode u.text)
  have hunits := hfile.made.directory_unitsAt
  refine hfile.put_file (Cache.isFileName_fingerprint hu) hunits ?_
    (fingerprintAt_ne_manifestAt (q := p)) _
  exact fun hdir => hplace.fingerprint
    ((entry?_directory_put fileAt_ne_nil hplace.file _ _).mp hdir)

theorem HasPlace.directory_stored (hplace : p.HasPlace d u.hintName) (q : Location) :
    Disk.entry? (p.stored u d) q = some .directory ↔ d.entry? q = some .directory := by
  have hfingerprint : Disk.entry? (d.put (p.fileAt u.hintName) (.file (Utf8.encode u.text)))
      (p.fingerprintAt u.hintName) ≠ some .directory := fun hdir => hplace.fingerprint
    ((entry?_directory_put fileAt_ne_nil hplace.file _ _).mp hdir)
  rw [stored, entry?_directory_put fingerprintAt_ne_nil hfingerprint,
    entry?_directory_put fileAt_ne_nil hplace.file]

theorem hasUnit_iff (hout : p.outDirectory.IsPlain) (h : p.Ready d) (hu : IsHintName u.hintName) :
    p.cache.hasUnit d u.hintName (unitFingerprint u) (p.filePath u.fileName) = true ↔
      p.IsCached u d := by
  have hreach := reach?_filePath hout h.tree hu
  have hthere : d.isThere (p.filePath u.fileName) = true ↔ d.entry? (p.fileAt u.hintName) ≠ none := by
    rw [GeneratedUnit.fileName]
    split_ifs at hreach with hdir
    · exact Disk.isThere_iff hreach
    · rw [Disk.isThere, Disk.find?_eq_none hreach]
      refine ⟨fun hf => absurd hf (by simp), fun hf => absurd (h.tree _ _ hf).2 hdir⟩
  rw [Cache.hasUnit, Bool.and_eq_true, hthere, IsCached, h.made.fingerprint?_eq hu, beq_iff_eq,
    Option.map_eq_some_iff]
  rfl

/-- **A unit is left alone or written**, unless its files have no place. -/
theorem writeUnit_ends (hout : p.outDirectory.IsPlain) (h : p.Ready d)
    (hu : IsHintName u.hintName) :
    (p.writeUnit u).Ends d
      (fun _ d' => p.IsCached u d ∧ d' = d ∨ p.HasPlace d u.hintName ∧ d' = p.stored u d)
      (fun d' => ¬ p.HasPlace d u.hintName ∧
        (d' = d ∨ d.entry? p.outDirectory = some .directory ∧
          d.entry? (p.fileAt u.hintName) ≠ some .directory ∧
          d.entry? (p.fingerprintAt u.hintName) = some .directory ∧
          d' = d.put (p.fileAt u.hintName) (.file (Utf8.encode u.text)))) := by
  refine DiskAction.ends_get_bind ?_
  simp only [Bool.and_eq_true]
  split_ifs with hcached
  · exact .inl ⟨(hasUnit_iff hout h hu).mp hcached.2, rfl⟩
  have hreach := reach?_filePath hout h.tree hu
  split_ifs at hreach with hdir
  · refine ((Disk.write_ends hreach _).mono (fun _ _ h => h) ?_).bind ?_
    · rintro _ ⟨rfl, hfile⟩
      exact ⟨fun hplace => hplace.file hfile, .inl rfl⟩
    rintro _ _ ⟨rfl, hfile⟩
    have hready : p.Ready (d.put (p.fileAt u.hintName) (.file (Utf8.encode u.text))) :=
      h.put_file (isFileName_fileName hu) hdir hfile (fileAt_ne_manifestAt (q := p)) _
    have hsame := entry?_directory_put fileAt_ne_nil hfile (Utf8.encode u.text)
      (p.fingerprintAt u.hintName)
    refine ((hready.made.storeFingerprint_ends hu _).mono (fun _ _ h => h) ?_).bind ?_
    · rintro _ ⟨rfl, hfingerprint⟩
      have hfingerprint' := hsame.mp hfingerprint
      exact ⟨fun hplace => hplace.fingerprint hfingerprint', .inr ⟨hdir, hfile, hfingerprint', rfl⟩⟩
    · rintro _ _ ⟨rfl, hfingerprint⟩
      exact .inr ⟨⟨hdir, hfile, fun hf => hfingerprint (hsame.mpr hf)⟩, rfl⟩
  · unfold DiskAction.Ends
    rw [EStateM.run_bind, GeneratedUnit.fileName, Disk.write_eq_missing hreach]
    exact ⟨fun hplace => hdir hplace.out, .inl rfl⟩

/-- A unit that is in the cache is left alone. -/
theorem writeUnit_eq (hout : p.outDirectory.IsPlain) (hinc : p.incremental = true) (h : p.Ready d)
    (hu : IsHintName u.hintName) (hcached : p.IsCached u d) :
    (p.writeUnit u).run d = .ok ⟨u.fileName, .cached⟩ d := by
  change (if (p.incremental && p.cache.hasUnit d u.hintName (unitFingerprint u)
    (p.filePath u.fileName)) = true then _ else _ : DiskAction FileFate).run d = _
  rw [hinc, (hasUnit_iff hout h hu).mpr hcached]
  rfl

theorem forgetUnit_ends (h : p.Ready d) (hn : IsHintName n) {α : Type} (result : α) :
    (p.cache.forgetUnit n >>= fun _ => pure result).Ends d
      (fun _ d' => Without (p.fingerprintAt n) d d' ∧
        d.entry? (p.fingerprintAt n) ≠ some .directory)
      (fun d' => d' = d ∧ d.entry? (p.fingerprintAt n) = some .directory) :=
  (h.made.forgetUnit_ends hn).bind fun _ _ hd' => hd'

/-- **Nothing is left of a unit that is removed**, unless a directory stands in its place. -/
theorem removeUnit_ends (hout : p.outDirectory.IsPlain) (h : p.Ready d) (hn : IsHintName n) :
    (p.removeUnit n).Ends d
      (fun _ d' => d.entry? (p.fileAt n) ≠ some .directory ∧
        d.entry? (p.fingerprintAt n) ≠ some .directory ∧
        ∃ d₁, Without (p.fileAt n) d d₁ ∧ Without (p.fingerprintAt n) d₁ d')
      (fun d' => (d.entry? (p.fileAt n) = some .directory ∨
          d.entry? (p.fingerprintAt n) = some .directory) ∧
        (d' = d ∨ d.entry? (p.fileAt n) ≠ some .directory ∧ Without (p.fileAt n) d d')) := by
  have hreach := reach?_filePath hout h.tree hn
  have hne : p.fingerprintAt n ≠ p.fileAt n := Ne.symm fileAt_ne_fingerprintAt
  refine DiskAction.ends_get_bind ?_
  simp only
  split_ifs with hthere
  · obtain ⟨hfollow, hentry⟩ := Disk.isThere_iff_exists.mp hthere
    have hdir : d.entry? p.outDirectory = some .directory := by
      by_contra hdir
      rw [hfollow, if_neg hdir] at hreach
      cases hreach
    rw [if_pos hdir] at hreach
    have hfile := (Disk.isThere_iff hreach).mp hthere
    refine ((Disk.removeFile_ends hreach hfile).mono (fun _ _ h => h) ?_).bind ?_
    · rintro _ ⟨rfl, hbusy⟩
      exact ⟨.inl hbusy, .inl rfl⟩
    rintro _ d₁ ⟨hwithout, hfree⟩
    have hready := h.without hwithout hfree (fileAt_ne_manifestAt (q := p))
    have hsame : d₁.entry? (p.fingerprintAt n) = d.entry? (p.fingerprintAt n) := by
      rw [hwithout, if_neg hne]
    refine (forgetUnit_ends hready hn _).mono ?_ ?_
    · rintro _ d' ⟨hwithout', hfree'⟩
      exact ⟨hfree, hsame ▸ hfree', d₁, hwithout, hwithout'⟩
    · rintro _ ⟨rfl, hbusy⟩
      exact ⟨.inr (hsame ▸ hbusy), .inr ⟨hfree, hwithout⟩⟩
  · have hnone : d.entry? (p.fileAt n) = none := by
      by_contra hne
      have hdir := (h.tree _ _ hne).2
      rw [if_pos hdir] at hreach
      exact hthere ((Disk.isThere_iff hreach).mpr hne)
    refine (forgetUnit_ends h hn _).mono ?_ ?_
    · rintro _ d' ⟨hwithout', hfree'⟩
      exact ⟨by rw [hnone]; simp, hfree', d, Disk.without_of_none hnone, hwithout'⟩
    · rintro _ ⟨rfl, hbusy⟩
      exact ⟨.inr hbusy, .inl rfl⟩

/-! ## Fingerprints of files -/

variable (p) in
/-- If the cache is in use, every fingerprint that it keeps is that of a unit that was written, and the
file of the unit holds its text, unless it is gone. -/
def Tracks (written : GeneratedUnit → Prop) (d : Disk) : Prop :=
  p.cache.Agrees d → ∀ n content, d.read? (p.fingerprintAt n) = some content →
    ∃ u, written u ∧ u.hintName = n ∧ content = Utf8.encode (unitFingerprint u) ∧
      (d.entry? (p.fileAt n) = none ∨ d.entry? (p.fileAt n) = some (.file (Utf8.encode u.text)))

variable {written : GeneratedUnit → Prop}

theorem Tracks.of_within (h : p.Tracks written d) {S : Location → Prop} (hwithin : Within S d d')
    (hS : ∀ u, written u → ¬ S (p.fileAt u.hintName)) : p.Tracks written d' := by
  intro hagrees n content hread
  obtain ⟨u, hu, rfl, hcontent, hfile⟩ := h (hagrees.of_within hwithin) n content (hwithin.read? hread)
  refine ⟨u, hu, rfl, hcontent, ?_⟩
  rcases hwithin.entry?_eq_none_or_eq (hS u hu) with hnone | heq
  · exact .inl hnone
  · rwa [heq]

theorem Tracks.stored (h : p.Tracks written d) (hready : p.Ready d) (hu : written u) :
    p.Tracks written (p.stored u d) := by
  rintro - n content hread
  rw [Disk.read?_eq_some, entry?_stored] at hread
  rw [entry?_stored, if_neg fileAt_ne_fingerprintAt]
  by_cases hn : n = u.hintName
  · rw [hn, if_pos rfl, Option.some.injEq, Entry.file.injEq] at hread
    exact ⟨u, hu, hn.symm, hread.symm, .inr (by rw [hn, if_pos rfl])⟩
  · rw [if_neg fun heq => hn (fingerprintAt_injective heq).2,
      if_neg (Ne.symm fileAt_ne_fingerprintAt)] at hread
    rw [if_neg fun heq => hn (fileAt_injective heq).2]
    exact h hready.agrees n content (Disk.read?_eq_some.mpr hread)

theorem Tracks.put_file (h : p.Tracks written d) (hready : p.Ready d)
    (hnone : d.entry? (p.fingerprintAt n) = some .directory) (content : List UInt8) :
    p.Tracks written (d.put (p.fileAt n) (.file content)) := by
  rintro - m content' hread
  have hkept : Disk.entry? (d.put (p.fileAt n) (.file content)) (p.fingerprintAt m) =
      d.entry? (p.fingerprintAt m) := by
    rw [Disk.entry?_put fileAt_ne_nil, if_neg (Ne.symm fileAt_ne_fingerprintAt)]
  rw [Disk.read?_eq_some, hkept] at hread
  have hm : p.fileAt m ≠ p.fileAt n := by
    intro heq
    rw [(fileAt_injective heq).2, hnone] at hread
    cases hread
  rw [Disk.entry?_put fileAt_ne_nil, if_neg hm]
  exact h hready.agrees m content' (Disk.read?_eq_some.mpr hread)

/-- A unit in the cache is the one that its files were written for. -/
theorem entries_of_isCached (h : p.Tracks written d) (hready : p.Ready d)
    (hcollision : NoCollision written) (hu : written u) (hcached : p.IsCached u d) :
    d.entry? (p.fileAt u.hintName) = some (.file (Utf8.encode u.text)) ∧
      d.entry? (p.fingerprintAt u.hintName) = some (.file (Utf8.encode (unitFingerprint u))) := by
  obtain ⟨hthere, text, htext, htrim⟩ := hcached
  obtain ⟨content, hcontent⟩ := Disk.exists_file_of_readText? htext
  obtain ⟨v, hv, hname, hv', hfile⟩ := h hready.agrees _ content (Disk.read?_eq_some.mpr hcontent)
  rw [hv'] at hcontent
  have hsame : text = unitFingerprint v := by
    have hread := Disk.readText?_of_encode hcontent fun hmem =>
      (Sha256.isHexDigit_of_mem_hex hmem).ne_carriageReturn rfl
    exact Option.some.inj (htext.symm.trans hread)
  have hfingerprint : unitFingerprint v = unitFingerprint u := by
    rw [← htrim, hsame]
    exact (Sha256.trimBlanks_hex _).symm
  have hfile := hfile.resolve_left hthere
  rw [text_eq_of_stream hname (hcollision v u hv hu hfingerprint)] at hfile
  exact ⟨hfile, hfingerprint ▸ hcontent⟩

/-! ## All units -/

/-- What writing and removing units keeps of a disk: the cache is in use, its fingerprints are right,
and nothing but files of units and fingerprints is touched. -/
structure Kept (p : OutputPlan) (written : GeneratedUnit → Prop) (d d' : Disk) : Prop where
  ready : p.Ready d'
  tracks : p.Tracks written d'
  directories : ∀ q, d'.entry? q = some .directory ↔ d.entry? q = some .directory
  frame : ∀ q, (∀ n, q ≠ p.fileAt n ∧ q ≠ p.fingerprintAt n) → d'.entry? q = d.entry? q

namespace Kept

variable {d'' : Disk}

theorem refl (hready : p.Ready d) (h : p.Tracks written d) : p.Kept written d d :=
  ⟨hready, h, fun _ => Iff.rfl, fun _ _ => rfl⟩

theorem trans (h : p.Kept written d d') (h' : p.Kept written d' d'') : p.Kept written d d'' where
  ready := h'.ready
  tracks := h'.tracks
  directories q := (h'.directories q).trans (h.directories q)
  frame q hq := (h'.frame q hq).trans (h.frame q hq)

theorem hasPlace (h : p.Kept written d d') : p.HasPlace d' n ↔ p.HasPlace d n :=
  HasPlace.congr h.directories

theorem stored (h : p.Kept written d d') (hplace : p.HasPlace d' u.hintName)
    (hname : IsHintName u.hintName) (hu : written u) : p.Kept written d (p.stored u d') where
  ready := hplace.ready_stored h.ready hname
  tracks := h.tracks.stored h.ready hu
  directories q := (hplace.directory_stored q).trans (h.directories q)
  frame q hq := by
    rw [entry?_stored, if_neg (hq _).2, if_neg (hq _).1, h.frame q hq]

theorem put_file (h : p.Kept written d d') (hn : IsHintName n)
    (hout : d'.entry? p.outDirectory = some .directory)
    (hfile : d'.entry? (p.fileAt n) ≠ some .directory)
    (hfingerprint : d'.entry? (p.fingerprintAt n) = some .directory) (content : List UInt8) :
    p.Kept written d (d'.put (p.fileAt n) (.file content)) where
  ready := h.ready.put_file (isFileName_fileName hn) hout hfile (fileAt_ne_manifestAt (q := p)) _
  tracks := h.tracks.put_file h.ready hfingerprint content
  directories q := (entry?_directory_put fileAt_ne_nil hfile content q).trans (h.directories q)
  frame q hq := by rw [Disk.entry?_put fileAt_ne_nil, if_neg (hq n).1, h.frame q hq]

theorem without (h : p.Kept written d d') {place : Location} (hd'' : Without place d' d'')
    (hplace : d'.entry? place ≠ some .directory)
    (hunit : ∃ n, place = p.fileAt n ∨ place = p.fingerprintAt n) : p.Kept written d d'' where
  ready := by
    refine h.ready.without hd'' hplace ?_
    obtain ⟨n, rfl | rfl⟩ := hunit
    · exact fileAt_ne_manifestAt
    · exact fingerprintAt_ne_manifestAt
  tracks := h.tracks.of_within (hd''.within fun _ => False) fun _ _ => id
  directories q := (hd''.directory_iff hplace q).trans (h.directories q)
  frame q hq := by
    rw [hd'', if_neg, h.frame q hq]
    rintro rfl
    obtain ⟨n, hn | hn⟩ := hunit
    · exact (hq n).1 hn
    · exact (hq n).2 hn

end Kept

/-- The files of these units and their fingerprints are those of the last unit of each name; where
there is none, they are as they were. -/
def Holds (p : OutputPlan) (units : List GeneratedUnit) (d d' : Disk) : Prop :=
  ∀ n, d'.entry? (p.fileAt n) =
      ((latest n units).map fun u => .file (Utf8.encode u.text)).or (d.entry? (p.fileAt n)) ∧
    d'.entry? (p.fingerprintAt n) =
      ((latest n units).map fun u => .file (Utf8.encode (unitFingerprint u))).or
        (d.entry? (p.fingerprintAt n))

theorem Holds.append {units : List GeneratedUnit} {d₁ : Disk} (h : p.Holds units d d₁)
    (hfile : d'.entry? (p.fileAt u.hintName) = some (.file (Utf8.encode u.text)))
    (hfingerprint : d'.entry? (p.fingerprintAt u.hintName) =
      some (.file (Utf8.encode (unitFingerprint u))))
    (hothers : ∀ n, n ≠ u.hintName → d'.entry? (p.fileAt n) = d₁.entry? (p.fileAt n) ∧
      d'.entry? (p.fingerprintAt n) = d₁.entry? (p.fingerprintAt n)) :
    p.Holds (units ++ [u]) d d' := by
  intro n
  rw [latest_append]
  by_cases hn : u.hintName = n
  · rw [if_pos hn, ← hn]
    exact ⟨hfile, hfingerprint⟩
  · rw [if_neg hn, (hothers n (Ne.symm hn)).1, (hothers n (Ne.symm hn)).2]
    exact h n

theorem writeAll_ends {units : List GeneratedUnit} (hout : p.outDirectory.IsPlain)
    (hready : p.Ready d) (htracks : p.Tracks written d) (hcollision : NoCollision written)
    (hunits : ∀ u ∈ units, written u ∧ IsHintName u.hintName) :
    (units.mapM p.writeUnit).Ends d
      (fun _ d' => p.Kept written d d' ∧ p.Holds units d d')
      (fun d' => p.Kept written d d' ∧ ∃ u ∈ units, ¬ p.HasPlace d u.hintName) := by
  refine DiskAction.ends_mapM (I := fun as _ d' => p.Kept written d d' ∧ p.Holds as d d') ?_ ?_
  · rintro as u - d' hmem ⟨hkept, hholds⟩
    obtain ⟨hu, hname⟩ := hunits u hmem
    refine (writeUnit_ends hout hkept.ready hname).mono ?_ ?_
    · rintro _ _ (⟨hcached, rfl⟩ | ⟨hplace, rfl⟩)
      · obtain ⟨hfile, hfingerprint⟩ :=
          entries_of_isCached hkept.tracks hkept.ready hcollision hu hcached
        exact ⟨hkept, hholds.append hfile hfingerprint fun _ _ => ⟨rfl, rfl⟩⟩
      · refine ⟨hkept.stored hplace hname hu, hholds.append ?_ ?_ fun n hn => ?_⟩
        · rw [entry?_stored, if_neg fileAt_ne_fingerprintAt, if_pos rfl]
        · rw [entry?_stored, if_pos rfl]
        · rw [entry?_stored, entry?_stored, if_neg fileAt_ne_fingerprintAt,
            if_neg fun heq => hn (fileAt_injective heq).2,
            if_neg fun heq => hn (fingerprintAt_injective heq).2,
            if_neg (Ne.symm fileAt_ne_fingerprintAt)]
          exact ⟨rfl, rfl⟩
    · rintro _ ⟨hplace, hd'⟩
      refine ⟨?_, u, hmem, fun hd => hplace (hkept.hasPlace.mpr hd)⟩
      rcases hd' with rfl | ⟨hdir, hfile, hfingerprint, rfl⟩
      · exact hkept
      · exact hkept.put_file hname hdir hfile hfingerprint _
  · exact ⟨.refl hready htracks, fun n => ⟨by simp [latest], by simp [latest]⟩⟩

theorem removeAll_ends {names : List String} (hout : p.outDirectory.IsPlain)
    (hready : p.Ready d) (htracks : p.Tracks written d) (hnames : ∀ n ∈ names, IsHintName n) :
    (names.mapM p.removeUnit).Ends d
      (fun _ d' => p.Kept written d d' ∧ ∀ n,
        d'.entry? (p.fileAt n) = (if n ∈ names then none else d.entry? (p.fileAt n)) ∧
        d'.entry? (p.fingerprintAt n) = if n ∈ names then none else d.entry? (p.fingerprintAt n))
      (fun d' => p.Kept written d d' ∧ ∃ n ∈ names,
        d.entry? (p.fileAt n) = some .directory ∨
          d.entry? (p.fingerprintAt n) = some .directory) := by
  refine DiskAction.ends_mapM (I := fun as _ d' => p.Kept written d d' ∧ ∀ n,
    d'.entry? (p.fileAt n) = (if n ∈ as then none else d.entry? (p.fileAt n)) ∧
    d'.entry? (p.fingerprintAt n) = if n ∈ as then none else d.entry? (p.fingerprintAt n)) ?_ ?_
  · rintro as n - d' hmem ⟨hkept, hgone⟩
    refine (removeUnit_ends hout hkept.ready (hnames n hmem)).mono ?_ ?_
    · rintro _ d₂ ⟨hfile, hfingerprint, d₁, hwithout, hwithout'⟩
      have hkept₁ := hkept.without hwithout hfile ⟨n, .inl rfl⟩
      have hfingerprint₁ : d₁.entry? (p.fingerprintAt n) ≠ some .directory := by
        rwa [hwithout, if_neg (Ne.symm fileAt_ne_fingerprintAt)]
      refine ⟨hkept₁.without hwithout' hfingerprint₁ ⟨n, .inr rfl⟩, fun m => ?_⟩
      rw [hwithout', hwithout, hwithout', hwithout, if_neg fileAt_ne_fingerprintAt,
        if_neg (Ne.symm fileAt_ne_fingerprintAt)]
      by_cases hm : m = n
      · simp [hm]
      · rw [if_neg fun heq => hm (fileAt_injective heq).2,
          if_neg fun heq => hm (fingerprintAt_injective heq).2, (hgone m).1, (hgone m).2]
        simp [hm]
    · rintro d₁ ⟨hbusy, hd₁⟩
      refine ⟨?_, n, hmem, ?_⟩
      · rcases hd₁ with rfl | ⟨hfile, hwithout⟩
        · exact hkept
        · exact hkept.without hwithout hfile ⟨n, .inl rfl⟩
      · rwa [hkept.directories, hkept.directories] at hbusy
  · exact ⟨.refl hready htracks, fun n => by simp⟩

variable (p) in
/-- What is done once the directories are made. -/
def finish (units : List GeneratedUnit) : DiskAction WriteReport := do
  let fates ← units.mapM p.writeUnit
  let d ← get
  let removed ← (p.staleNames d units).mapM p.removeUnit
  return ⟨fates, removed.filterMap id, p.outDirectory⟩

theorem writeUnits_eq (units : List GeneratedUnit) :
    p.writeUnits units = p.prepare >>= fun _ => p.finish units := rfl

variable (p) in
/-- The writer with names that are sorted by insertion, which can be computed for given disks. -/
def writeUnitsSorted (units : List GeneratedUnit) : DiskAction WriteReport := do
  p.prepare
  let fates ← units.mapM p.writeUnit
  let d ← get
  let names := ((d.namesAt p.cache.unitsPath).filterMap
    (Cache.withoutEnding? Cache.fingerprintEnding)).insertionSort (· ≤ ·)
  let stale := names.filter fun n => !(units.map GeneratedUnit.hintName).contains n
  let removed ← stale.mapM p.removeUnit
  return ⟨fates, removed.filterMap id, p.outDirectory⟩

theorem writeUnits_eq_writeUnitsSorted (units : List GeneratedUnit) :
    p.writeUnits units = p.writeUnitsSorted units := by
  simp only [writeUnits, staleNames, Cache.unitNames_eq_insertionSort]
  rfl

/-- **Units and their fingerprints are on the disk**, and nothing of other units that the cache knew.
If it does not come to that, a directory is in the way. -/
theorem finish_ends {units : List GeneratedUnit} (hout : p.outDirectory.IsPlain)
    (hready : p.Ready d) (htracks : p.Tracks written d) (hcollision : NoCollision written)
    (hunits : ∀ u ∈ units, written u ∧ IsHintName u.hintName) :
    (p.finish units).Ends d
      (fun _ d' => p.Kept written d d' ∧ ∀ n,
        d'.entry? (p.fileAt n) =
          ((latest n units).map fun u => .file (Utf8.encode u.text)).or
            (if d.entry? (p.fingerprintAt n) = none then d.entry? (p.fileAt n) else none) ∧
        d'.entry? (p.fingerprintAt n) =
          (latest n units).map fun u => .file (Utf8.encode (unitFingerprint u)))
      (fun d' => p.Kept written d d' ∧ ((∃ u ∈ units, ¬ p.HasPlace d u.hintName) ∨
        ∃ n, d.entry? (p.fingerprintAt n) ≠ none ∧ (d.entry? (p.fileAt n) = some .directory ∨
          d.entry? (p.fingerprintAt n) = some .directory))) := by
  refine ((writeAll_ends hout hready htracks hcollision hunits).mono (fun _ _ h => h) ?_).bind ?_
  · rintro d' ⟨hkept, hreason⟩
    exact ⟨hkept, .inl hreason⟩
  rintro _ d₁ ⟨hkept, hholds⟩
  refine DiskAction.ends_get_bind ?_
  -- the stale names are those of other units that the cache knew
  have hstale : ∀ n, n ∈ p.staleNames d₁ units ↔
      latest n units = none ∧ d.entry? (p.fingerprintAt n) ≠ none := by
    intro n
    rw [staleNames, List.mem_filter, hkept.ready.made.mem_unitNames, latest_eq_none]
    change d₁.entry? (p.fingerprintAt n) ≠ none ∧ _ ↔ _
    rw [(hholds n).2]
    simp only [Bool.not_eq_true', List.contains_eq_mem, decide_eq_false_iff_not]
    constructor
    · rintro ⟨hentry, hn⟩
      rw [latest_eq_none.mpr hn] at hentry
      exact ⟨hn, by simpa using hentry⟩
    · rintro ⟨hn, hentry⟩
      rw [latest_eq_none.mpr hn]
      exact ⟨by simpa using hentry, hn⟩
  have hnames : ∀ n ∈ p.staleNames d₁ units, IsHintName n := by
    intro n hn
    exact Cache.isHintName_of_entry? hready.tree ((hstale n).mp hn).2
  refine ((removeAll_ends hout hkept.ready hkept.tracks hnames).mono (fun _ _ h => h) ?_).bind ?_
  · rintro d₂ ⟨hkept', n, hn, hbusy⟩
    rw [hkept.directories, hkept.directories] at hbusy
    exact ⟨hkept.trans hkept', .inr ⟨n, ((hstale n).mp hn).2, hbusy⟩⟩
  rintro _ d₂ ⟨hkept', hgone⟩
  refine DiskAction.ends_pure ⟨hkept.trans hkept', fun n => ?_⟩
  rw [(hgone n).1, (hgone n).2, (hholds n).1, (hholds n).2]
  cases hlatest : latest n units with
  | some u =>
    have hn : n ∉ p.staleNames d₁ units := by simp [hstale, hlatest]
    simp [hn]
  | none =>
    by_cases hentry : d.entry? (p.fingerprintAt n) = none
    · have hn : n ∉ p.staleNames d₁ units := by simp [hstale, hentry]
      simp [hn, hentry]
    · have hn : n ∈ p.staleNames d₁ units := (hstale n).mpr ⟨hlatest, hentry⟩
      simp [hn, hentry]

/-- **Units that are all in the cache are left alone**, if the cache knows no others. -/
theorem finish_eq {units : List GeneratedUnit} (hout : p.outDirectory.IsPlain)
    (hinc : p.incremental = true) (hready : p.Ready d)
    (hunits : ∀ u ∈ units, IsHintName u.hintName ∧ p.IsCached u d)
    (hnames : ∀ n, d.entry? (p.fingerprintAt n) ≠ none → latest n units ≠ none) :
    (p.finish units).run d =
      .ok ⟨units.map fun u => ⟨u.fileName, .cached⟩, [], p.outDirectory⟩ d := by
  have hwrite := DiskAction.run_mapM_eq (f := p.writeUnit)
    (g := fun u => ⟨u.fileName, .cached⟩) (d := d) fun u hu =>
      writeUnit_eq hout hinc hready (hunits u hu).1 (hunits u hu).2
  have hstale : p.staleNames d units = [] := by
    rw [staleNames, List.filter_eq_nil_iff]
    intro n hn
    have hlatest := hnames n (hready.made.mem_unitNames.mp hn)
    rw [ne_eq, latest_eq_none, not_not] at hlatest
    simpa using hlatest
  rw [finish, EStateM.run_bind, hwrite]
  dsimp only
  rw [EStateM.run_bind]
  change ((p.staleNames d units).mapM p.removeUnit >>= _ : DiskAction WriteReport).run d = _
  rw [hstale]
  rfl

end OutputPlan

end Facade
