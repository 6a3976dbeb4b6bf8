import Facade.Proofs.Command.Calls
import Facade.Proofs.Command.Footprint

/-!
# The two modes of the writer

The writer can look at what is in the cache, or begin the cache anew and write every unit. Both ways lead
to the same files, but for those of units that are no longer generated: a cache that begins anew knows of
none, and their files stay.

* `OutputPlan.inMode`: a plan in one of the modes;
* `OutputPlan.Reached`, `OutputPlan.tracked_of_reached`: disks after calls in both modes;
* `OutputPlan.Renewed`, `OutputPlan.prepare_renews`: the directories in both modes;
* `OutputPlan.finish_renewed`: the units in both modes;
* **`OutputPlan.writeUnits_modes`**: where the modes agree, and where not.
-/

namespace Facade

open Disk

namespace OutputPlan

/-- The plan with the mode that looks at the cache, or with the one that begins it anew. -/
def inMode (p : OutputPlan) (incremental : Bool) : OutputPlan := { p with incremental := incremental }

variable {p : OutputPlan} {written : GeneratedUnit → Prop} {units : List GeneratedUnit} {b : Bool}
  {d₀ d d' d₁ d₂ d₃ : Disk} {n : String}

theorem IsProper.inMode (h : p.IsProper) : (p.inMode b).IsProper := ⟨h.out, h.cache⟩

theorem ready_inMode : (p.inMode b).Ready d ↔ p.Ready d :=
  ⟨fun h => ⟨h.tree, h.made, h.agrees⟩, fun h => ⟨h.tree, h.made, h.agrees⟩⟩

/-! ## Calls in both modes -/

/-- Disks after calls in either mode, whether they come to their ends or not. -/
inductive Reached (p : OutputPlan) (written : GeneratedUnit → Prop) (d₀ : Disk) : Disk → Prop
  | start : Reached p written d₀ d₀
  | call {d : Disk} (before : Reached p written d₀ d) (incremental : Bool)
      {units : List GeneratedUnit} (units_written : ∀ u ∈ units, written u) :
      Reached p written d₀ (((p.inMode incremental).writeUnits units).disk d)

/-- Every fingerprint is that of a unit that was written, and the file of the unit holds its text, unless
it is gone. The manifest does not matter. -/
def Tracked (p : OutputPlan) (written : GeneratedUnit → Prop) (d : Disk) : Prop :=
  ∀ n content, d.read? (p.fingerprintAt n) = some content →
    ∃ u, written u ∧ u.hintName = n ∧ content = Utf8.encode (unitFingerprint u) ∧
      (d.entry? (p.fileAt n) = none ∨ d.entry? (p.fileAt n) = some (.file (Utf8.encode u.text)))

theorem Tracked.tracks (h : p.Tracked written d) : (p.inMode b).Tracks written d := fun _ => h

theorem Kept.tracked (h : (p.inMode b).Kept written d d') : p.Tracked written d' :=
  h.tracks h.ready.agrees

/-- The directories of a plan take nothing from the disk but what they may lose, and add but themselves
and the manifest. -/
theorem Prepared.within (h : p.Prepared d d') :
    ∃ d₁, Within (· ∈ p.ways) d d₁ ∧ ∀ q ≠ p.manifestAt, d'.entry? q = d₁.entry? q := by
  rcases h with ⟨-, hgrow⟩ | ⟨d₁, hwithin, -, rfl⟩
  · exact ⟨d', hgrow.within, fun _ _ => rfl⟩
  · refine ⟨d₁, hwithin, fun q hq => ?_⟩
    rw [Disk.entry?_put manifestAt_ne_nil, if_neg hq]

theorem Prepared.entry?_ne_none (h : p.Prepared d d') (hentry : d'.entry? (p.fingerprintAt n) ≠ none)
    (hdir : d'.entry? (p.fingerprintAt n) ≠ some .directory) :
    d.entry? (p.fingerprintAt n) ≠ none := by
  obtain ⟨d₁, hwithin, hsame⟩ := h.within
  rw [hsame _ fingerprintAt_ne_manifestAt] at hentry hdir
  rcases hwithin (p.fingerprintAt n) with heq | hnone | ⟨-, hdir₁⟩
  · exact heq ▸ hentry
  · exact absurd hnone hentry
  · exact absurd hdir₁ hdir

/-- No file of a unit stands on the way to the cache. -/
def IsApart (p : OutputPlan) (written : GeneratedUnit → Prop) : Prop :=
  ∀ u, written u → p.fileAt u.hintName ∉ p.cache.unitsPath.stops

theorem IsApart.not_mem_ways (h : p.IsApart written) (hp : p.IsProper) {u : GeneratedUnit}
    (hu : written u) : p.fileAt u.hintName ∉ p.ways := fun hmem =>
  (List.mem_append.mp hmem).elim (fileAt_not_mem_stops hp.out) (h u hu)

theorem Tracked.of_within (h : p.Tracked written d) (hp : p.IsProper) (hapart : p.IsApart written)
    (hwithin : Within (· ∈ p.ways) d d') : p.Tracked written d' := by
  intro n content hread
  obtain ⟨u, hu, rfl, hcontent, hfile⟩ := h n content (hwithin.read? hread)
  refine ⟨u, hu, rfl, hcontent, ?_⟩
  rcases hwithin.entry?_eq_none_or_eq (hapart.not_mem_ways hp hu) with hnone | heq
  · exact .inl hnone
  · rwa [heq]

theorem Tracked.of_prepared (h : p.Tracked written d) (hp : p.IsProper) (hapart : p.IsApart written)
    (hprepared : p.Prepared d d') : p.Tracked written d' := by
  obtain ⟨d₁, hwithin, hsame⟩ := hprepared.within
  intro n content hread
  rw [Disk.read?_congr (hsame _ fingerprintAt_ne_manifestAt)] at hread
  rw [hsame _ fileAt_ne_manifestAt]
  exact h.of_within hp hapart hwithin n content hread

section

variable (hp : p.IsProper) (hcollision : NoCollision written)
  (hnames : ∀ u, written u → IsHintName u.hintName) (hapart : p.IsApart written)

include hp hcollision hnames hapart

theorem tracked_writeUnits (hd : d.IsTree) (h : p.Tracked written d) (hunits : ∀ u ∈ units, written u) :
    ((p.inMode b).writeUnits units).Ends d (fun _ d' => d'.IsTree ∧ p.Tracked written d')
      (fun d' => d'.IsTree ∧ p.Tracked written d') := by
  rw [writeUnits_eq]
  refine ((prepare_ends (p := p.inMode b) hp.inMode hd).mono (fun _ _ h => h) ?_).bind ?_
  · rintro d' ⟨hd', hwithin, -⟩
    exact ⟨hd', h.of_within hp hapart hwithin⟩
  rintro _ d₁ ⟨hready, hprepared, -⟩
  have htracked : p.Tracked written d₁ := h.of_prepared hp hapart hprepared
  have hfinish := finish_ends (p := p.inMode b) hp.out hready htracked.tracks hcollision
    fun u hu => ⟨hunits u hu, hnames u (hunits u hu)⟩
  exact hfinish.mono (fun _ _ h => ⟨h.1.ready.tree, h.1.tracked⟩) fun _ h =>
    ⟨h.1.ready.tree, h.1.tracked⟩

/-- **Calls in both modes** keep the fingerprints right. -/
theorem tracked_of_reached (hd₀ : d₀.IsTree) (hempty : ∀ n, d₀.read? (p.fingerprintAt n) = none)
    (h : p.Reached written d₀ d) : d.IsTree ∧ p.Tracked written d := by
  induction h with
  | start =>
    refine ⟨hd₀, fun n content hread => ?_⟩
    rw [hempty n] at hread
    cases hread
  | call before incremental units_written ih =>
    exact (tracked_writeUnits hp hcollision hnames hapart ih.1 ih.2 units_written).disk

end

/-! ## Directories in both modes -/

theorem prepare_run_of_ok
    (hmake : (makeDirectories (.ofLocation p.outDirectory)).run d = .ok () d₁) :
    p.prepare.run d = if p.incremental && p.cache.isValid d₁ then p.cache.makeDirectories.run d₁
      else (discard p.cache.rebuild).run d₁ := by
  rw [prepare, EStateM.run_bind, hmake]
  dsimp only
  split_ifs with h
  · change (if _ then _ else _ : DiskAction Unit).run d₁ = _
    rw [if_pos h]
  · change (if _ then _ else _ : DiskAction Unit).run d₁ = _
    rw [if_neg h]

/-- What the directories come to in the one mode and in the other: the same outside of the cache. The
cache is the same or without its fingerprints. -/
structure Renewed (p : OutputPlan) (d d₂ d₃ : Disk) : Prop where
  outside : ∀ q, ¬ p.cache.home <+: q → d₃.entry? q = d₂.entry? q
  fingerprint : ∀ n, d₃.entry? (p.fingerprintAt n) = none ∨
    d₃.entry? (p.fingerprintAt n) = d₂.entry? (p.fingerprintAt n)
  /-- A cache that is in use was only added to in the one mode, and has lost its fingerprints in the
  other. -/
  inUse : p.cache.isValid d = true → Grows (· ∈ p.ways) d d₂ ∧
    ∀ n, d₃.entry? (p.fingerprintAt n) = none ∨ d₃.entry? (p.fingerprintAt n) = some .directory

theorem rebuild_renews (hp : p.IsProper) (hd₁ : d₁.IsTree) (hvalid : p.cache.isValid d₁ = true)
    (hmake : p.cache.makeDirectories.run d₁ = .ok () d₂) :
    (p.cache.rebuild).Ends d₁
      (fun _ d₃ => p.Ready d₃ ∧ (∀ q, ¬ p.cache.home <+: q → d₃.entry? q = d₂.entry? q) ∧
        ∀ n, d₃.entry? (p.fingerprintAt n) = none ∨
          d₃.entry? (p.fingerprintAt n) = some .directory ∧
            d₂.entry? (p.fingerprintAt n) = some .directory)
      (fun _ => p.cachePath.endsInName = false) := by
  obtain ⟨hreach, hagrees⟩ := (Cache.isValid_iff rfl).mp hvalid
  obtain ⟨content, hmanifest⟩ := hagrees.exists_file
  obtain ⟨-, hgrow, hstops⟩ :=
    (Disk.makeDirectories_ends (Cache.isProper_unitsPath (c := p.cache) hp.cache) hd₁).of_ok hmake
  -- a file that was there is in the way of no directory
  have hfree : ∀ {stop : Location} {content : List UInt8}, stop ∈ p.cache.unitsPath.stops →
      d₁.entry? stop ≠ some (.file content) := by
    intro stop content hstop hfile
    have hkept := hgrow.entry?_eq (q := stop) (by rw [hfile]; simp)
    rw [hstops stop hstop, hfile] at hkept
    cases hkept
  refine (Cache.rebuild_ends (c := p.cache) hp.cache hd₁).mono ?_ ?_
  · rintro _ _ ⟨hd₃, hmade, d', hgrow', rfl⟩
    have hput : ∀ q ≠ p.manifestAt, Disk.entry? (d'.put p.manifestAt
        (.file (Utf8.encode p.cache.manifest.text))) q = d'.entry? q := by
      intro q hq
      rw [Disk.entry?_put manifestAt_ne_nil, if_neg hq]
    have hnew : Disk.entry? (d'.put p.manifestAt (.file (Utf8.encode p.cache.manifest.text)))
        p.manifestAt = some (.file (Utf8.encode p.cache.manifest.text)) := by
      rw [Disk.entry?_put manifestAt_ne_nil, if_pos rfl]
    refine ⟨⟨hd₃, hmade, Cache.agrees_of_text rfl hnew⟩, fun q hq => ?_, fun n => ?_⟩
    · by_cases hstop : q ∈ p.cache.unitsPath.stops
      · exact (hmade q hstop).trans (hstops q hstop).symm
      · have hne : q ≠ p.manifestAt := by
          rintro rfl
          exact hq (List.prefix_append _ _)
        exact (hput q hne).trans ((hgrow'.entry?_eq_of_not hstop).trans
          ((Cache.entry?_wiped_of_not_prefix hq).trans (hgrow.entry?_eq_of_not hstop).symm))
    · by_cases hstop : p.fingerprintAt n ∈ p.cache.unitsPath.stops
      · exact .inr ⟨hmade _ hstop, hstops _ hstop⟩
      · left
        have hgone := Cache.entry?_wiped (c := p.cache) hd₁
          (fun hhome => Cache.isThere_of_reach? hreach hhome)
          (List.cons_ne_nil Cache.unitsName [n ++ Cache.fingerprintEnding])
        rw [← fingerprintAt_eq] at hgone
        exact (hput _ fingerprintAt_ne_manifestAt).trans ((hgrow'.entry?_eq_of_not hstop).trans hgone)
  · rintro _ ⟨-, -, ⟨stop, hstop, hfile⟩ | hstop | hdir | hunnamed⟩
    · obtain ⟨content, hcontent⟩ := Option.isSome_iff_exists.mp hfile
      exact absurd (Disk.read?_eq_some.mp hcontent) (hfree hstop)
    · exact absurd hmanifest (hfree hstop)
    · rw [hmanifest] at hdir
      cases hdir
    · exact hunnamed

/-- **The directories in the mode that begins anew**, if they can be made in the other one and the cache
can be removed. -/
theorem prepare_renews (hp : p.IsProper) (hd : d.IsTree)
    (hrun : (p.inMode true).prepare.run d = .ok () d₂) :
    (p.inMode false).prepare.Ends d (fun _ d₃ => p.Ready d₃ ∧ p.Renewed d d₂ d₃)
      (fun _ => p.cachePath.endsInName = false) := by
  have hready := ready_inMode.mp ((prepare_ends (p := p.inMode true) hp.inMode hd).of_ok hrun).1
  cases hmake : (makeDirectories (.ofLocation p.outDirectory)).run d with
  | error fault d₁ =>
    have hmake' : (makeDirectories (.ofLocation (p.inMode true).outDirectory)).run d =
        .error fault d₁ := hmake
    rw [prepare, EStateM.run_bind, hmake'] at hrun
    cases hrun
  | ok _ d₁ =>
    obtain ⟨hd₁, hgrow, -⟩ := (Disk.makeDirectories_ends (isProper_ofLocation hp.out) hd).of_ok hmake
    have hconfined := (touches_makeDirectories (.ofLocation p.outDirectory) d).of_ok hmake
    rw [prepare_run_of_ok (p := p.inMode true) hmake] at hrun
    unfold DiskAction.Ends
    rw [prepare_run_of_ok (p := p.inMode false) hmake, if_neg (by simp [inMode])]
    cases hvalid : p.cache.isValid d₁ with
    | true =>
      have hunits : p.cache.makeDirectories.run d₁ = .ok () d₂ := by
        rwa [show ((p.inMode true).incremental && (p.inMode true).cache.isValid d₁) = true from hvalid,
          if_pos rfl] at hrun
      refine DiskAction.Ends.discard (x := p.cache.rebuild)
        ((rebuild_renews hp hd₁ hvalid hunits).mono ?_ fun _ h => h)
      rintro _ d₃ ⟨hready₃, houtside, hfingerprint⟩
      obtain ⟨-, hgrow₂, -⟩ := (Disk.makeDirectories_ends
        (Cache.isProper_unitsPath (c := p.cache) hp.cache) hd₁).of_ok hunits
      refine ⟨hready₃, houtside, fun n => ?_, fun _ => ⟨?_, fun n => ?_⟩⟩
      · exact (hfingerprint n).imp id fun h => h.1.trans h.2.symm
      · exact (hgrow.mono fun q => mem_ways_of_out).trans (hgrow₂.mono fun q => mem_ways_of_units)
      · exact (hfingerprint n).imp id And.left
    | false =>
      rw [show ((p.inMode true).incremental && (p.inMode true).cache.isValid d₁) = false from hvalid,
        if_neg (by simp)] at hrun
      have hrun' : (discard (p.inMode false).cache.rebuild).run d₁ = .ok () d₂ := hrun
      rw [hrun']
      refine ⟨hready, fun _ _ => rfl, fun _ => .inr rfl, fun hd => ?_⟩
      rw [Cache.isValid_of_confined rfl hconfined hd] at hvalid
      cases hvalid

/-! ## Units in both modes -/

theorem not_directory_of_finish (hout : p.outDirectory.IsPlain) (hready : p.Ready d)
    (htracks : p.Tracks written d) (hcollision : NoCollision written)
    (hunits : ∀ u ∈ units, written u ∧ IsHintName u.hintName) {report : WriteReport}
    (hrun : (p.finish units).run d = .ok report d') :
    (∀ n, d.entry? (p.fingerprintAt n) ≠ some .directory) ∧
      ∀ n, latest n units ≠ none ∨ d.entry? (p.fingerprintAt n) ≠ none →
        d.entry? (p.fileAt n) ≠ some .directory := by
  obtain ⟨hkept, hexact⟩ := (finish_ends hout hready htracks hcollision hunits).of_ok hrun
  refine ⟨fun n hdir => ?_, fun n hn hdir => ?_⟩
  · have hdir' := (hkept.directories _).mpr hdir
    rw [(hexact n).2] at hdir'
    cases hlatest : latest n units <;> simp [hlatest] at hdir'
  · have hdir' := (hkept.directories _).mpr hdir
    rw [(hexact n).1] at hdir'
    cases hlatest : latest n units with
    | some u => simp [hlatest] at hdir'
    | none =>
      have hentry : d.entry? (p.fingerprintAt n) ≠ none := hn.resolve_left fun h => h hlatest
      simp [hlatest, hentry] at hdir'

/-- A file of a unit that is no longer generated: the cache has a fingerprint, and the call has no unit. -/
def IsStale (p : OutputPlan) (units : List GeneratedUnit) (d : Disk) (q : Location) : Prop :=
  ∃ n, q = p.fileAt n ∧ latest n units = none ∧ d.entry? (p.fingerprintAt n) ≠ none

section

variable (hp : p.IsProper) (hcollision : NoCollision written)
  (hunits : ∀ u ∈ units, written u ∧ IsHintName u.hintName) (hready₂ : p.Ready d₂)
  (htracked₂ : p.Tracked written d₂) (hrenewed : p.Renewed d d₂ d₃) {report : WriteReport}
  (hrun : ((p.inMode true).finish units).run d₂ = .ok report d')

include hp hcollision hunits hready₂ htracked₂ hrenewed hrun

/-- **Units can be written to a cache that began anew**, if they can be to the one that was there. -/
theorem finish_renewed (hready₃ : p.Ready d₃) (htracked₃ : p.Tracked written d₃)
    (hbeside : ¬ p.cache.home <+: p.outDirectory)
    (hdir : d₂.entry? p.outDirectory = some .directory) :
    ((p.inMode false).finish units).Ends d₃
      (fun _ d'' => (p.inMode false).Kept written d₃ d'' ∧ ∀ n,
        d''.entry? (p.fileAt n) =
          ((latest n units).map fun u => .file (Utf8.encode u.text)).or
            (if d₃.entry? (p.fingerprintAt n) = none then d₃.entry? (p.fileAt n) else none))
      (fun _ => False) := by
  obtain ⟨hfingerprint, hfile⟩ := not_directory_of_finish (p := p.inMode true) hp.out
    (ready_inMode.mpr hready₂) htracked₂.tracks hcollision hunits hrun
  -- what is a directory on the one disk is one on the other
  have hfingerprint₃ : ∀ n, d₃.entry? (p.fingerprintAt n) ≠ some .directory := by
    intro n hn
    rcases hrenewed.fingerprint n with hnone | heq
    · rw [hnone] at hn
      cases hn
    · exact hfingerprint n (heq ▸ hn)
  have hfile₃ : ∀ n, d₃.entry? (p.fileAt n) = some .directory →
      d₂.entry? (p.fileAt n) = some .directory := by
    intro n hn
    by_cases hbelow : p.cache.home <+: p.fileAt n
    · have hhome : p.fileAt n = p.cache.home :=
        ((List.prefix_concat_iff.mp hbelow).resolve_right hbeside).symm
      rw [hhome]
      exact hready₂.made.directory_home
    · rwa [hrenewed.outside _ hbelow] at hn
  refine (finish_ends (p := p.inMode false) hp.out (ready_inMode.mpr hready₃) htracked₃.tracks
    hcollision hunits).mono (fun _ d'' h => ⟨h.1, fun n => (h.2 n).1⟩) ?_
  rintro _ ⟨-, ⟨u, hu, hplace⟩ | ⟨n, hn, hdir₃ | hdir₃⟩⟩
  · refine hplace ⟨?_, fun h => ?_, hfingerprint₃ _⟩
    · exact (hrenewed.outside _ hbeside).trans hdir
    · refine hfile u.hintName (.inl ?_) (hfile₃ _ h)
      rw [ne_eq, latest_eq_none, not_not]
      exact List.mem_map_of_mem hu
  · refine hfile n (.inr ?_) (hfile₃ n hdir₃)
    rcases hrenewed.fingerprint n with hnone | heq
    · exact absurd hnone hn
    · exact heq ▸ hn
  · exact hfingerprint₃ n hdir₃

/-- The disks after both calls are the same outside of the cache, but for units whose fingerprints only
the one call has found. -/
theorem finish_agrees {d'' : Disk} (hkept : (p.inMode false).Kept written d₃ d'')
    (hexact : ∀ n, d''.entry? (p.fileAt n) =
      ((latest n units).map fun u => .file (Utf8.encode u.text)).or
        (if d₃.entry? (p.fingerprintAt n) = none then d₃.entry? (p.fileAt n) else none))
    {q : Location} (hq : ¬ p.cache.home <+: q)
    (hfound : ∀ n, q = p.fileAt n → latest n units = none → d₂.entry? (p.fingerprintAt n) = none ∨
      d₃.entry? (p.fingerprintAt n) ≠ none) :
    d''.entry? q = d'.entry? q := by
  obtain ⟨hkept₂, hexact₂⟩ := (finish_ends (p := p.inMode true) hp.out (ready_inMode.mpr hready₂)
    htracked₂.tracks hcollision hunits).of_ok hrun
  by_cases hfile : ∃ n, q = p.fileAt n
  · obtain ⟨n, rfl⟩ := hfile
    refine (hexact n).trans (Eq.trans ?_ (hexact₂ n).1.symm)
    cases hlatest : latest n units with
    | some u => rfl
    | none =>
      change (if d₃.entry? (p.fingerprintAt n) = none then d₃.entry? (p.fileAt n) else none) =
        if d₂.entry? (p.fingerprintAt n) = none then d₂.entry? (p.fileAt n) else none
      rw [hrenewed.outside _ hq]
      rcases hrenewed.fingerprint n with hnone | heq
      · rcases hfound n rfl hlatest with hnone₂ | hsome
        · rw [hnone, hnone₂]
        · exact absurd hnone hsome
      · rw [heq]
  · have hframe : ∀ n, q ≠ p.fileAt n ∧ q ≠ p.fingerprintAt n := fun n =>
      ⟨fun h => hfile ⟨n, h⟩, fun h => hq (by rw [h, fingerprintAt_eq]; exact List.prefix_append _ _)⟩
    exact (hkept.frame q hframe).trans ((hrenewed.outside q hq).trans (hkept₂.frame q hframe).symm)

/-- The file of a unit that is no longer generated goes in the one call and stays in the other, if the
cache was in use. -/
theorem finish_of_stale {d'' : Disk}
    (hexact : ∀ n, d''.entry? (p.fileAt n) =
      ((latest n units).map fun u => .file (Utf8.encode u.text)).or
        (if d₃.entry? (p.fingerprintAt n) = none then d₃.entry? (p.fileAt n) else none))
    (hvalid : p.cache.isValid d = true) (hbelow : ¬ p.cache.home <+: p.fileAt n)
    (hlatest : latest n units = none) (hentry : d.entry? (p.fingerprintAt n) ≠ none) :
    d'.entry? (p.fileAt n) = none ∧ d''.entry? (p.fileAt n) = d.entry? (p.fileAt n) := by
  obtain ⟨-, hexact₂⟩ := (finish_ends (p := p.inMode true) hp.out (ready_inMode.mpr hready₂)
    htracked₂.tracks hcollision hunits).of_ok hrun
  obtain ⟨hfingerprint, hfile⟩ := not_directory_of_finish (p := p.inMode true) hp.out
    (ready_inMode.mpr hready₂) htracked₂.tracks hcollision hunits hrun
  obtain ⟨hgrow, hnew⟩ := hrenewed.inUse hvalid
  have hentry₂ : d₂.entry? (p.fingerprintAt n) ≠ none := by rwa [hgrow.entry?_eq hentry]
  have hnone₃ : d₃.entry? (p.fingerprintAt n) = none := by
    rcases hrenewed.fingerprint n with hnone | heq
    · exact hnone
    · exact (hnew n).resolve_right fun hdir => hfingerprint n (heq ▸ hdir)
  have hsame : d₂.entry? (p.fileAt n) = d.entry? (p.fileAt n) := by
    rcases hgrow (p.fileAt n) with heq | ⟨-, -, hdir⟩
    · exact heq
    · exact absurd hdir (hfile n (.inr hentry₂))
  constructor
  · have hgone := (hexact₂ n).1
    rw [hlatest] at hgone
    refine hgone.trans ?_
    rw [Option.map_none, Option.none_or]
    exact if_neg hentry₂
  · rw [hexact n, hlatest, if_pos hnone₃, Option.map_none, Option.none_or,
      hrenewed.outside _ hbelow, hsame]

end

/-- **Both modes leave the same files**, but for those of units that are no longer generated. On a disk
after any calls in either mode, a call that comes to its end when it looks at the cache comes to its end
when it begins the cache anew too, as long as the path of the cache ends in its name. Outside of the cache
the disks are the same then, wherever there is no file of such a unit; and where there is one and the
cache was in use, the one call removes it, and the other leaves it. -/
theorem writeUnits_modes (hp : p.IsProper) (hcollision : NoCollision written)
    (hnames : ∀ u, written u → IsHintName u.hintName) (hapart : p.IsApart written)
    (hbeside : ¬ p.cache.home <+: p.outDirectory) (hd₀ : d₀.IsTree)
    (hempty : ∀ n, d₀.read? (p.fingerprintAt n) = none) (hreached : p.Reached written d₀ d)
    (hunits : ∀ u ∈ units, written u) {report : WriteReport}
    (hrun : ((p.inMode true).writeUnits units).run d = .ok report d') :
    (p.cachePath.endsInName = true →
      ∃ report' d'', ((p.inMode false).writeUnits units).run d = .ok report' d'') ∧
    ∀ report' d'', ((p.inMode false).writeUnits units).run d = .ok report' d'' →
      (∀ q, ¬ p.cache.home <+: q → ¬ p.IsStale units d q → d''.entry? q = d'.entry? q) ∧
      (p.cache.isValid d = true → ∀ q, ¬ p.cache.home <+: q → p.IsStale units d q →
        d'.entry? q = none ∧ d''.entry? q = d.entry? q) := by
  suffices hslow : ((p.inMode false).writeUnits units).Ends d
      (fun _ d'' => (∀ q, ¬ p.cache.home <+: q → ¬ p.IsStale units d q →
          d''.entry? q = d'.entry? q) ∧
        (p.cache.isValid d = true → ∀ q, ¬ p.cache.home <+: q → p.IsStale units d q →
          d'.entry? q = none ∧ d''.entry? q = d.entry? q))
      (fun _ => p.cachePath.endsInName = false) by
    refine ⟨fun hnamed => ?_, fun report' d'' hrun' => hslow.of_ok hrun'⟩
    cases hrun' : ((p.inMode false).writeUnits units).run d with
    | ok report' d'' => exact ⟨report', d'', rfl⟩
    | error fault d'' => exact absurd hnamed (by simp [hslow.of_error hrun'])
  obtain ⟨hd, htracked⟩ := tracked_of_reached hp hcollision hnames hapart hd₀ hempty hreached
  have hunits' : ∀ u ∈ units, written u ∧ IsHintName u.hintName := fun u hu =>
    ⟨hunits u hu, hnames u (hunits u hu)⟩
  rw [writeUnits_eq, EStateM.run_bind] at hrun
  cases hprepare : (p.inMode true).prepare.run d with
  | error fault d₂ =>
    rw [hprepare] at hrun
    cases hrun
  | ok _ d₂ =>
    rw [hprepare] at hrun
    change ((p.inMode true).finish units).run d₂ = .ok report d' at hrun
    obtain ⟨hready, hprepared, hout⟩ :=
      (prepare_ends (p := p.inMode true) hp.inMode hd).of_ok hprepare
    have hready₂ := ready_inMode.mp hready
    have htracked₂ : p.Tracked written d₂ :=
      htracked.of_prepared (p := p.inMode true) hp.inMode hapart hprepared
    have hfingerprint := (not_directory_of_finish (p := p.inMode true) hp.out hready htracked₂.tracks
      hcollision hunits' hrun).1
    have hboth := (prepare_renews hp hd hprepare).and (prepare_ends (p := p.inMode false) hp.inMode hd)
    rw [writeUnits_eq]
    refine (hboth.mono (fun _ _ h => h) fun _ h => h.1).bind ?_
    rintro _ d₃ ⟨⟨hready₃, hrenewed⟩, -, hprepared₃, -⟩
    have htracked₃ : p.Tracked written d₃ :=
      htracked.of_prepared (p := p.inMode false) hp.inMode hapart hprepared₃
    refine (finish_renewed hp hcollision hunits' hready₂ htracked₂ hrenewed hrun hready₃ htracked₃
      hbeside (hout fun h => absurd h hbeside)).mono ?_ fun _ h => h.elim
    rintro _ d'' ⟨hkept, hexact⟩
    refine ⟨fun q hq hstale => ?_, ?_⟩
    · refine finish_agrees hp hcollision hunits' hready₂ htracked₂ hrenewed hrun hkept hexact hq ?_
      intro n hn hlatest
      by_contra hfound
      rw [not_or, not_not] at hfound
      exact hstale ⟨n, hn, hlatest, hprepared.entry?_ne_none hfound.1 (hfingerprint n)⟩
    · rintro hvalid _ hbelow ⟨n, rfl, hlatest, hentry⟩
      exact finish_of_stale hp hcollision hunits' hready₂ htracked₂ hrenewed hrun hexact hvalid hbelow
        hlatest hentry

section Example

/-- A unit. -/
def keptUnit : GeneratedUnit := ⟨"A", "A.generated", "class A\n"⟩

/-- The unit once its source was changed. -/
def changedUnit : GeneratedUnit := ⟨"A", "A.generated", "sealed class A\n"⟩

/-- A unit of another source. -/
def droppedUnit : GeneratedUnit := ⟨"B", "B.generated", "class B\n"⟩

/-- A changed unit is written in both modes. -/
theorem writeUnits_modes_changed :
    ∃ report d' report' d'',
      ((neighbours.inMode true).writeUnits [changedUnit]).run
        (((neighbours.inMode true).writeUnits [keptUnit]).disk Disk.empty) = .ok report d' ∧
      ((neighbours.inMode false).writeUnits [changedUnit]).run
        (((neighbours.inMode true).writeUnits [keptUnit]).disk Disk.empty) = .ok report' d'' ∧
      d''.entry? (neighbours.fileAt "A.generated") = d'.entry? (neighbours.fileAt "A.generated") := by
  have hfingerprints : unitFingerprint keptUnit ≠ unitFingerprint changedUnit := by decide +kernel
  have hcollision : NoCollision fun u => u = keptUnit ∨ u = changedUnit := by
    rintro _ _ (rfl | rfl) (rfl | rfl) h
    · rfl
    · exact absurd h hfingerprints
    · exact absurd h.symm hfingerprints
    · rfl
  have hnames : ∀ u, u = keptUnit ∨ u = changedUnit → IsHintName u.hintName := by
    rintro _ (rfl | rfl)
    · decide
    · decide
  have hapart : neighbours.IsApart fun u => u = keptUnit ∨ u = changedUnit := by
    rintro _ (rfl | rfl)
    · decide
    · decide
  have hd₀ : Disk.empty.IsTree := fun place name h => absurd (entry?_empty (by simp)) h
  have hempty : ∀ n, Disk.empty.read? (neighbours.fingerprintAt n) = none := fun n => by
    rw [Disk.read?, entry?_empty fingerprintAt_ne_nil]
  have hreached : neighbours.Reached (fun u => u = keptUnit ∨ u = changedUnit) Disk.empty
      (((neighbours.inMode true).writeUnits [keptUnit]).disk Disk.empty) :=
    .call .start true (by simp)
  obtain ⟨report, d', hrun⟩ : ∃ report d', ((neighbours.inMode true).writeUnits [changedUnit]).run
      (((neighbours.inMode true).writeUnits [keptUnit]).disk Disk.empty) = .ok report d' :=
    DiskAction.exists_ok_of_succeeds (by decide +kernel)
  obtain ⟨hends, hagrees⟩ := writeUnits_modes neighbours_isProper hcollision hnames
    hapart (by decide) hd₀ hempty hreached (by simp) hrun
  obtain ⟨report', d'', hrun'⟩ := hends (by decide)
  refine ⟨report, d', report', d'', hrun, hrun', (hagrees _ _ hrun').1 _ (by decide) ?_⟩
  rintro ⟨n, hn, hlatest, -⟩
  rw [← (fileAt_injective hn).2] at hlatest
  exact absurd hlatest (by decide)

/-- **The modes do not always agree.** Once the source of a unit is gone, a call that looks at the cache
removes the file of the unit, and one that begins the cache anew leaves it. -/
theorem file_stays_in_one_mode : ¬ ∀ d, neighbours.Reached (· ∈ [keptUnit, droppedUnit]) Disk.empty d →
    ∀ report d' report' d'', ((neighbours.inMode true).writeUnits [keptUnit]).run d = .ok report d' →
      ((neighbours.inMode false).writeUnits [keptUnit]).run d = .ok report' d'' →
      ∀ way, d''.entry? (neighbours.outDirectory ++ way) = d'.entry? (neighbours.outDirectory ++ way) := by
  intro h
  have hreached : neighbours.Reached (· ∈ [keptUnit, droppedUnit]) Disk.empty
      (((neighbours.inMode true).writeUnits [keptUnit, droppedUnit]).disk Disk.empty) :=
    .call .start true fun _ => id
  have heval : (match ((neighbours.inMode true).writeUnitsSorted [keptUnit]).run
        (((neighbours.inMode true).writeUnitsSorted [keptUnit, droppedUnit]).disk Disk.empty),
      ((neighbours.inMode false).writeUnitsSorted [keptUnit]).run
        (((neighbours.inMode true).writeUnitsSorted [keptUnit, droppedUnit]).disk Disk.empty) with
    | .ok _ d', .ok _ d'' => decide (d''.entry? (neighbours.outDirectory ++ ["B.generated.cs"]) =
        d'.entry? (neighbours.outDirectory ++ ["B.generated.cs"]))
    | _, _ => true) = false := by decide +kernel
  simp only [← writeUnits_eq_writeUnitsSorted] at heval
  split at heval
  · next report d' report' d'' hrun hrun' =>
    exact of_decide_eq_false heval (h _ hreached report d' report' d'' hrun hrun' ["B.generated.cs"])
  · cases heval

end Example

end OutputPlan

end Facade
