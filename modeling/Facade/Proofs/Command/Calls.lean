import Mathlib.Data.List.Nodup
import Facade.Proofs.Command.Writing

/-!
# Calls of the writer in a row

A directory of generated files and a cache stay in step, whatever units are written to them one call
after the other, and whichever of the files are lost in between.

* `OutputPlan.Calls`: histories of calls;
* `OutputPlan.Stands`: what every history leaves;
* `OutputPlan.HasRoom`: nothing is in the way of the files;
* **`OutputPlan.writeUnits_in_step`**: the files and the fingerprints are those of the units of the call;
* `OutputPlan.writeUnits_enclosed`: the first call fails if the cache lies around the directory.
-/

namespace Facade

open Disk

namespace OutputPlan

/-- Calls of the writer that came to their ends, the last one first, and the disk after them. Between two
calls any generated file may be lost. -/
inductive Calls (p : OutputPlan) (d₀ : Disk) : List (List GeneratedUnit) → Disk → Prop
  | start : p.Calls d₀ [] d₀
  | call {calls : List (List GeneratedUnit)} {d d' : Disk} {units : List GeneratedUnit}
      {report : WriteReport} (before : p.Calls d₀ calls d)
      (run : (p.writeUnits units).run d = .ok report d') : p.Calls d₀ (units :: calls) d'
  | lose {calls : List (List GeneratedUnit)} {d : Disk} {n : String} (before : p.Calls d₀ calls d)
      (there : d.read? (p.fileAt n) ≠ none) : p.Calls d₀ calls (d.erase (p.fileAt n))

/-- Nothing is in the way of the files of the plan, nor are they in the way of its directories. -/
structure HasRoom (p : OutputPlan) (written : GeneratedUnit → Prop) (d₀ : Disk) : Prop where
  clear : ∀ stop ∈ p.ways, d₀.read? stop = none
  files : ∀ u, written u → p.fileAt u.hintName ∉ p.ways ∧
    d₀.entry? (p.fileAt u.hintName) ≠ some .directory
  manifest : p.manifestAt ∉ p.ways
  fingerprints : ∀ n, p.fingerprintAt n ∉ p.ways
  /-- The directory of the cache can be removed by its path. -/
  named : p.cachePath.endsInName = true
  /-- Wiping the cache does not take the directory of generated files away. -/
  inside : p.cache.home <+: p.outDirectory →
    p.outDirectory = p.cache.home ∨ p.outDirectory = p.cache.unitsAt

/-- The files of units that are on the disk are those of the given ones, and so are the fingerprints.
Files that were there in the beginning are no files of units. -/
structure InStep (p : OutputPlan) (d₀ : Disk) (units : List GeneratedUnit) (d : Disk) : Prop where
  file : ∀ n, d₀.read? (p.fileAt n) = none →
    d.read? (p.fileAt n) = (latest n units).map fun u => Utf8.encode u.text
  fingerprint : ∀ n, d.entry? (p.fingerprintAt n) =
    (latest n units).map fun u => .file (Utf8.encode (unitFingerprint u))

variable {p : OutputPlan} {written : GeneratedUnit → Prop} {d₀ d d' : Disk}
  {calls : List (List GeneratedUnit)} {units : List GeneratedUnit}

/-- What a history leaves: nothing before the first call, and then the files of the last call, some of
which may be gone, with all their fingerprints. -/
def Stands (p : OutputPlan) (written : GeneratedUnit → Prop) (d₀ : Disk) :
    List (List GeneratedUnit) → Disk → Prop
  | [], d => (∀ way ≠ [], d.entry? (p.cache.home ++ way) = none) ∧
      ∀ n, d₀.read? (p.fileAt n) = none → d.read? (p.fileAt n) = none
  | units :: _, d => p.Ready d ∧ p.Tracks written d ∧ (∀ u ∈ units, written u) ∧
      (∀ n, d₀.read? (p.fileAt n) = none → d.read? (p.fileAt n) ≠ none → latest n units ≠ none) ∧
      ∀ n, d.entry? (p.fingerprintAt n) =
        (latest n units).map fun u => .file (Utf8.encode (unitFingerprint u))

/-- What a history leaves if there is room: directories where they belong, and no file in the way. -/
structure Spacious (p : OutputPlan) (d₀ : Disk) (d : Disk) : Prop where
  directories : ∀ q, d.entry? q = some .directory → d₀.entry? q = some .directory ∨ q ∈ p.ways
  clear : ∀ stop ∈ p.ways, d.read? stop = none

/-- What a call finds once its directories are made. -/
structure Opened (p : OutputPlan) (written : GeneratedUnit → Prop) (d₀ d d₁ : Disk) : Prop where
  ready : p.Ready d₁
  tracks : p.Tracks written d₁
  files : ∀ n, d₀.read? (p.fileAt n) = none → d₁.read? (p.fileAt n) ≠ none →
    d₁.entry? (p.fingerprintAt n) ≠ none
  within : ∀ q ≠ p.manifestAt, d₁.entry? q = d.entry? q ∨ d₁.entry? q = none ∨
    q ∈ p.ways ∧ d₁.entry? q = some .directory
  out : (p.cache.home <+: p.outDirectory →
      p.outDirectory = p.cache.home ∨ p.outDirectory = p.cache.unitsAt) →
    d₁.entry? p.outDirectory = some .directory

theorem fingerprintAt_eq (n : String) :
    p.fingerprintAt n = p.cache.home ++ [Cache.unitsName, n ++ Cache.fingerprintEnding] := by
  simp [fingerprintAt, Cache.fingerprintAt, Cache.unitsAt]

theorem opened_of_start (hp : p.IsProper) (hd : d.IsTree) (h : p.Stands written d₀ [] d) :
    p.prepare.Ends d (fun _ d₁ => p.Opened written d₀ d d₁)
      (fun _ => (∃ stop ∈ p.ways, (d.read? stop).isSome = true) ∨ p.manifestAt ∈ p.ways ∨
        p.cachePath.endsInName = false) := by
  obtain ⟨hempty, hfiles⟩ := h
  have hmanifest : d.entry? p.manifestAt = none := hempty [Cache.manifestName] (by simp)
  refine (prepare_ends hp hd).mono ?_ ?_
  · rintro _ d₁ ⟨hready, hprepared, hout⟩
    have hnew : ∃ d₂, Within (· ∈ p.ways) d d₂ ∧
        d₁ = d₂.put p.manifestAt (.file (Utf8.encode p.cache.manifest.text)) := by
      rcases hprepared with ⟨hagrees, -⟩ | ⟨d₂, hwithin, -, hd₁⟩
      · obtain ⟨content, hcontent⟩ := hagrees.exists_file
        cases hmanifest.symm.trans hcontent
      · exact ⟨d₂, hwithin, hd₁⟩
    obtain ⟨d₂, hwithin, rfl⟩ := hnew
    have hput : ∀ q ≠ p.manifestAt, Disk.entry? (d₂.put p.manifestAt
        (.file (Utf8.encode p.cache.manifest.text))) q = d₂.entry? q := by
      intro q hq
      rw [Disk.entry?_put manifestAt_ne_nil, if_neg hq]
    refine ⟨hready, ?_, ?_, ?_, hout⟩
    · rintro - n content hread
      rw [Disk.read?_congr (hput _ fingerprintAt_ne_manifestAt)] at hread
      have hfile := Disk.read?_eq_some.mp (hwithin.read? hread)
      rw [fingerprintAt_eq, hempty _ (by simp)] at hfile
      cases hfile
    · intro n hn hread
      rw [Disk.read?_congr (hput _ fileAt_ne_manifestAt)] at hread
      obtain ⟨content, hcontent⟩ := Option.ne_none_iff_exists'.mp hread
      have hfile := hwithin.read? hcontent
      rw [hfiles n hn] at hfile
      cases hfile
    · intro q hq
      rw [hput q hq]
      exact hwithin q
  · rintro _ ⟨-, -, hreason⟩
    rw [hmanifest] at hreason
    simpa using hreason

theorem opened_of_call (hp : p.IsProper) (hinc : p.incremental = true)
    (h : p.Stands written d₀ (units :: calls) d) :
    p.prepare.Ends d
      (fun _ d₁ => p.Opened written d₀ d d₁ ∧
        Grows (· ∈ (Path.ofLocation p.outDirectory).stops) d d₁)
      (fun _ => ∃ stop ∈ p.ways, (d.read? stop).isSome = true) := by
  obtain ⟨hready, htracks, -, hfiles, hfingerprints⟩ := h
  refine (prepare_ends_of_ready hp hinc hready).mono ?_ fun _ h => h
  rintro _ d₁ ⟨hready₁, hgrow, hout⟩
  have hways := hgrow.mono (T := (· ∈ p.ways)) fun q => mem_ways_of_out
  refine ⟨⟨hready₁, ?_, fun n hn hread => ?_, fun q _ => hways.within q, fun _ => hout⟩, hgrow⟩
  · exact htracks.of_within hgrow.within fun _ _ => fileAt_not_mem_stops hp.out
  · rw [hgrow.read?_eq] at hread
    have hkept : d.entry? (p.fingerprintAt n) ≠ none := by
      rw [hfingerprints n]
      simpa using hfiles n hn hread
    rwa [hgrow.entry?_eq hkept]

theorem finish_ends_of_opened {d₁ : Disk} (hp : p.IsProper) (hcollision : NoCollision written)
    (hunits : ∀ u ∈ units, written u ∧ IsHintName u.hintName) (h : p.Opened written d₀ d d₁) :
    (p.finish units).Ends d₁
      (fun _ d' => p.Kept written d₁ d' ∧ p.InStep d₀ units d')
      (fun _ => (∃ u ∈ units, ¬ p.HasPlace d₁ u.hintName) ∨
        ∃ n, d₁.entry? (p.fingerprintAt n) ≠ none ∧ ( d₁.entry? (p.fileAt n) = some .directory ∨
          d₁.entry? (p.fingerprintAt n) = some .directory)) := by
  refine (finish_ends hp.out h.ready h.tracks hcollision hunits).mono ?_ fun _ h => h.2
  rintro _ d' ⟨hkept, hexact⟩
  refine ⟨hkept, fun n hn => ?_, fun n => (hexact n).2⟩
  have hfile := (hexact n).1
  cases hlatest : latest n units with
  | some u =>
    rw [hlatest] at hfile
    exact Disk.read?_eq_some.mpr hfile
  | none =>
    rw [hlatest, Option.map_none, Option.none_or] at hfile
    rw [Disk.read?, hfile]
    split_ifs with hfingerprint
    · by_contra hread
      exact h.files n hn hread hfingerprint
    · rfl

theorem InStep.stands {d₁ : Disk} (h : p.InStep d₀ units d') (hkept : p.Kept written d₁ d')
    (hunits : ∀ u ∈ units, written u) : p.Stands written d₀ (units :: calls) d' := by
  refine ⟨hkept.ready, hkept.tracks, hunits, fun n hn hread => ?_, h.fingerprint⟩
  rw [h.file n hn] at hread
  simpa using hread

theorem stands_of_lose {n : String} (h : p.Stands written d₀ calls d)
    (hfile : d.read? (p.fileAt n) ≠ none) : p.Stands written d₀ calls (d.erase (p.fileAt n)) := by
  have hwithout : Without (p.fileAt n) d (d.erase (p.fileAt n)) := Disk.entry?_erase fileAt_ne_nil
  have hwithin := hwithout.within fun _ => False
  have hlost : ∀ q, d.read? q = none → (d.erase (p.fileAt n)).read? q = none := by
    intro q hq
    by_contra hread
    obtain ⟨content, hcontent⟩ := Option.ne_none_iff_exists'.mp hread
    rw [hwithin.read? hcontent] at hq
    cases hq
  cases calls with
  | nil =>
    obtain ⟨hempty, hfiles⟩ := h
    refine ⟨fun way hway => ?_, fun m hm => hlost _ (hfiles m hm)⟩
    rw [hwithout, hempty way hway]
    split_ifs <;> rfl
  | cons units calls =>
    obtain ⟨hready, htracks, hunits, hfiles, hfingerprints⟩ := h
    have hplace : d.entry? (p.fileAt n) ≠ some .directory := by
      intro hdir
      rw [Disk.read?, hdir] at hfile
      exact hfile rfl
    refine ⟨hready.without hwithout hplace (fileAt_ne_manifestAt (q := p)),
      htracks.of_within hwithin fun _ _ => id, hunits, fun m hm hread => hfiles m hm fun hnone => ?_,
      fun m => ?_⟩
    · exact hread (hlost _ hnone)
    · rw [hwithout, if_neg (Ne.symm fileAt_ne_fingerprintAt)]
      exact hfingerprints m

/-! ## Room for every file -/

section

variable (hcache : ∀ way ≠ [], d₀.entry? (p.cache.home ++ way) = none)
  (hroom : p.HasRoom written d₀) (hspace : p.Spacious d₀ d)

include hroom hspace

theorem HasRoom.file_of_opened {d₁ : Disk} (h : p.Opened written d₀ d d₁) {u : GeneratedUnit}
    (hu : written u) : d₁.entry? (p.fileAt u.hintName) ≠ some .directory := by
  intro hdir
  obtain ⟨hways, hfree⟩ := hroom.files u hu
  rcases h.within _ fileAt_ne_manifestAt with heq | hnone | ⟨hmem, -⟩
  · rcases hspace.directories _ (heq ▸ hdir) with hdir₀ | hmem
    · exact hfree hdir₀
    · exact hways hmem
  · rw [hnone] at hdir
    cases hdir
  · exact hways hmem

include hcache

theorem HasRoom.fingerprint_of_opened {d₁ : Disk} (h : p.Opened written d₀ d d₁) (n : String) :
    d₁.entry? (p.fingerprintAt n) ≠ some .directory := by
  intro hdir
  have hways := hroom.fingerprints n
  rcases h.within _ fingerprintAt_ne_manifestAt with heq | hnone | ⟨hmem, -⟩
  · rcases hspace.directories _ (heq ▸ hdir) with hdir₀ | hmem
    · rw [fingerprintAt_eq, hcache _ (by simp)] at hdir₀
      cases hdir₀
    · exact hways hmem
  · rw [hnone] at hdir
    cases hdir
  · exact hways hmem

theorem HasRoom.of_opened {d₁ : Disk} (h : p.Opened written d₀ d d₁) :
    (∀ u, written u → p.HasPlace d₁ u.hintName) ∧
      ∀ n, d₁.entry? (p.fingerprintAt n) ≠ none → d₁.entry? (p.fileAt n) ≠ some .directory ∧
        d₁.entry? (p.fingerprintAt n) ≠ some .directory := by
  have hfingerprint := hroom.fingerprint_of_opened hcache hspace h
  refine ⟨fun u hu => ⟨h.out hroom.inside, hroom.file_of_opened hspace h hu, hfingerprint _⟩,
    fun n hn => ⟨?_, hfingerprint n⟩⟩
  obtain ⟨e, he⟩ := Option.ne_none_iff_exists'.mp hn
  cases e with
  | directory => exact absurd he (hfingerprint n)
  | file content =>
    obtain ⟨u, hu, rfl, -⟩ := h.tracks h.ready.agrees n content (Disk.read?_eq_some.mpr he)
    exact hroom.file_of_opened hspace h hu

end

theorem Spacious.of_call {d₁ : Disk} (hspace : p.Spacious d₀ d) (hroom : p.HasRoom written d₀)
    (h : p.Opened written d₀ d d₁) (hkept : p.Kept written d₁ d') (hstep : p.InStep d₀ units d')
    (hunits : ∀ u ∈ units, written u) : p.Spacious d₀ d' where
  directories q hq := by
    rw [hkept.directories] at hq
    have hne : q ≠ p.manifestAt := by
      rintro rfl
      obtain ⟨content, hcontent⟩ := h.ready.agrees.exists_file
      cases hq.symm.trans hcontent
    rcases h.within q hne with heq | hnone | ⟨hmem, -⟩
    · exact hspace.directories q (heq ▸ hq)
    · rw [hnone] at hq
      cases hq
    · exact .inr hmem
  clear stop hstop := by
    by_contra hread
    by_cases hunit : ∃ n, stop = p.fileAt n ∨ stop = p.fingerprintAt n
    · obtain ⟨n, rfl | rfl⟩ := hunit
      · rw [hstep.file n (hroom.clear _ hstop), Option.map_eq_none_iff] at hread
        obtain ⟨u, hu⟩ := Option.ne_none_iff_exists'.mp hread
        obtain ⟨hmem, rfl⟩ := of_latest hu
        exact (hroom.files u (hunits u hmem)).1 hstop
      · exact hroom.fingerprints n hstop
    · have hframe := hkept.frame stop fun n => ⟨fun hn => hunit ⟨n, .inl hn⟩, fun hn => hunit ⟨n, .inr hn⟩⟩
      rw [Disk.read?_congr hframe] at hread
      obtain ⟨content, hcontent⟩ := Option.ne_none_iff_exists'.mp hread
      rw [Disk.read?_eq_some] at hcontent
      have hne : stop ≠ p.manifestAt := by
        rintro rfl
        exact hroom.manifest hstop
      rcases h.within stop hne with heq | hnone | ⟨-, hdir⟩
      · rw [heq, ← Disk.read?_eq_some, hspace.clear stop hstop] at hcontent
        cases hcontent
      · rw [hnone] at hcontent
        cases hcontent
      · rw [hdir] at hcontent
        cases hcontent

theorem Spacious.of_lose {n : String} (hspace : p.Spacious d₀ d) :
    p.Spacious d₀ (d.erase (p.fileAt n)) where
  directories q hq := by
    rw [Disk.entry?_erase fileAt_ne_nil] at hq
    split_ifs at hq
    exact hspace.directories q hq
  clear stop hstop := by
    have hclear := hspace.clear stop hstop
    rw [Disk.read?] at hclear ⊢
    rw [Disk.entry?_erase fileAt_ne_nil]
    split_ifs
    · rfl
    · exact hclear

/-! ## Histories -/

section

variable (hp : p.IsProper) (hinc : p.incremental = true) (hcollision : NoCollision written)
  (hnames : ∀ u, written u → IsHintName u.hintName)
  (hcache : ∀ way ≠ [], d₀.entry? (p.cache.home ++ way) = none)

include hp hinc hcollision hnames hcache

/-- **One more call** leaves its units and their fingerprints, and comes to its end if there is room. -/
theorem call_ends (hd : d.IsTree) (h : p.Stands written d₀ calls d) (hunits : ∀ u ∈ units, written u) :
    (p.writeUnits units).Ends d
      (fun _ d' => p.InStep d₀ units d' ∧ ∃ d₁, p.Opened written d₀ d d₁ ∧ p.Kept written d₁ d')
      (fun _ => ¬ (p.HasRoom written d₀ ∧ p.Spacious d₀ d)) := by
  have hopen : p.prepare.Ends d (fun _ d₁ => p.Opened written d₀ d d₁)
      (fun _ => ¬ (p.HasRoom written d₀ ∧ p.Spacious d₀ d)) := by
    have hfile : (∃ stop ∈ p.ways, (d.read? stop).isSome = true) →
        ¬ (p.HasRoom written d₀ ∧ p.Spacious d₀ d) := by
      rintro ⟨stop, hstop, hfile⟩ ⟨-, hspace⟩
      rw [hspace.clear stop hstop] at hfile
      cases hfile
    cases calls with
    | nil =>
      refine (opened_of_start hp hd h).mono (fun _ _ h => h) ?_
      rintro _ (hreason | hmem | hunnamed)
      · exact hfile hreason
      · exact fun hroom => hroom.1.manifest hmem
      · exact fun hroom => absurd hroom.1.named (by simp [hunnamed])
    | cons last calls =>
      exact (opened_of_call hp hinc h).mono (fun _ _ h => h.1) fun _ => hfile
  rw [writeUnits_eq]
  refine hopen.bind fun _ d₁ hopened => ?_
  have hfinish := finish_ends_of_opened hp hcollision
    (fun u hu => ⟨hunits u hu, hnames u (hunits u hu)⟩) hopened
  refine hfinish.mono ?_ ?_
  · rintro _ d' ⟨hkept, hstep⟩
    exact ⟨hstep, d₁, hopened, hkept⟩
  · rintro _ hreason ⟨hroom, hspace⟩
    obtain ⟨hplace, hfree⟩ := hroom.of_opened hcache hspace hopened
    rcases hreason with ⟨u, hu, hbusy⟩ | ⟨n, hn, hfile | hfingerprint⟩
    · exact hbusy (hplace u (hunits u hu))
    · exact (hfree n hn).1 hfile
    · exact (hfree n hn).2 hfingerprint

/-- **Every history** leaves the units of its last call. -/
theorem stands_of_calls (hd₀ : d₀.IsTree) (hcalls : p.Calls d₀ calls d)
    (hhistory : ∀ units ∈ calls, ∀ u ∈ units, written u) :
    d.IsTree ∧ p.Stands written d₀ calls d ∧ (p.HasRoom written d₀ → p.Spacious d₀ d) := by
  induction hcalls with
  | start => exact ⟨hd₀, ⟨hcache, fun n hn => hn⟩, fun hroom => ⟨fun q hq => .inl hq, hroom.clear⟩⟩
  | @call calls d d' units report before run ih =>
    obtain ⟨hd, hstands, hspace⟩ := ih fun us hus => hhistory us (List.mem_cons_of_mem _ hus)
    have hunits := hhistory units List.mem_cons_self
    obtain ⟨hstep, d₁, hopened, hkept⟩ :=
      (call_ends hp hinc hcollision hnames hcache hd hstands hunits).of_ok run
    exact ⟨hkept.ready.tree, hstep.stands hkept hunits, fun hroom =>
      (hspace hroom).of_call hroom hopened hkept hstep hunits⟩
  | @lose calls d n before there ih =>
    obtain ⟨hd, hstands, hspace⟩ := ih hhistory
    have hplace : d.entry? (p.fileAt n) ≠ some .directory := by
      intro hdir
      rw [Disk.read?, hdir] at there
      exact there rfl
    exact ⟨hd.without (Disk.entry?_erase fileAt_ne_nil) hplace, stands_of_lose hstands there,
      fun hroom => (hspace hroom).of_lose⟩

end

theorem latest_of_nodup {u : GeneratedUnit} (hu : u ∈ units)
    (h : (units.map GeneratedUnit.hintName).Nodup) : latest u.hintName units = some u := by
  cases hlatest : latest u.hintName units with
  | none => exact absurd (List.mem_map_of_mem hu) (latest_eq_none.mp hlatest)
  | some v =>
    obtain ⟨hv, hname⟩ := of_latest hlatest
    rw [List.inj_on_of_nodup_map h hv hu hname]

/-- **The same units once more**: nothing is done to the directory of generated files. -/
theorem run_of_same (hp : p.IsProper) (hinc : p.incremental = true)
    (hcollision : NoCollision written) (hnames : ∀ u, written u → IsHintName u.hintName)
    (h : p.Stands written d₀ (units :: calls) d)
    (hnodup : (units.map GeneratedUnit.hintName).Nodup)
    (hthere : ∀ u ∈ units, d.read? (p.fileAt u.hintName) ≠ none) {report : WriteReport}
    (hrun : (p.writeUnits units).run d = .ok report d') :
    report = ⟨units.map fun u => ⟨u.fileName, .cached⟩, [], p.outDirectory⟩ ∧
      ∀ way ≠ [], d'.entry? (p.outDirectory ++ way) = d.entry? (p.outDirectory ++ way) := by
  have hunits := h.2.2.1
  have hfingerprints := h.2.2.2.2
  have hprepare := opened_of_call hp hinc h
  rw [writeUnits_eq, EStateM.run_bind] at hrun
  unfold DiskAction.Ends at hprepare
  cases hprepared : p.prepare.run d with
  | error fault d₁ =>
    rw [hprepared] at hrun
    cases hrun
  | ok _ d₁ =>
    rw [hprepared] at hrun hprepare
    change (p.finish units).run d₁ = .ok report d' at hrun
    obtain ⟨hopened, hgrow⟩ := hprepare
    obtain ⟨hkept, hstep⟩ := (finish_ends_of_opened hp hcollision
      (fun u hu => ⟨hunits u hu, hnames u (hunits u hu)⟩) hopened).of_ok hrun
    have hcached : ∀ u ∈ units, IsHintName u.hintName ∧ p.IsCached u d₁ := by
      intro u hu
      have hfile : d.entry? (p.fileAt u.hintName) ≠ none := by
        intro hnone
        exact hthere u hu (by rw [Disk.read?, hnone])
      have hfingerprint : d.entry? (p.fingerprintAt u.hintName) =
          some (.file (Utf8.encode (unitFingerprint u))) := by
        rw [hfingerprints, latest_of_nodup hu hnodup]
        rfl
      refine ⟨hnames u (hunits u hu), by rwa [hgrow.entry?_eq hfile], unitFingerprint u, ?_,
        Sha256.trimBlanks_hex _⟩
      rw [hgrow.readText?_eq]
      exact Disk.readText?_of_encode hfingerprint fun hmem =>
        (Sha256.isHexDigit_of_mem_hex hmem).ne_carriageReturn rfl
    have hknown : ∀ n, d₁.entry? (p.fingerprintAt n) ≠ none → latest n units ≠ none := by
      intro n hn hlatest
      rcases hgrow (p.fingerprintAt n) with heq | ⟨-, -, hdir⟩
      · rw [heq, hfingerprints, hlatest] at hn
        exact hn rfl
      · -- a directory that was made there would still be there
        have hdir' := (hkept.directories _).mpr hdir
        rw [hstep.fingerprint n, hlatest] at hdir'
        cases hdir'
    have hrun' := finish_eq hp.out hinc hopened.ready hcached hknown
    rw [hrun'] at hrun
    cases hrun
    refine ⟨rfl, fun way hway => hgrow.entry?_eq_of_not fun hmem => ?_⟩
    have hlength := (prefix_of_mem_stops hp.out.names hmem).length_le
    rw [List.nil_append, List.length_append] at hlength
    have := List.length_pos_iff.mpr hway
    change _ ≤ p.outDirectory.length at hlength
    omega

/-- **The directory of generated files and the cache stay in step.** A cache that is empty in the
beginning and a directory are given to calls with any units, and between them files of units may be lost.
After each call the files are those of its units, the last one of each name, and so are the fingerprints.
A call with the units of the last one does nothing to files that are all there. Calls come to their ends
if nothing is in the way of their files, and the cache does not lie around the directory: then the first
call does not come to its end (`writeUnits_enclosed`). -/
theorem writeUnits_in_step (hp : p.IsProper) (hinc : p.incremental = true)
    (hcollision : NoCollision written) (hnames : ∀ u, written u → IsHintName u.hintName)
    (hd₀ : d₀.IsTree) (hcache : ∀ way ≠ [], d₀.entry? (p.cache.home ++ way) = none)
    (hcalls : p.Calls d₀ calls d) (hhistory : ∀ units ∈ calls, ∀ u ∈ units, written u)
    (hunits : ∀ u ∈ units, written u) :
    (∀ report d', (p.writeUnits units).run d = .ok report d' → p.InStep d₀ units d') ∧
    (calls.head? = some units → (units.map GeneratedUnit.hintName).Nodup →
      (∀ u ∈ units, d.read? (p.fileAt u.hintName) ≠ none) →
      ∀ report d', (p.writeUnits units).run d = .ok report d' →
        report = ⟨units.map fun u => ⟨u.fileName, .cached⟩, [], p.outDirectory⟩ ∧
        ∀ way ≠ [], d'.entry? (p.outDirectory ++ way) = d.entry? (p.outDirectory ++ way)) ∧
    (p.HasRoom written d₀ → ∃ report d', (p.writeUnits units).run d = .ok report d') := by
  obtain ⟨hd, hstands, hspace⟩ :=
    stands_of_calls hp hinc hcollision hnames hcache hd₀ hcalls hhistory
  have hcall := call_ends hp hinc hcollision hnames hcache hd hstands hunits
  refine ⟨fun report d' hrun => (hcall.of_ok hrun).1, fun hlast hnodup hthere report d' hrun => ?_,
    fun hroom => ?_⟩
  · obtain ⟨rest, rfl⟩ := List.head?_eq_some_iff.mp hlast
    exact run_of_same hp hinc hcollision hnames hstands hnodup hthere hrun
  · cases hrun : (p.writeUnits units).run d with
    | ok report d' => exact ⟨report, d', rfl⟩
    | error fault d' => exact absurd ⟨hroom, hspace hroom⟩ (hcall.of_error hrun)

/-- A directory of generated files next to a cache. -/
def neighbours : OutputPlan := ⟨["work", "Generated"], ⟨"/", ["work", "cache"]⟩, true⟩

theorem neighbours_ways : neighbours.ways = [["work"], ["work", "Generated"], ["work"],
    ["work", "cache"], ["work", "cache", "units"]] := by decide

theorem entry?_empty {place : Location} (h : place ≠ []) : Disk.empty.entry? place = none := by
  simp [Disk.entry?, Disk.empty, h]

theorem neighbours_hasRoom (written : GeneratedUnit → Prop) :
    neighbours.HasRoom written Disk.empty where
  clear stop hstop := by
    have hne : stop ≠ [] := by
      rintro rfl
      rw [neighbours_ways] at hstop
      simp at hstop
    rw [Disk.read?, entry?_empty hne]
  files u _ := by
    refine ⟨?_, by rw [entry?_empty fileAt_ne_nil]; simp⟩
    rw [neighbours_ways]
    simp [fileAt, neighbours]
  manifest := by decide
  fingerprints n := by
    rw [neighbours_ways]
    simp [fingerprintAt_eq, Cache.home, cache, neighbours, Cache.ofPath, Path.place, Location.step]
  named := by decide
  inside := by decide

theorem neighbours_isProper : neighbours.IsProper where
  out := by decide
  cache := by decide

/-- A unit is written, its file is lost, it is written again, and then it is left alone. -/
theorem writeUnits_in_step_after_loss :
    ∃ d₁ d₂ d₃ report₁ report₂ report₃,
      (neighbours.writeUnits [⟨"A", "A.generated", "class A\n"⟩]).run Disk.empty = .ok report₁ d₁ ∧
      (neighbours.writeUnits [⟨"A", "A.generated", "class A\n"⟩]).run
        (d₁.erase (neighbours.fileAt "A.generated")) = .ok report₂ d₂ ∧
      (neighbours.writeUnits [⟨"A", "A.generated", "class A\n"⟩]).run d₂ = .ok report₃ d₃ ∧
      d₂.read? (neighbours.fileAt "A.generated") = some (Utf8.encode "class A\n") ∧
      report₃ = ⟨[⟨"A.generated.cs", .cached⟩], [], ["work", "Generated"]⟩ := by
  let u : GeneratedUnit := ⟨"A", "A.generated", "class A\n"⟩
  have hcollision : NoCollision (· = u) := by
    rintro _ _ rfl rfl -
    rfl
  have hnames : ∀ v, v = u → IsHintName v.hintName := by
    rintro _ rfl
    decide
  have htree : Disk.empty.IsTree := fun place name h => absurd (entry?_empty (by simp)) h
  have hcache : ∀ way ≠ [], Disk.empty.entry? (neighbours.cache.home ++ way) = none :=
    fun way hway => entry?_empty (by simp [hway])
  have hunits : ∀ v ∈ [u], v = u := by simp
  have hstep := fun (calls : List (List GeneratedUnit)) (d : Disk)
      (hcalls : neighbours.Calls Disk.empty calls d) (hhistory : ∀ us ∈ calls, ∀ v ∈ us, v = u) =>
    writeUnits_in_step neighbours_isProper rfl hcollision hnames htree hcache hcalls hhistory hunits
  obtain ⟨report₁, d₁, hrun₁⟩ := (hstep [] _ .start (by simp)).2.2 (neighbours_hasRoom _)
  have hcalls₁ := Calls.call .start hrun₁
  have hread₁ := ((hstep [] _ .start (by simp)).1 _ _ hrun₁).file u.hintName (by decide)
  have hthere₁ : d₁.read? (neighbours.fileAt u.hintName) ≠ none := by
    rw [hread₁]
    decide
  have hlost := hcalls₁.lose hthere₁
  obtain ⟨report₂, d₂, hrun₂⟩ := (hstep _ _ hlost (by simp)).2.2 (neighbours_hasRoom _)
  have hread₂ := ((hstep _ _ hlost (by simp)).1 _ _ hrun₂).file u.hintName (by decide)
  have hcalls₂ := hlost.call hrun₂
  obtain ⟨report₃, d₃, hrun₃⟩ := (hstep _ _ hcalls₂ (by simp)).2.2 (neighbours_hasRoom _)
  have hquiet := (hstep _ _ hcalls₂ (by simp)).2.1 rfl (by simp)
    (fun v hv => by
      rw [hunits v hv, hread₂]
      decide) _ _ hrun₃
  exact ⟨d₁, d₂, d₃, report₁, report₂, report₃, hrun₁, hrun₂, hrun₃, hread₂, hquiet.1⟩

/-! ## A cache around the directory -/

/-- The directory of generated files lies inside that of the cache, and it is not one that the cache makes
for itself. The path of the cache takes no steps back. -/
structure IsEnclosed (p : OutputPlan) : Prop where
  plain : Location.IsPlain p.cachePath.parts
  inside : p.cache.home <+: p.outDirectory
  ne_home : p.outDirectory ≠ p.cache.home
  ne_units : p.outDirectory ≠ p.cache.unitsAt

theorem IsEnclosed.exists_way (h : p.IsEnclosed) :
    ∃ way ≠ [], p.outDirectory = p.cache.home ++ way := by
  obtain ⟨way, hway⟩ := h.inside
  refine ⟨way, ?_, hway.symm⟩
  rintro rfl
  exact h.ne_home (by simpa using hway.symm)

theorem IsEnclosed.isThere (h : p.IsEnclosed) (hd : d.IsTree) (hhome : d.entry? p.cache.home ≠ none) :
    d.isThere p.cachePath = true := by
  have hplace : p.cache.home = p.cachePath.parts := Location.foldl_step_of_plain h.plain []
  have hreach : d.reach? p.cachePath = some p.cachePath.parts :=
    hd.follow?_of_plain h.plain (by rwa [List.nil_append, ← hplace])
  exact (Disk.isThere_iff hreach).mpr (hplace ▸ hhome)

theorem IsEnclosed.not_mem_stops (h : p.IsEnclosed) : p.outDirectory ∉ p.cache.unitsPath.stops := by
  intro hmem
  have hnames : ∀ part ∈ p.cache.unitsPath.parts, Location.isDots part = false := by
    intro part hpart
    rw [Cache.parts_unitsPath, List.mem_append, List.mem_singleton] at hpart
    rcases hpart with hpart | rfl
    · exact h.plain.names part hpart
    · exact Cache.isFileName_unitsName.isDots_eq
  have habove := prefix_of_mem_stops hnames hmem
  have hplace : [] ++ p.cache.unitsPath.parts = p.cache.home ++ [Cache.unitsName] :=
    (Location.foldl_step_of_names hnames []).symm.trans Cache.place_unitsPath
  rw [hplace, List.prefix_concat_iff] at habove
  rcases habove with heq | habove
  · exact h.ne_units heq
  · exact h.ne_home (habove.eq_of_length_le h.inside.length_le)

section

variable (hp : p.IsProper) (h : p.IsEnclosed) (hd : d.IsTree)
  (hcache : ∀ way ≠ [], d.entry? (p.cache.home ++ way) = none)

include hp h hd hcache

theorem prepare_ends_of_enclosed :
    p.prepare.Ends d (fun _ d₁ => p.Ready d₁ ∧ d₁.entry? p.outDirectory ≠ some .directory)
      (fun d' => ∀ n, d'.read? (p.fileAt n) = none) := by
  obtain ⟨way, hway, hout⟩ := h.exists_way
  have hfiles : ∀ {S : Location → Prop} {d' : Disk}, Within S d d' →
      ∀ n, d'.read? (p.fileAt n) = none := by
    intro S d' hwithin n
    by_contra hread
    obtain ⟨content, hcontent⟩ := Option.ne_none_iff_exists'.mp hread
    have hfile := Disk.read?_eq_some.mp (hwithin.read? hcontent)
    rw [fileAt, hout, List.append_assoc, hcache _ (by simp)] at hfile
    cases hfile
  have hmake := Disk.makeDirectories_ends (isProper_ofLocation hp.out) hd
  refine (hmake.mono (fun _ _ h => h) fun _ h => hfiles h.2.1.within).bind ?_
  rintro _ d₁ ⟨hd₁, hgrow, -⟩
  refine DiskAction.ends_get_bind ?_
  -- there is no manifest
  have hinvalid : ¬ (p.incremental && p.cache.isValid d₁) = true := by
    intro hvalid
    obtain ⟨-, hagrees⟩ := (Cache.isValid_iff rfl).mp (Bool.and_eq_true_iff.mp hvalid).2
    obtain ⟨content, hcontent⟩ := (hagrees.congr (hgrow.readText?_eq _).symm).exists_file
    rw [Cache.manifestAt, hcache _ (by simp)] at hcontent
    cases hcontent
  rw [if_neg hinvalid]
  refine DiskAction.Ends.discard ((Cache.rebuild_ends (c := p.cache) hp.cache hd₁).mono ?_ ?_)
  · rintro _ _ ⟨hd', hmade, d₂, hgrow', rfl⟩
    have hput : ∀ q, Disk.entry? (d₂.put p.manifestAt (.file (Utf8.encode p.cache.manifest.text))) q =
        if q = p.manifestAt then some (.file (Utf8.encode p.cache.manifest.text)) else d₂.entry? q :=
      Disk.entry?_put manifestAt_ne_nil _
    refine ⟨⟨hd', hmade, Cache.agrees_of_text rfl ((hput _).trans (if_pos rfl))⟩, fun hdir => ?_⟩
    have hgone := Cache.entry?_wiped (c := p.cache) hd₁ (h.isThere hd₁) hway
    rw [← hout, ← hgrow'.entry?_eq_of_not h.not_mem_stops] at hgone
    have hentry := (hput p.outDirectory).symm.trans hdir
    split_ifs at hentry
    · cases hentry
    · rw [hgone] at hentry
      cases hentry
  · rintro d' ⟨-, hwithin, -⟩
    exact hfiles ((hgrow.within.mono fun _ _ => trivial).trans (hwithin.mono fun _ _ => trivial))

/-- **A cache around the directory of generated files is in the way.** The first call makes the directory
and takes it away with the old cache. It does not come to its end, and writes no unit. -/
theorem writeUnits_enclosed {u : GeneratedUnit} (hu : IsHintName u.hintName) :
    ∃ fault d', (p.writeUnits (u :: units)).run d = .error fault d' ∧
      ∀ n, d'.read? (p.fileAt n) = none := by
  refine DiskAction.Ends.exists_error ?_
  rw [writeUnits_eq]
  refine (prepare_ends_of_enclosed hp h hd hcache).bind ?_
  rintro _ d₁ ⟨hready, hout⟩
  have hnone : ∀ n, d₁.entry? (p.fileAt n) = none := by
    intro n
    by_contra hfile
    exact hout (hready.tree _ _ hfile).2
  have hfirst : (p.writeUnit u).Ends d₁ (fun _ _ => False) (fun d' => ∀ n, d'.read? (p.fileAt n) = none) := by
    refine (writeUnit_ends hp.out hready hu).mono ?_ ?_
    · rintro _ d' (⟨hcached, -⟩ | ⟨hplace, -⟩)
      · exact hcached.1 (hnone _)
      · exact hout hplace.out
    · rintro d' ⟨-, rfl | ⟨hdir, -⟩⟩ n
      · rw [Disk.read?, hnone]
      · exact absurd hdir hout
  rw [finish, List.mapM_cons, bind_assoc]
  exact hfirst.bind fun _ _ => False.elim

end

/-- A directory of generated files inside that of a cache. -/
def enclosed : OutputPlan := ⟨["build", "gen"], ⟨"/", ["build"]⟩, true⟩

theorem enclosed_isEnclosed : enclosed.IsEnclosed where
  plain := by decide
  inside := by decide
  ne_home := by decide
  ne_units := by decide

theorem enclosed_isProper : enclosed.IsProper where
  out := by decide
  cache := by decide

/-- **A call does not always leave its units.** -/
theorem enclosed_not_in_step : ¬ ∀ units, (∀ u ∈ units, IsHintName u.hintName) →
    enclosed.InStep Disk.empty units ((enclosed.writeUnits units).disk Disk.empty) := by
  intro h
  let u : GeneratedUnit := ⟨"A", "A.generated", "class A\n"⟩
  have hu : IsHintName u.hintName := by decide
  have htree : Disk.empty.IsTree := fun place name h => absurd (entry?_empty (by simp)) h
  have hcache : ∀ way ≠ [], Disk.empty.entry? (enclosed.cache.home ++ way) = none := fun way hway =>
    entry?_empty (by simp [hway])
  obtain ⟨fault, d', hrun, hnone⟩ :=
    @writeUnits_enclosed enclosed Disk.empty [] enclosed_isProper enclosed_isEnclosed htree hcache u hu
  have hfile := (h [u] (by simpa using hu)).file u.hintName (by decide)
  rw [DiskAction.disk, hrun] at hfile
  cases (hnone u.hintName).symm.trans hfile

end OutputPlan

end Facade
