import Mathlib.Data.List.Sort
import Mathlib.Data.String.Basic
import Facade.Cache.Basic
import Facade.Proofs.Cache.Manifest
import Facade.Proofs.Disk.Actions

/-!
# What a cache keeps

Where a cache keeps its files, when it is in use, and what its actions do there.

* `Cache.home`, `Cache.manifestAt`, `Cache.fingerprintAt`: the places of a cache;
* `Cache.IsMade`: its directories are there; `Cache.Agrees`: its manifest is that of the cache;
* `Cache.Agrees.outDirectory_eq`: a manifest agrees for one directory only;
* `Cache.IsMade.storeFingerprint_ends`, `Cache.IsMade.forgetUnit_ends`, `Cache.IsMade.mem_unitNames`:
  fingerprints of units;
* `Cache.rebuild_ends`: a new start.
-/

namespace Facade

/-- The name may be that of a unit: with an ending it is the name of a file. -/
structure IsHintName (name : String) : Prop where
  slash : '/' ∉ name.toList
  null : '\x00' ∉ name.toList

instance (name : String) : Decidable (IsHintName name) :=
  decidable_of_iff ('/' ∉ name.toList ∧ '\x00' ∉ name.toList)
    ⟨fun ⟨hslash, hnull⟩ => ⟨hslash, hnull⟩, fun h => ⟨h.slash, h.null⟩⟩

theorem IsHintName.isFileName {name ending : String} (h : IsHintName name)
    (hending : IsHintName ending) (hlength : 2 < ending.length) : IsFileName (name ++ ending) := by
  have hlong : ∀ short : String, short.length ≤ 2 → name ++ ending ≠ short := fun _ =>
    append_ne_of_length hlength
  refine ⟨?_, ?_, hlong _ (by decide), hlong _ (by decide), hlong _ (by decide)⟩
  · simp [h.slash, hending.slash]
  · simp [h.null, hending.null]

/-! ## Texts of places -/

namespace Location

theorem text_injective {place other : Location} (h : place.IsPlain) (h' : other.IsPlain)
    (htext : place.text = other.text) : place = other := by
  have hlist : ['/'].intercalate (place.map String.toList) =
      ['/'].intercalate (other.map String.toList) := by
    have := congrArg String.toList htext
    simpa [text, String.toList_intercalate] using this
  have hslash : ∀ q : Location, q.IsPlain → ∀ l ∈ q.map String.toList, '/' ∉ l := by
    intro q hq l hl
    obtain ⟨name, hname, rfl⟩ := List.mem_map.mp hl
    exact (hq name hname).slash
  have hempty : ∀ q : Location, q.IsPlain → ['/'].intercalate (q.map String.toList) = [] → q = [] := by
    intro q hq hnil
    cases q with
    | nil => rfl
    | cons name q =>
      exfalso
      have hname := (hq name List.mem_cons_self).ne_empty
      cases q with
      | nil => exact hname (by simpa [List.intercalate] using hnil)
      | cons next q => simp [List.intercalate] at hnil
  by_cases hp : place = []
  · rw [hp] at hlist ⊢
    exact (hempty other h' hlist.symm).symm
  by_cases ho : other = []
  · rw [ho] at hlist
    exact absurd (hempty place h hlist) hp
  have hsplit := congrArg (List.splitOn '/') hlist
  rw [List.splitOn_intercalate _ (hslash place h) (by simpa using hp),
    List.splitOn_intercalate _ (hslash other h') (by simpa using ho)] at hsplit
  exact List.map_injective_iff.mpr (fun _ _ h => String.toList_inj.mp h) hsplit

end Location

namespace Cache

variable (c : Cache)

/-! ## Places -/

/-- The place of the directory of the cache. -/
def home : Location := c.path.place

/-- The place of the manifest. -/
def manifestAt : Location := c.home ++ [manifestName]

/-- The place of the fingerprints. -/
def unitsAt : Location := c.home ++ [unitsName]

/-- The place of the fingerprint of a unit. -/
def fingerprintAt (hintName : String) : Location :=
  c.unitsAt ++ [hintName ++ fingerprintEnding]

variable {c} {d d' : Disk} {hintName : String}

theorem isFileName_manifestName : IsFileName manifestName := by decide

theorem isFileName_unitsName : IsFileName unitsName := by decide

theorem isFileName_fingerprint (h : IsHintName hintName) :
    IsFileName (hintName ++ fingerprintEnding) :=
  h.isFileName (by decide) (by decide)

theorem parts_unitsPath : c.unitsPath.parts = c.path.parts ++ [unitsName] :=
  Path.parts_child isFileName_unitsName c.path

theorem place_unitsPath : c.unitsPath.place = c.unitsAt :=
  Path.place_child isFileName_unitsName c.path

theorem isProper_unitsPath (h : c.path.IsProper) : c.unitsPath.IsProper := by
  intro part hpart
  rw [parts_unitsPath, List.mem_append, List.mem_singleton] at hpart
  rcases hpart with hpart | rfl
  · exact h part hpart
  · exact .inr isFileName_unitsName

theorem stops_unitsPath : c.unitsPath.stops = c.path.stops ++ [c.unitsAt] :=
  Path.stops_of_parts parts_unitsPath isFileName_unitsName.isDots_eq

/-! ## Caches in use -/

variable (c) in
/-- The directories of the cache, and those on the way to them, are on the disk. -/
def IsMade (d : Disk) : Prop := ∀ stop ∈ c.unitsPath.stops, d.entry? stop = some .directory

variable (c) in
/-- The manifest on the disk is that of the cache. -/
def Agrees (d : Disk) : Prop :=
  ∃ text j, d.readText? c.manifestAt = some text ∧ Json.parse text = some j ∧
    c.manifest.agrees j = true

theorem IsMade.mono (h : c.IsMade d)
    (hdirs : ∀ q, d.entry? q = some .directory → d'.entry? q = some .directory) : c.IsMade d' :=
  fun stop hstop => hdirs stop (h stop hstop)

theorem Agrees.exists_file (h : c.Agrees d) :
    ∃ content, d.entry? c.manifestAt = some (.file content) := by
  obtain ⟨text, -, htext, -⟩ := h
  exact Disk.exists_file_of_readText? htext

theorem Agrees.congr (h : c.Agrees d) (hd : d'.readText? c.manifestAt = d.readText? c.manifestAt) :
    c.Agrees d' := by rwa [Agrees, hd]

theorem Agrees.of_within {S : Location → Prop} (hwithin : Disk.Within S d d') (h : c.Agrees d') :
    c.Agrees d := by
  obtain ⟨text, j, htext, hparse, hagrees⟩ := h
  exact ⟨text, j, hwithin.readText? htext, hparse, hagrees⟩

theorem agrees_null (m : Manifest) : m.agrees .null = false := rfl

theorem storedManifest?_eq_some {j : Json} :
    c.storedManifest? d = some j ↔ j.isNull = false ∧ d.reach? c.manifestPath = some c.manifestAt ∧
      ∃ text, d.readText? c.manifestAt = some text ∧ Json.parse text = some j := by
  have hplace : c.manifestPath.place = c.manifestAt := Path.place_child isFileName_manifestName _
  simp only [storedManifest?, Option.filter_eq_some_iff, Option.bind_eq_some_iff, Disk.textAt?,
    Bool.not_eq_true']
  constructor
  · rintro ⟨⟨text, ⟨place, hreach, htext⟩, hparse⟩, hnull⟩
    obtain rfl : place = c.manifestAt := (Disk.reach?_eq_some hreach).trans hplace
    exact ⟨hnull, hreach, text, htext, hparse⟩
  · rintro ⟨hnull, hreach, text, htext, hparse⟩
    exact ⟨⟨text, ⟨_, hreach, htext⟩, hparse⟩, hnull⟩

theorem isValid_iff (hc : c.remembered = none) :
    c.isValid d = true ↔ d.reach? c.manifestPath = some c.manifestAt ∧ c.Agrees d := by
  have hstored : c.manifest? d = c.storedManifest? d := by simp [manifest?, hc]
  rw [isValid, hstored]
  constructor
  · intro h
    split at h
    · next j hj =>
      obtain ⟨-, hreach, text, htext, hparse⟩ := storedManifest?_eq_some.mp hj
      exact ⟨hreach, text, j, htext, hparse, h⟩
    · cases h
  · rintro ⟨hreach, text, j, htext, hparse, hagrees⟩
    have hnull : j.isNull = false := by
      cases j <;> first | rfl | (rw [agrees_null] at hagrees; cases hagrees)
    rw [storedManifest?_eq_some.mpr ⟨hnull, hreach, text, htext, hparse⟩]
    exact hagrees

theorem isThere_of_reach? {place : Location} (h : d.reach? c.manifestPath = some place)
    (hhome : d.entry? c.home ≠ none) : d.isThere c.path = true := by
  have hparts : c.manifestPath.parts = c.path.parts ++ [manifestName] :=
    Path.parts_child isFileName_manifestName _
  cases hpath : d.reach? c.path with
  | none =>
    rw [Disk.reach?_of_parts_eq_none hparts hpath] at h
    cases h
  | some q =>
    obtain rfl := Disk.reach?_eq_some hpath
    exact Disk.isThere_iff_exists.mpr ⟨hpath, hhome⟩

theorem IsMade.directory_home (h : c.IsMade d) : d.entry? c.home = some .directory := by
  have hstops : ∀ stop ∈ c.path.stops, d.entry? stop = some .directory := fun stop hstop =>
    h stop (by rw [stops_unitsPath]; exact List.mem_append_left _ hstop)
  rcases Path.place_mem_stops (p := c.path) with hroot | hmem
  · rw [home, hroot, Disk.entry?_nil]
  · exact hstops _ hmem

theorem IsMade.directory_unitsAt (h : c.IsMade d) : d.entry? c.unitsAt = some .directory :=
  h _ (by rw [stops_unitsPath]; exact List.mem_append_right _ List.mem_cons_self)

theorem IsMade.reach?_path (h : c.IsMade d) : d.reach? c.path = some c.home :=
  Disk.reach?_of_stops fun stop hstop =>
    h stop (by rw [stops_unitsPath]; exact List.mem_append_left _ hstop)

theorem IsMade.reach?_unitsPath (h : c.IsMade d) : d.reach? c.unitsPath = some c.unitsAt := by
  rw [← place_unitsPath]
  exact Disk.reach?_of_stops h

theorem IsMade.reach?_manifestPath (h : c.IsMade d) :
    d.reach? c.manifestPath = some c.manifestAt := by
  have hparts : c.manifestPath.parts = c.path.parts ++ [manifestName] :=
    Path.parts_child isFileName_manifestName _
  rw [Disk.reach?_of_parts hparts isFileName_manifestName.isDots_eq h.reach?_path,
    if_pos h.directory_home]
  rfl

theorem IsMade.isValid (h : c.IsMade d) (hc : c.remembered = none) (hagrees : c.Agrees d) :
    c.isValid d = true := (isValid_iff hc).mpr ⟨h.reach?_manifestPath, hagrees⟩

theorem agrees_of_text {out : Location} (hout : c.outDirectory = some out)
    (h : d.entry? c.manifestAt = some (.file (Utf8.encode c.manifest.text))) : c.Agrees d := by
  have hmanifest : c.manifest = ⟨version, some out.text⟩ := by rw [manifest, hout]; rfl
  have hparse := Manifest.parse_text version out.text
  refine ⟨c.manifest.text, _, ?_, hmanifest ▸ hparse, ?_⟩
  · exact Disk.readText?_of_encode h (Manifest.carriageReturn_not_mem_text _)
  · rw [hmanifest]
    exact (Manifest.agrees_of_parse_text hparse _).mpr rfl

/-- A manifest agrees for one directory only. -/
theorem Agrees.outDirectory_eq {c' : Cache} (hhome : c.home = c'.home) {out out' : Location}
    (hout : c.outDirectory = some out) (hout' : c'.outDirectory = some out') (hplain : out.IsPlain)
    (hplain' : out'.IsPlain) (h : c.Agrees d) (h' : c'.Agrees d) : out = out' := by
  obtain ⟨text, j, htext, hparse, hagrees⟩ := h
  obtain ⟨text', j', htext', hparse', hagrees'⟩ := h'
  rw [manifestAt, ← hhome, ← manifestAt, htext, Option.some.injEq] at htext'
  rw [← htext', hparse, Option.some.injEq] at hparse'
  rw [← hparse'] at hagrees'
  simp only [Manifest.agrees, manifest, hout, hout', Option.map_some, Bool.and_eq_true] at hagrees hagrees'
  have hstring : ∀ (k : Json) (s t : String), k.isString s = true → k.isString t = true → s = t := by
    intro k s t hs ht
    cases k <;> simp [Json.isString] at hs ht
    exact Json.codeUnits_injective (hs.symm.trans ht)
  exact Location.text_injective hplain hplain' (hstring _ _ _ hagrees.2 hagrees'.2)

/-! ## Fingerprints -/

theorem parts_fingerprintPath (hn : IsHintName hintName) :
    (c.fingerprintPath hintName).parts = c.unitsPath.parts ++ [hintName ++ fingerprintEnding] :=
  Path.parts_child (isFileName_fingerprint hn) _

theorem IsMade.reach?_fingerprintPath (h : c.IsMade d) (hn : IsHintName hintName) :
    d.reach? (c.fingerprintPath hintName) = some (c.fingerprintAt hintName) := by
  rw [Disk.reach?_of_parts (parts_fingerprintPath hn) (isFileName_fingerprint hn).isDots_eq
    h.reach?_unitsPath, if_pos h.directory_unitsAt]
  rfl

theorem IsMade.fingerprint?_eq (h : c.IsMade d) (hn : IsHintName hintName) :
    c.fingerprint? d hintName = (d.readText? (c.fingerprintAt hintName)).map Text.trimBlanks := by
  rw [fingerprint?, Disk.textAt?, h.reach?_fingerprintPath hn]
  rfl

theorem IsMade.storeFingerprint_ends (h : c.IsMade d) (hn : IsHintName hintName)
    (fingerprint : String) :
    (c.storeFingerprint hintName fingerprint).Ends d
      (fun _ d' => d' = d.put (c.fingerprintAt hintName) (.file (Utf8.encode fingerprint)) ∧
        d.entry? (c.fingerprintAt hintName) ≠ some .directory)
      (fun d' => d' = d ∧ d.entry? (c.fingerprintAt hintName) = some .directory) := by
  have hparent : (c.fingerprintPath hintName).parent.stops = c.unitsPath.stops := by
    rw [Path.stops, Path.stops, fingerprintPath, Path.parent_child (isFileName_fingerprint hn)]
  have hwrite := Disk.write_ends (h.reach?_fingerprintPath hn) (Utf8.encode fingerprint)
  unfold DiskAction.Ends at hwrite ⊢
  rw [storeFingerprint, Disk.writeWithParents, EStateM.run_bind,
    Disk.makeDirectories_eq fun stop hstop => h stop (hparent ▸ hstop)]
  exact hwrite

theorem IsMade.forgetUnit_ends (h : c.IsMade d) (hn : IsHintName hintName) :
    (c.forgetUnit hintName).Ends d
      (fun _ d' => Disk.Without (c.fingerprintAt hintName) d d' ∧
        d.entry? (c.fingerprintAt hintName) ≠ some .directory)
      (fun d' => d' = d ∧ d.entry? (c.fingerprintAt hintName) = some .directory) := by
  have hreach := h.reach?_fingerprintPath hn
  refine DiskAction.ends_get_bind ?_
  split_ifs with hthere
  · exact Disk.removeFile_ends hreach ((Disk.isThere_iff hreach).mp hthere)
  · have hnone : d.entry? (c.fingerprintAt hintName) = none := by
      by_contra hne
      exact hthere ((Disk.isThere_iff hreach).mpr hne)
    exact ⟨Disk.without_of_none hnone, by rw [hnone]; simp⟩

theorem withoutEnding?_eq_some {ending name rest : String} :
    withoutEnding? ending name = some rest ↔ name = rest ++ ending := by
  unfold withoutEnding?
  constructor
  · intro h
    split_ifs at h with hsuffix
    obtain ⟨before, hbefore⟩ := List.isSuffixOf_iff_suffix.mp hsuffix
    cases h
    rw [← String.toList_inj, String.toList_append, String.toList_ofList, ← hbefore]
    congr 1
    rw [← String.length_toList, ← hbefore, List.length_append, ← String.length_toList,
      Nat.add_sub_cancel, List.take_left]
  · rintro rfl
    rw [if_pos (List.isSuffixOf_iff_suffix.mpr ⟨rest.toList, (String.toList_append).symm⟩)]
    rw [String.toList_append, String.length_append, Nat.add_sub_cancel, ← String.length_toList,
      List.take_left, String.ofList_toList]

theorem IsMade.mem_unitNames (h : c.IsMade d) {n : String} :
    n ∈ c.unitNames d ↔ d.entry? (c.fingerprintAt n) ≠ none := by
  simp only [unitNames, List.mem_mergeSort, List.mem_filterMap, Disk.namesAt, h.reach?_unitsPath,
    Option.map_some, Option.getD_some, Disk.mem_names, withoutEnding?_eq_some]
  constructor
  · rintro ⟨name, hname, rfl⟩
    exact hname
  · intro hn
    exact ⟨_, hn, rfl⟩

theorem unitNames_eq_insertionSort (d : Disk) : c.unitNames d =
    ((d.namesAt c.unitsPath).filterMap (withoutEnding? fingerprintEnding)).insertionSort (· ≤ ·) :=
  List.mergeSort_eq_insertionSort (· ≤ · : String → String → Prop) _

theorem isHintName_of_entry? (hd : d.IsTree) (h : d.entry? (c.fingerprintAt hintName) ≠ none) :
    IsHintName hintName := by
  obtain ⟨hname, -⟩ := hd _ _ h
  have hslash := hname.slash
  have hnull := hname.null
  simp only [String.toList_append, List.mem_append, not_or] at hslash hnull
  exact ⟨hslash.1, hnull.1⟩

/-! ## A new start -/

variable (c) in
/-- The disk after the cache was wiped. -/
def wiped (d : Disk) : Disk := if d.isThere c.path then d.eraseTree c.home else d

theorem within_wiped (S : Location → Prop) (d : Disk) : Disk.Within S d (c.wiped d) := by
  unfold wiped
  split_ifs
  · exact .of_eraseTree S _
  · exact .refl S d

theorem isTree_wiped (hd : d.IsTree) : (c.wiped d).IsTree := by
  unfold wiped
  split_ifs
  · exact hd.eraseTree _
  · exact hd

theorem entry?_wiped (hd : d.IsTree) (hpath : d.entry? c.home ≠ none → d.isThere c.path = true)
    {way : List String} (hway : way ≠ []) : Disk.entry? (c.wiped d) (c.home ++ way) = none := by
  unfold wiped
  split_ifs with hthere
  · rw [Disk.entry?_eraseTree, if_pos ⟨List.prefix_append _ _, by simp [hway]⟩]
  · by_contra h
    have hhome := hd.above hway h
    exact hthere (hpath (by rw [hhome]; simp))

theorem entry?_wiped_of_not_prefix {q : Location} (hq : ¬ c.home <+: q) :
    Disk.entry? (c.wiped d) q = d.entry? q := by
  unfold wiped
  split_ifs
  · rw [Disk.entry?_eraseTree, if_neg fun h => hq h.1]
  · rfl

theorem wipe_ends :
    (c.wipe).Ends d (fun c' d' => c' = { c with remembered := none } ∧ d' = c.wiped d)
      (fun d' => d' = d ∧ (d.read? c.home).isSome = true ∨
        d' = d.eraseBelow c.home ∧ c.path.endsInName = false) := by
  refine DiskAction.ends_get_bind ?_
  unfold wiped
  split_ifs with hthere
  · obtain ⟨hreach, hentry⟩ := Disk.isThere_iff_exists.mp hthere
    refine ((Disk.removeTree_ends hreach hentry).mono (fun _ _ h => h) fun _ h => h).bind ?_
    rintro _ d' ⟨rfl, -⟩
    exact ⟨rfl, rfl⟩
  · exact ⟨rfl, rfl⟩

/-- A cache that begins anew has its directories and its manifest. If it does not come to that, a file
or a directory is in the way, or the old cache cannot be removed. -/
theorem rebuild_ends (hpath : c.path.IsProper) (hd : d.IsTree) :
    (c.rebuild).Ends d
      (fun _ d' => d'.IsTree ∧ c.IsMade d' ∧ ∃ d₁, Disk.Grows (· ∈ c.unitsPath.stops) (c.wiped d) d₁ ∧
        d' = d₁.put c.manifestAt (.file (Utf8.encode c.manifest.text)))
      (fun d' => d'.IsTree ∧ Disk.Within (· ∈ c.unitsPath.stops) d d' ∧
        ((∃ stop ∈ c.unitsPath.stops, (d.read? stop).isSome = true) ∨
          c.manifestAt ∈ c.unitsPath.stops ∨ d.entry? c.manifestAt = some .directory ∨
          c.path.endsInName = false)) := by
  have hstop : ∀ d₁ : Disk, (d₁.read? c.home).isSome = true → c.home ∈ c.unitsPath.stops := by
    intro d₁ hfile
    rw [stops_unitsPath]
    rcases Path.place_mem_stops (p := c.path) with hroot | hmem
    · rw [home, hroot] at hfile
      simp [Disk.read?] at hfile
    · exact List.mem_append_left _ hmem
  refine (wipe_ends.mono (fun _ _ h => h) ?_).bind ?_
  · rintro _ (⟨rfl, hfile⟩ | ⟨rfl, hunnamed⟩)
    · exact ⟨hd, .refl _ _, .inl ⟨_, hstop _ hfile, hfile⟩⟩
    · exact ⟨hd.eraseBelow _, .of_eraseBelow _ _, .inr (.inr (.inr hunnamed))⟩
  rintro _ _ ⟨rfl, rfl⟩
  have hwithin := within_wiped (c := c) (· ∈ c.unitsPath.stops) d
  have hmake := Disk.makeDirectories_ends (isProper_unitsPath hpath) (isTree_wiped (c := c) hd)
  refine (hmake.mono (fun _ _ h => h) ?_).bind ?_
  · rintro d' ⟨hd', hgrow, stop, hmem, hfile⟩
    refine ⟨hd', hwithin.trans hgrow.within, .inl ⟨stop, hmem, ?_⟩⟩
    obtain ⟨content, hcontent⟩ := Option.isSome_iff_exists.mp hfile
    rw [hwithin.read? hcontent]
    rfl
  rintro _ d₁ ⟨hd₁, hgrow, hstops⟩
  have hmade : c.IsMade d₁ := hstops
  refine ((Disk.write_ends hmade.reach?_manifestPath _).mono (fun _ _ h => h) ?_).bind ?_
  · rintro _ ⟨rfl, hdir⟩
    refine ⟨hd₁, hwithin.trans hgrow.within, .inr ?_⟩
    rcases hwithin.trans hgrow.within c.manifestAt with h | h | ⟨h, -⟩
    · exact .inr (.inl (h ▸ hdir))
    · rw [h] at hdir
      cases hdir
    · exact .inl h
  rintro _ _ ⟨rfl, hdir⟩
  have hdirs : ∀ q, d₁.entry? q = some .directory →
      Disk.entry? (d₁.put c.manifestAt (.file (Utf8.encode c.manifest.text))) q = some .directory := by
    intro q hq
    rw [Disk.entry?_put (by simp [manifestAt]), if_neg (by rintro rfl; exact hdir hq)]
    exact hq
  exact ⟨hd₁.put_file isFileName_manifestName hmade.directory_home hdir, hmade.mono hdirs, d₁,
    hgrow, rfl⟩

end Cache

end Facade
