import Mathlib.Tactic.Common
import Mathlib.Data.List.Infix
import Facade.Disk.Basic
import Facade.Proofs.Text.Encoding
import Facade.Proofs.Text.Splitting

/-!
# What is where on a disk

Every action on a disk is known by what it makes of the entries, and every path by the places that it
goes through.

* `IsFileName`, `Location.IsPlain`: what may be the name of an entry; places of such names;
* `Location.stops`: the places on the way of a path;
* `Disk.entry?_put`, `Disk.entry?_erase`, `Disk.entry?_eraseTree`, `Disk.entry?_eraseBelow`: what the
  changes of a disk do;
* `Disk.IsTree`: everything has a name and is in a directory;
* `Path.place`, `Disk.reach?_eq_some`, `Disk.IsTree.reach?_ofLocation`: where paths lead.
-/

namespace Facade

/-- The name may be that of an entry of a directory. -/
structure IsFileName (name : String) : Prop where
  slash : '/' ∉ name.toList
  null : '\x00' ∉ name.toList
  ne_empty : name ≠ ""
  ne_dot : name ≠ "."
  ne_dots : name ≠ ".."

instance (name : String) : Decidable (IsFileName name) :=
  decidable_of_iff ('/' ∉ name.toList ∧ '\x00' ∉ name.toList ∧ name ≠ "" ∧ name ≠ "." ∧ name ≠ "..")
    ⟨fun ⟨hslash, hnull, hempty, hdot, hdots⟩ => ⟨hslash, hnull, hempty, hdot, hdots⟩,
      fun h => ⟨h.slash, h.null, h.ne_empty, h.ne_dot, h.ne_dots⟩⟩

theorem IsFileName.isDots_eq {name : String} (h : IsFileName name) : Location.isDots name = false := by
  simp [Location.isDots, h.ne_dot, h.ne_dots]

theorem append_ne_of_length {name ending short : String} (hlength : 2 < ending.length)
    (hshort : short.length ≤ 2) : name ++ ending ≠ short := by
  rintro rfl
  rw [String.length_append] at hshort
  omega

theorem isDots_append {name ending : String} (hlength : 2 < ending.length) :
    Location.isDots (name ++ ending) = false := by
  simp only [Location.isDots, Bool.or_eq_false_iff, beq_eq_false_iff_ne]
  exact ⟨append_ne_of_length hlength (by decide), append_ne_of_length hlength (by decide)⟩

namespace Location

/-- The places that the parts of a path lead to from a place, one after the other. -/
def stops (place : Location) : List String → List Location
  | [] => []
  | part :: rest => step place part :: stops (step place part) rest

/-- Every name on the way may be that of an entry; none of them leads back. -/
def IsPlain (place : Location) : Prop := ∀ name ∈ place, IsFileName name

instance (place : Location) : Decidable place.IsPlain :=
  inferInstanceAs (Decidable (∀ name ∈ place, IsFileName name))

theorem isDots_iff {part : String} : isDots part = true ↔ part = "." ∨ part = ".." := by
  simp [isDots]

theorem step_of_name {place : Location} {part : String} (h : isDots part = false) :
    step place part = place ++ [part] := by
  simp only [isDots, Bool.or_eq_false_iff, beq_eq_false_iff_ne] at h
  rw [step, if_neg h.1, if_neg h.2]

/-- A part made of dots leads to the place itself or to one above it. -/
theorem step_of_dots {place : Location} {part : String} (h : isDots part = true) :
    step place part <+: place := by
  rcases isDots_iff.mp h with rfl | rfl
  · exact List.prefix_rfl
  · exact List.dropLast_prefix place

theorem foldl_step_of_names {parts : List String} (h : ∀ part ∈ parts, isDots part = false)
    (place : Location) : parts.foldl step place = place ++ parts := by
  induction parts generalizing place with
  | nil => simp
  | cons part parts ih =>
    rw [List.foldl_cons, step_of_name (h part List.mem_cons_self),
      ih fun q hq => h q (List.mem_cons_of_mem _ hq), List.append_assoc]
    rfl

theorem IsPlain.names {parts : List String} (h : IsPlain parts) :
    ∀ part ∈ parts, isDots part = false := fun part hpart => (h part hpart).isDots_eq

theorem foldl_step_of_plain {parts : List String} (h : IsPlain parts) (place : Location) :
    parts.foldl step place = place ++ parts := foldl_step_of_names h.names place

theorem of_mem_foldl_step {P : String → Prop} {place : Location} (h : ∀ name ∈ place, P name)
    {parts : List String} (hparts : ∀ part ∈ parts, isDots part = true ∨ P part) :
    ∀ name ∈ parts.foldl step place, P name := by
  induction parts generalizing place with
  | nil => exact h
  | cons part parts ih =>
    refine ih (fun name hname => ?_) fun q hq => hparts q (List.mem_cons_of_mem _ hq)
    cases hpart : isDots part with
    | true => exact h name ((step_of_dots hpart).subset hname)
    | false =>
      rw [step_of_name hpart] at hname
      rcases List.mem_append.mp hname with hname | hname
      · exact h name hname
      · rw [List.mem_singleton.mp hname]
        exact (hparts part List.mem_cons_self).resolve_left (by simp [hpart])

theorem of_mem_stops {P : String → Prop} {place : Location} (h : ∀ name ∈ place, P name)
    {parts : List String} (hparts : ∀ part ∈ parts, isDots part = true ∨ P part) {stop : Location}
    (hstop : stop ∈ stops place parts) : ∀ name ∈ stop, P name := by
  induction parts generalizing place with
  | nil => cases hstop
  | cons part parts ih =>
    have hpart : ∀ q ∈ [part], isDots q = true ∨ P q := fun q hq =>
      hparts q (List.mem_singleton.mp hq ▸ List.mem_cons_self)
    have hnext : ∀ name ∈ step place part, P name := of_mem_foldl_step h hpart
    rcases List.mem_cons.mp hstop with rfl | hstop
    · exact hnext
    · exact ih hnext (fun q hq => hparts q (List.mem_cons_of_mem _ hq)) hstop

theorem isPlain_foldl_step {place : Location} (h : place.IsPlain) {parts : List String}
    (hparts : ∀ part ∈ parts, isDots part = true ∨ IsFileName part) :
    (parts.foldl step place).IsPlain :=
  of_mem_foldl_step h hparts

theorem stops_append (place : Location) (parts more : List String) :
    stops place (parts ++ more) = stops place parts ++ stops (parts.foldl step place) more := by
  induction parts generalizing place with
  | nil => rfl
  | cons part parts ih => rw [List.cons_append, stops, ih, stops, List.foldl_cons, List.cons_append]

end Location

namespace Disk

variable {d : Disk}

/-! ## What is at a place -/

@[simp] theorem entry?_nil : d.entry? [] = some .directory := by simp [Disk.entry?]

theorem find?_filter_key (entries : List (Location × Entry)) (keep : Location → Bool)
    (q : Location) :
    ((entries.filter fun f => keep f.1).find? fun f => f.1 == q) =
      if keep q then entries.find? fun f => f.1 == q else none := by
  rw [List.find?_filter]
  split_ifs with hq
  · congr 1
    funext f
    by_cases hf : f.1 = q
    · simp [hf, hq]
    · simp [hf]
  · rw [List.find?_eq_none]
    rintro f - hf
    simp only [beq_iff_eq, decide_eq_true_eq] at hf
    exact hq (hf.2 ▸ hf.1)

theorem entry?_put {place : Location} (hplace : place ≠ []) (e : Entry) (q : Location) :
    Disk.entry? (d.put place e) q = if q = place then some e else d.entry? q := by
  by_cases hq : q = []
  · rw [hq, entry?_nil, entry?_nil, if_neg (Ne.symm hplace)]
  · have hfilter := find?_filter_key d.entries (fun f => f != place) q
    simp only [Disk.entry?, put, if_neg hq, List.find?_append]
    rw [hfilter]
    by_cases h : q = place
    · simp [h]
    · simp [h, Ne.symm h]

theorem entry?_erase {place : Location} (hplace : place ≠ []) (q : Location) :
    Disk.entry? (d.erase place) q = if q = place then none else d.entry? q := by
  by_cases hq : q = []
  · rw [hq, entry?_nil, entry?_nil, if_neg (Ne.symm hplace)]
  · have hfilter := find?_filter_key d.entries (fun f => f != place) q
    simp only [Disk.entry?, erase, if_neg hq]
    rw [hfilter]
    by_cases h : q = place <;> simp [h]

theorem entry?_eraseTree (place q : Location) :
    Disk.entry? (d.eraseTree place) q = if place <+: q ∧ q ≠ [] then none else d.entry? q := by
  by_cases hq : q = []
  · rw [hq, entry?_nil, entry?_nil, if_neg (by simp)]
  · have hfilter := find?_filter_key d.entries (fun f => !place.isPrefixOf f) q
    simp only [Disk.entry?, eraseTree, if_neg hq]
    rw [hfilter]
    cases h : place.isPrefixOf q with
    | true => simp [List.isPrefixOf_iff_prefix.mp h, hq]
    | false =>
      have hnot : ¬ place <+: q := fun hp => by simp [List.isPrefixOf_iff_prefix.mpr hp] at h
      simp [hnot]

theorem entry?_eraseBelow (place q : Location) :
    Disk.entry? (d.eraseBelow place) q = if place <+: q ∧ q ≠ place then none else d.entry? q := by
  by_cases hq : q = []
  · subst hq
    rw [entry?_nil, entry?_nil, if_neg]
    rintro ⟨hp, hne⟩
    exact hne (List.prefix_nil.mp hp).symm
  · have hfilter := find?_filter_key d.entries (fun f => !place.isPrefixOf f || f == place) q
    simp only [Disk.entry?, eraseBelow, if_neg hq]
    rw [hfilter]
    by_cases hp : place <+: q
    · by_cases hne : q = place <;> simp [List.isPrefixOf_iff_prefix.mpr hp, hp, hne]
    · have hnot : place.isPrefixOf q = false := by
        rw [← Bool.not_eq_true, List.isPrefixOf_iff_prefix]
        exact hp
      simp [hnot, hp]

theorem isDirectory_iff {place : Location} :
    d.isDirectory place = true ↔ d.entry? place = some .directory := by simp [isDirectory]

theorem read?_eq_some {place : Location} {content : List UInt8} :
    d.read? place = some content ↔ d.entry? place = some (.file content) := by
  unfold read?
  split
  · next h => simp [h]
  · next h => exact ⟨fun h' => absurd h' (by simp), fun h' => absurd h' (h content)⟩

theorem read?_congr {d d' : Disk} {place : Location} (h : d'.entry? place = d.entry? place) :
    d'.read? place = d.read? place := by rw [read?, read?, h]

theorem readText?_congr {d d' : Disk} {place : Location} (h : d'.entry? place = d.entry? place) :
    d'.readText? place = d.readText? place := by rw [readText?, readText?, read?_congr h]

theorem readText?_of_encode {place : Location} {text : String}
    (h : d.entry? place = some (.file (Utf8.encode text))) (htext : '\r' ∉ text.toList) :
    d.readText? place = some text := by
  rw [readText?, read?_eq_some.mpr h]
  simp [Utf8.decode_encode, Except.toOption, Text.unifyLineEnds_of_not_mem htext]

theorem exists_file_of_readText? {place : Location} {text : String}
    (h : d.readText? place = some text) : ∃ content, d.entry? place = some (.file content) := by
  cases hread : d.read? place with
  | none => simp [readText?, hread] at h
  | some content => exact ⟨content, read?_eq_some.mp hread⟩

theorem below?_eq_some {base place : Location} {way : List String} :
    Location.below? base place = some way ↔ place = base ++ way := by
  unfold Location.below?
  constructor
  · intro h
    split_ifs at h with hp
    · cases h
      exact (List.prefix_iff_eq_append.mp (List.isPrefixOf_iff_prefix.mp hp)).symm
  · rintro rfl
    simp

theorem mem_names {place : Location} {name : String} :
    name ∈ d.names place ↔ d.entry? (place ++ [name]) ≠ none := by
  have hmem : name ∈ d.names place ↔ ∃ f ∈ d.entries, f.1 = place ++ [name] := by
    simp only [names, List.mem_filterMap]
    constructor
    · rintro ⟨f, hf, h⟩
      refine ⟨f, hf, ?_⟩
      split at h
      · next hbelow => cases h; exact below?_eq_some.mp hbelow
      · cases h
    · rintro ⟨f, hf, h⟩
      exact ⟨f, hf, by rw [below?_eq_some.mpr h]⟩
  rw [hmem, entry?, if_neg (by simp)]
  simp

/-! ## Trees -/

/-- Everything on the disk has a name and is in a directory. -/
def IsTree (d : Disk) : Prop :=
  ∀ place name, d.entry? (place ++ [name]) ≠ none →
    IsFileName name ∧ d.entry? place = some .directory

theorem mem_entries_of_eq_some {place : Location} {e : Entry} (hplace : place ≠ [])
    (h : d.entry? place = some e) : (place, e) ∈ d.entries := by
  unfold entry? at h
  rw [if_neg hplace, Option.map_eq_some_iff] at h
  obtain ⟨found, hfind, rfl⟩ := h
  obtain rfl : found.1 = place := by simpa using List.find?_some hfind
  exact List.mem_of_find?_eq_some hfind

/-- Whether a disk is a tree shows in its listed entries. -/
theorem isTree_of_entries (h : ∀ e ∈ d.entries, ∃ place name, e.1 = place ++ [name] ∧
    IsFileName name ∧ d.entry? place = some .directory) : d.IsTree := by
  intro place name hentry
  obtain ⟨e, he⟩ := Option.ne_none_iff_exists'.mp hentry
  obtain ⟨place', name', heq, hname, hdir⟩ := h _ (mem_entries_of_eq_some (by simp) he)
  obtain ⟨rfl, hsame⟩ := List.append_inj' heq rfl
  exact ⟨List.singleton_inj.mp hsame ▸ hname, hdir⟩

theorem IsTree.above (h : d.IsTree) {place way : Location} (hway : way ≠ [])
    (hplace : d.entry? (place ++ way) ≠ none) : d.entry? place = some .directory := by
  induction way using List.reverseRecOn with
  | nil => exact absurd rfl hway
  | append_singleton way name ih =>
    rw [← List.append_assoc] at hplace
    have hparent := (h _ _ hplace).2
    by_cases hnil : way = []
    · simpa [hnil] using hparent
    · exact ih hnil (by rw [hparent]; simp)

theorem IsTree.above_prefix (h : d.IsTree) {p q : Location} (hpq : p <+: q) (hne : p ≠ q)
    (hq : d.entry? q ≠ none) : d.entry? p = some .directory := by
  obtain ⟨way, rfl⟩ := hpq
  exact h.above (by rintro rfl; simp at hne) hq

theorem IsTree.isPlain (h : d.IsTree) {place : Location} (hplace : d.entry? place ≠ none) :
    place.IsPlain := by
  induction place using List.reverseRecOn with
  | nil => exact fun _ hname => absurd hname List.not_mem_nil
  | append_singleton place name ih =>
    obtain ⟨hname, hdir⟩ := h _ _ hplace
    intro m hm
    rcases List.mem_append.mp hm with hm | hm
    · exact ih (by rw [hdir]; simp) m hm
    · exact List.mem_singleton.mp hm ▸ hname

theorem IsTree.put_directory (h : d.IsTree) {place : Location} {name : String}
    (hname : IsFileName name) (hplace : d.entry? place = some .directory) :
    (d.put (place ++ [name]) .directory).IsTree := by
  intro q m hq
  rw [entry?_put (by simp)] at hq ⊢
  split_ifs at hq with heq
  · obtain ⟨rfl, hm⟩ := List.append_inj' heq rfl
    rw [if_neg (by simp)]
    exact ⟨List.singleton_inj.mp hm ▸ hname, hplace⟩
  · split_ifs
    · exact ⟨(h q m hq).1, rfl⟩
    · exact h q m hq

/-- A file in the place of nothing or of another file, in a directory. -/
theorem IsTree.put_file (h : d.IsTree) {place : Location} {name : String} {content : List UInt8}
    (hname : IsFileName name) (hplace : d.entry? place = some .directory)
    (hfile : d.entry? (place ++ [name]) ≠ some .directory) :
    (d.put (place ++ [name]) (.file content)).IsTree := by
  intro q m hq
  rw [entry?_put (by simp)] at hq ⊢
  split_ifs at hq with heq
  · obtain ⟨rfl, hm⟩ := List.append_inj' heq rfl
    rw [if_neg (by simp)]
    exact ⟨List.singleton_inj.mp hm ▸ hname, hplace⟩
  · have hdir := (h q m hq).2
    rw [if_neg (by rintro rfl; exact hfile hdir)]
    exact h q m hq

theorem IsTree.eraseTree (h : d.IsTree) (place : Location) : (d.eraseTree place).IsTree := by
  intro q m hq
  rw [entry?_eraseTree] at hq ⊢
  split_ifs at hq with hbelow
  · exact absurd rfl hq
  · rw [if_neg fun hq' => hbelow ⟨hq'.1.trans (List.prefix_append _ _), by simp⟩]
    exact h q m hq

theorem IsTree.eraseBelow (h : d.IsTree) (place : Location) : (d.eraseBelow place).IsTree := by
  intro q m hq
  rw [entry?_eraseBelow] at hq ⊢
  split_ifs at hq with hbelow
  · exact absurd rfl hq
  · rw [if_neg ?_]
    · exact h q m hq
    · rintro ⟨hp, -⟩
      refine hbelow ⟨hp.trans (List.prefix_append _ _), fun heq => ?_⟩
      have := hp.length_le
      rw [← heq, List.length_append, List.length_singleton] at this
      omega

end Disk

/-! ## Where paths lead -/

/-- The place that a path from the root leads to, by its text alone. -/
def Path.place (p : Path) : Location := p.parts.foldl Location.step []

namespace Disk

variable {d : Disk}

theorem follow?_append (place : Location) (parts more : List String) :
    d.follow? place (parts ++ more) =
      (d.follow? place parts).bind fun q => d.follow? q more := by
  induction parts generalizing place with
  | nil => rfl
  | cons part parts ih =>
    rw [List.cons_append, follow?, follow?]
    split_ifs
    · exact ih _
    · rfl

theorem follow?_eq_some {place q : Location} {parts : List String}
    (h : d.follow? place parts = some q) : q = parts.foldl Location.step place := by
  induction parts generalizing place with
  | nil => cases h; rfl
  | cons part parts ih =>
    rw [follow?] at h
    split_ifs at h
    exact ih h

/-- A path leads nowhere else than its text says. -/
theorem reach?_eq_some {p : Path} {q : Location} (h : d.reach? p = some q) : q = p.place :=
  follow?_eq_some h

theorem follow?_mono {d d' : Disk}
    (h : ∀ q, d.entry? q = some .directory → d'.entry? q = some .directory) {place q : Location}
    {parts : List String} (hq : d.follow? place parts = some q) :
    d'.follow? place parts = some q := by
  induction parts generalizing place with
  | nil => exact hq
  | cons part parts ih =>
    rw [follow?] at hq ⊢
    split_ifs at hq with hplace
    rw [if_pos (isDirectory_iff.mpr (h _ (isDirectory_iff.mp hplace)))]
    exact ih hq

theorem reach?_mono {d d' : Disk}
    (h : ∀ q, d.entry? q = some .directory → d'.entry? q = some .directory) {p : Path}
    {q : Location} (hq : d.reach? p = some q) : d'.reach? p = some q := follow?_mono h hq

theorem IsTree.follow?_of_plain (h : d.IsTree) {parts : List String}
    (hparts : Location.IsPlain parts) {place : Location}
    (hplace : d.entry? (place ++ parts) ≠ none) :
    d.follow? place parts = some (place ++ parts) := by
  induction parts generalizing place with
  | nil => simp [follow?]
  | cons part parts ih =>
    have hdir := h.above (by simp) hplace
    have hpart := (hparts part List.mem_cons_self).isDots_eq
    have happend : place ++ part :: parts = place ++ [part] ++ parts := by simp
    rw [follow?, if_pos (isDirectory_iff.mpr hdir), Location.step_of_name hpart, happend]
    exact ih (fun name hname => hparts name (List.mem_cons_of_mem _ hname)) (happend ▸ hplace)

theorem IsTree.reach?_ofLocation (h : d.IsTree) {place : Location}
    (hplace : d.entry? place ≠ none) : d.reach? (.ofLocation place) = some place :=
  h.follow?_of_plain (h.isPlain hplace) (by simpa using hplace)

theorem reach?_of_parts {p q : Path} {name : String} (hparts : q.parts = p.parts ++ [name])
    (hname : Location.isDots name = false) {place : Location} (hp : d.reach? p = some place) :
    d.reach? q = if d.entry? place = some .directory then some (place ++ [name]) else none := by
  rw [reach?, hparts, follow?_append]
  change (d.reach? p).bind _ = _
  rw [hp]
  simp only [Option.bind_some, follow?, isDirectory_iff, Location.step_of_name hname]

theorem reach?_of_parts_eq_none {p q : Path} {name : String}
    (hparts : q.parts = p.parts ++ [name]) (hp : d.reach? p = none) : d.reach? q = none := by
  rw [reach?, hparts, follow?_append]
  change (d.reach? p).bind _ = _
  rw [hp]
  rfl

theorem find?_eq {p : Path} {place : Location} (h : d.reach? p = some place) :
    d.find? p = (d.entry? place).map fun e => (place, e) := by
  simp only [find?, h, Option.bind_eq_bind, Option.bind_some]
  cases d.entry? place <;> rfl

theorem find?_eq_none {p : Path} (h : d.reach? p = none) : d.find? p = none := by
  simp [find?, h]

theorem isThere_iff {p : Path} {place : Location} (h : d.reach? p = some place) :
    d.isThere p = true ↔ d.entry? place ≠ none := by
  rw [isThere, find?_eq h]
  cases d.entry? place <;> simp

theorem isThere_iff_exists {p : Path} :
    d.isThere p = true ↔ d.reach? p = some p.place ∧ d.entry? p.place ≠ none := by
  cases h : d.reach? p with
  | none => simp [isThere, find?_eq_none h]
  | some place =>
    obtain rfl := reach?_eq_some h
    simp [isThere_iff h]

end Disk

/-! ## Paths of entries -/

namespace Path

theorem ofString_part {name : String} (hslash : '/' ∉ name.toList) (hempty : name ≠ "")
    (hdot : name ≠ ".") : ofString name = ⟨"", [name]⟩ := by
  have hroot : rootOf name.toList = "" := by
    unfold rootOf
    split
    · next heq => simp [heq] at hslash
    · next heq => simp [heq] at hslash
    · next heq => simp [heq] at hslash
    · rfl
  rw [ofString, hroot, Text.split_of_not_mem hslash]
  simp [hempty, hdot]

theorem slash_not_mem_of_mem_ofString {s part : String} (h : part ∈ (ofString s).parts) :
    '/' ∉ part.toList := fun hc => by
  rcases Text.of_mem_splitFrom (List.mem_filter.mp h).1 _ hc with hc' | ⟨-, hne⟩
  · cases hc'
  · exact hne rfl

theorem isFileName_of_mem_ofString {s part : String} (hnull : '\x00' ∉ s.toList)
    (h : part ∈ (ofString s).parts) : Location.isDots part = true ∨ IsFileName part := by
  by_cases hdots : part = ".."
  · exact .inl (Location.isDots_iff.mpr (.inr hdots))
  obtain ⟨hmem, hkept⟩ := List.mem_filter.mp h
  simp only [Bool.and_eq_true, bne_iff_ne] at hkept
  refine .inr ⟨slash_not_mem_of_mem_ofString h, fun hc => ?_, hkept.1, hkept.2, hdots⟩
  rcases Text.of_mem_splitFrom hmem _ hc with hc' | ⟨hmem', -⟩
  · cases hc'
  · exact hnull hmem'

theorem parts_child_part {name : String} (hslash : '/' ∉ name.toList) (hempty : name ≠ "")
    (hdot : name ≠ ".") (p : Path) : (p.child name).parts = p.parts ++ [name] := by
  simp [child, join, ofString_part hslash hempty hdot]

theorem parts_child {name : String} (h : IsFileName name) (p : Path) :
    (p.child name).parts = p.parts ++ [name] := parts_child_part h.slash h.ne_empty h.ne_dot p

theorem parts_child_ending {name ending : String} (hname : '/' ∉ name.toList)
    (hending : '/' ∉ ending.toList) (hlength : 2 < ending.length) (p : Path) :
    (p.child (name ++ ending)).parts = p.parts ++ [name ++ ending] := by
  have hlong : ∀ short : String, short.length ≤ 2 → name ++ ending ≠ short := fun _ =>
    append_ne_of_length hlength
  exact parts_child_part (by simp [hname, hending]) (hlong _ (by decide)) (hlong _ (by decide)) p

theorem place_child_ending {name ending : String} (hname : '/' ∉ name.toList)
    (hending : '/' ∉ ending.toList) (hlength : 2 < ending.length) (p : Path) :
    (p.child (name ++ ending)).place = p.place ++ [name ++ ending] := by
  rw [place, place, parts_child_ending hname hending hlength, List.foldl_append, List.foldl_cons,
    List.foldl_nil, Location.step_of_name (isDots_append hlength)]

theorem place_child {name : String} (h : IsFileName name) (p : Path) :
    (p.child name).place = p.place ++ [name] := by
  rw [place, place, parts_child h, List.foldl_append, List.foldl_cons, List.foldl_nil,
    Location.step_of_name h.isDots_eq]

theorem parent_child {name : String} (h : IsFileName name) (p : Path) :
    (p.child name).parent.parts = p.parts := by
  simp [parent, parts_child h]

end Path

end Facade
