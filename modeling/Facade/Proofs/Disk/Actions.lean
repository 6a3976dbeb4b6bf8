import Facade.Proofs.Disk.Entries

/-!
# What actions do to a disk

An action is known by how it ends: what holds of its result and the disk after it, or of the disk that
it leaves when it cannot be done.

* `DiskAction.Ends`: how an action ends on a disk; the rules for actions in a row;
* `Disk.Grows`: a disk with more directories than another; `Disk.Within`: one with nothing else;
* `Disk.makeDirectories_ends`, `Disk.write_ends`, `Disk.removeFile_ends`, `Disk.removeTree_ends`: the actions.
-/

namespace Facade

namespace DiskAction

variable {α β : Type} {d : Disk}

/-- On the disk `d` the action ends with `Q` of its result and the disk, or fails and leaves a disk
with `E`. -/
def Ends (x : DiskAction α) (d : Disk) (Q : α → Disk → Prop) (E : Disk → Prop) : Prop :=
  match x.run d with
  | .ok a d' => Q a d'
  | .error _ d' => E d'

theorem Ends.mono {x : DiskAction α} {Q R : α → Disk → Prop} {E F : Disk → Prop}
    (h : x.Ends d Q E) (hQ : ∀ a d', Q a d' → R a d') (hE : ∀ d', E d' → F d') : x.Ends d R F := by
  unfold Ends at h ⊢
  cases hx : x.run d with
  | ok a d' => rw [hx] at h; exact hQ a d' h
  | error fault d' => rw [hx] at h; exact hE d' h

theorem Ends.of_ok {x : DiskAction α} {Q : α → Disk → Prop} {E : Disk → Prop} {a : α} {d' : Disk}
    (h : x.Ends d Q E) (hx : x.run d = .ok a d') : Q a d' := by
  rwa [Ends, hx] at h

theorem Ends.of_error {x : DiskAction α} {Q : α → Disk → Prop} {E : Disk → Prop} {fault : DiskFault}
    {d' : Disk} (h : x.Ends d Q E) (hx : x.run d = .error fault d') : E d' := by
  rwa [Ends, hx] at h

/-- The disk after an action, whether it could be done or not. -/
def disk (x : DiskAction α) (d : Disk) : Disk :=
  match x.run d with
  | .ok _ d' => d'
  | .error _ d' => d'

theorem Ends.disk {x : DiskAction α} {P : Disk → Prop} (h : x.Ends d (fun _ => P) P) :
    P (x.disk d) := by
  unfold Ends at h
  unfold DiskAction.disk
  cases hx : x.run d with
  | ok a d' => rw [hx] at h; exact h
  | error fault d' => rw [hx] at h; exact h

/-- The action does not fail. -/
def succeeds (x : DiskAction α) (d : Disk) : Bool :=
  match x.run d with
  | .ok _ _ => true
  | .error _ _ => false

theorem exists_ok_of_succeeds {x : DiskAction α} (h : x.succeeds d) : ∃ a d', x.run d = .ok a d' := by
  unfold succeeds at h
  split at h
  · next a d' hx => exact ⟨a, d', hx⟩
  · cases h

/-- An action that cannot be done. -/
theorem Ends.exists_error {x : DiskAction α} {E : Disk → Prop} (h : x.Ends d (fun _ _ => False) E) :
    ∃ fault d', x.run d = .error fault d' ∧ E d' := by
  unfold Ends at h
  cases hx : x.run d with
  | ok a d' => rw [hx] at h; exact h.elim
  | error fault d' => rw [hx] at h; exact ⟨fault, d', rfl, h⟩

theorem Ends.and {x : DiskAction α} {Q R : α → Disk → Prop} {E F : Disk → Prop}
    (h : x.Ends d Q E) (h' : x.Ends d R F) :
    x.Ends d (fun a d' => Q a d' ∧ R a d') (fun d' => E d' ∧ F d') := by
  unfold Ends at h h' ⊢
  cases hx : x.run d with
  | ok a d' => rw [hx] at h h'; exact ⟨h, h'⟩
  | error fault d' => rw [hx] at h h'; exact ⟨h, h'⟩

theorem ends_pure {a : α} {Q : α → Disk → Prop} {E : Disk → Prop} (h : Q a d) :
    (pure a : DiskAction α).Ends d Q E := h

theorem Ends.bind {x : DiskAction α} {f : α → DiskAction β} {Q : β → Disk → Prop}
    {R : α → Disk → Prop} {E : Disk → Prop} (hx : x.Ends d R E)
    (hf : ∀ a d', R a d' → (f a).Ends d' Q E) : (x >>= f).Ends d Q E := by
  unfold Ends at hx hf ⊢
  rw [EStateM.run_bind]
  cases hrun : x.run d with
  | ok a d' => rw [hrun] at hx; exact hf a d' hx
  | error fault d' => rw [hrun] at hx; exact hx

theorem ends_get_bind {f : Disk → DiskAction β} {Q : β → Disk → Prop} {E : Disk → Prop}
    (h : (f d).Ends d Q E) : (get >>= f).Ends d Q E := h

theorem Ends.map {x : DiskAction α} {f : α → β} {Q : β → Disk → Prop} {E : Disk → Prop}
    (h : x.Ends d (fun a d' => Q (f a) d') E) : (f <$> x).Ends d Q E := by
  rw [map_eq_pure_bind]
  exact h.bind fun a d' ha => ends_pure ha

theorem Ends.discard {x : DiskAction α} {Q : Unit → Disk → Prop} {E : Disk → Prop}
    (h : x.Ends d (fun _ d' => Q () d') E) : (discard x).Ends d Q E :=
  Ends.map (f := Function.const α ()) h

theorem ends_mapM {f : α → DiskAction β} {I : List α → List β → Disk → Prop} {E : Disk → Prop}
    {items : List α}
    (hstep : ∀ as a bs d, a ∈ items → I as bs d →
      (f a).Ends d (fun b d' => I (as ++ [a]) (bs ++ [b]) d') E) (hstart : I [] [] d) :
    (items.mapM f).Ends d (fun bs d' => I items bs d') E := by
  suffices h : ∀ rest as bs d, rest ⊆ items → I as bs d →
      (rest.mapM f).Ends d (fun bs' d' => I (as ++ rest) (bs ++ bs') d') E from
    h items [] [] d (List.Subset.refl _) hstart
  intro rest
  induction rest with
  | nil =>
    rintro as bs d - h
    exact ends_pure (by simpa using h)
  | cons a rest ih =>
    intro as bs d hrest h
    rw [List.mapM_cons]
    refine (hstep as a bs d (hrest List.mem_cons_self) h).bind fun b d' hb => ?_
    refine (ih _ _ _ (fun x hx => hrest (List.mem_cons_of_mem _ hx)) hb).bind fun bs' d'' hbs => ?_
    exact ends_pure (by simpa using hbs)

theorem run_mapM_eq {f : α → DiskAction β} {g : α → β} {items : List α}
    (h : ∀ a ∈ items, (f a).run d = .ok (g a) d) : (items.mapM f).run d = .ok (items.map g) d := by
  induction items with
  | nil => rfl
  | cons a items ih =>
    rw [List.mapM_cons, EStateM.run_bind, h a List.mem_cons_self]
    dsimp only
    rw [EStateM.run_bind, ih fun b hb => h b (List.mem_cons_of_mem _ hb)]
    rfl

end DiskAction

namespace Disk

variable {d : Disk}

/-! ## More directories -/

/-- The second disk is the first one with more directories, at places with `S`. -/
def Grows (S : Location → Prop) (d d' : Disk) : Prop :=
  ∀ q, d'.entry? q = d.entry? q ∨
    S q ∧ d.entry? q = none ∧ d'.entry? q = some .directory

namespace Grows

variable {S T : Location → Prop} {d' d'' : Disk}

theorem refl (S : Location → Prop) (d : Disk) : Grows S d d := fun _ => .inl rfl

theorem trans (h : Grows S d d') (h' : Grows S d' d'') : Grows S d d'' := by
  intro q
  rcases h q with hq | ⟨hS, hnone, hdir⟩
  · rw [← hq]
    exact h' q
  · rcases h' q with hq' | ⟨-, hnone', -⟩
    · exact .inr ⟨hS, hnone, hq'.trans hdir⟩
    · rw [hnone'] at hdir
      cases hdir

theorem mono (h : Grows S d d') (hST : ∀ q, S q → T q) : Grows T d d' := fun q =>
  (h q).imp id fun hq => ⟨hST q hq.1, hq.2⟩

theorem entry?_eq (h : Grows S d d') {q : Location} (hq : d.entry? q ≠ none) :
    d'.entry? q = d.entry? q := by
  rcases h q with hq' | ⟨-, hnone, -⟩
  · exact hq'
  · exact absurd hnone hq

theorem entry?_eq_of_not (h : Grows S d d') {q : Location} (hq : ¬ S q) :
    d'.entry? q = d.entry? q := by
  rcases h q with hq' | ⟨hS, -⟩
  · exact hq'
  · exact absurd hS hq

theorem directory (h : Grows S d d') {q : Location} (hq : d.entry? q = some .directory) :
    d'.entry? q = some .directory := by
  rw [h.entry?_eq (by rw [hq]; simp), hq]

theorem read?_eq (h : Grows S d d') (q : Location) : d'.read? q = d.read? q := by
  rcases h q with hq | ⟨-, hnone, hdir⟩
  · exact read?_congr hq
  · rw [read?, read?, hnone, hdir]

theorem readText?_eq (h : Grows S d d') (q : Location) : d'.readText? q = d.readText? q := by
  rw [readText?, readText?, h.read?_eq]

theorem isSome_read? (h : Grows S d d') {q : Location} (hq : (d'.read? q).isSome = true) :
    (d.read? q).isSome = true := h.read?_eq q ▸ hq

end Grows

/-- What is on the second disk is on the first one, or a directory at a place with `S`. -/
def Within (S : Location → Prop) (d d' : Disk) : Prop :=
  ∀ q, d'.entry? q = d.entry? q ∨ d'.entry? q = none ∨ S q ∧ d'.entry? q = some .directory

theorem Grows.within {S : Location → Prop} {d' : Disk} (h : Grows S d d') : Within S d d' :=
  fun q => (h q).imp id fun hq => .inr ⟨hq.1, hq.2.2⟩

namespace Within

variable {S T : Location → Prop} {d' d'' : Disk}

theorem refl (S : Location → Prop) (d : Disk) : Within S d d := fun _ => .inl rfl

theorem trans (h : Within S d d') (h' : Within S d' d'') : Within S d d'' := by
  intro q
  rcases h' q with hq' | hq'
  · rw [hq']
    exact h q
  · exact .inr hq'

theorem mono (h : Within S d d') (hST : ∀ q, S q → T q) : Within T d d' := fun q =>
  (h q).imp id (Or.imp id fun hq => ⟨hST q hq.1, hq.2⟩)

theorem of_eraseTree (S : Location → Prop) (place : Location) : Within S d (d.eraseTree place) := by
  intro q
  rw [entry?_eraseTree]
  split_ifs
  · exact .inr (.inl rfl)
  · exact .inl rfl

theorem of_eraseBelow (S : Location → Prop) (place : Location) :
    Within S d (d.eraseBelow place) := by
  intro q
  rw [entry?_eraseBelow]
  split_ifs
  · exact .inr (.inl rfl)
  · exact .inl rfl

theorem read? (h : Within S d d') {q : Location} {content : List UInt8}
    (hq : d'.read? q = some content) : d.read? q = some content := by
  rw [read?_eq_some] at hq ⊢
  rcases h q with hq' | hq' | ⟨-, hq'⟩
  · rw [← hq', hq]
  · rw [hq'] at hq
    cases hq
  · rw [hq'] at hq
    cases hq

theorem readText? (h : Within S d d') {q : Location} {text : String}
    (hq : d'.readText? q = some text) : d.readText? q = some text := by
  cases hread : d'.read? q with
  | none => simp [Disk.readText?, hread] at hq
  | some content => rw [Disk.readText?, h.read? hread, ← hread]; exact hq

theorem entry?_eq_none_or_eq (h : Within S d d') {q : Location} (hq : ¬ S q) :
    d'.entry? q = none ∨ d'.entry? q = d.entry? q := by
  rcases h q with hq' | hq' | ⟨hS, -⟩
  · exact .inr hq'
  · exact .inl hq'
  · exact absurd hS hq

end Within

end Disk

/-- The parts of a path are names of entries and dots. -/
def Path.IsProper (p : Path) : Prop :=
  ∀ part ∈ p.parts, Location.isDots part = true ∨ IsFileName part

instance (p : Path) : Decidable p.IsProper :=
  inferInstanceAs (Decidable (∀ part ∈ p.parts, Location.isDots part = true ∨ IsFileName part))

namespace Path

/-- The places on the way of a path, that where it leads among them. -/
def stops (p : Path) : List Location := Location.stops [] p.parts

theorem stops_of_parts {p q : Path} {name : String} (hparts : q.parts = p.parts ++ [name])
    (hname : Location.isDots name = false) : q.stops = p.stops ++ [p.place ++ [name]] := by
  rw [stops, hparts, Location.stops_append, ← Location.step_of_name hname]
  rfl

theorem place_mem_stops {p : Path} : p.place = [] ∨ p.place ∈ p.stops := by
  obtain ⟨root, parts⟩ := p
  rcases List.eq_nil_or_concat parts with rfl | ⟨above, part, rfl⟩
  · exact .inl rfl
  · right
    rw [stops, place, List.concat_eq_append, Location.stops_append, List.foldl_append]
    exact List.mem_append_right _ List.mem_cons_self

end Path

namespace Disk

variable {d : Disk}

/-! ## Directories on a way -/

theorem IsTree.directory_above (hd : d.IsTree) {p q : Location} (hpq : p <+: q)
    (hq : d.entry? q = some .directory) : d.entry? p = some .directory := by
  by_cases h : p = q
  · exact h ▸ hq
  · exact hd.above_prefix hpq h (by rw [hq]; simp)

theorem enter_ends (hd : d.IsTree) {place : Location} {part : String}
    (hplace : d.entry? place = some .directory)
    (hpart : Location.isDots part = true ∨ IsFileName part) :
    (enter place part).Ends d
      (fun next d' => next = Location.step place part ∧ d'.IsTree ∧
        Grows (· = Location.step place part) d d' ∧ d'.entry? next = some .directory)
      (fun d' => d' = d ∧ (d.read? (Location.step place part)).isSome = true) := by
  unfold DiskAction.Ends EStateM.run enter
  rw [if_pos (isDirectory_iff.mpr hplace)]
  cases hnext : d.entry? (Location.step place part) with
  | some e =>
    cases e with
    | directory => exact ⟨rfl, hd, Grows.refl _ d, hnext⟩
    | file content => exact ⟨rfl, by rw [read?_eq_some.mpr hnext]; rfl⟩
  | none =>
    rcases hpart with hdots | hpart
    · -- dots lead to a directory
      rw [hd.directory_above (Location.step_of_dots hdots) hplace] at hnext
      cases hnext
    · have hstep := @Location.step_of_name place _ hpart.isDots_eq
      rw [hstep] at hnext ⊢
      refine ⟨rfl, hd.put_directory hpart hplace, fun q => ?_, ?_⟩
      · rw [entry?_put (by simp)]
        split_ifs with hq
        · exact .inr ⟨hq, hq ▸ hnext, rfl⟩
        · exact .inl rfl
      · rw [entry?_put (by simp), if_pos rfl]

theorem foldlM_enter_ends {parts : List String}
    (hparts : ∀ part ∈ parts, Location.isDots part = true ∨ IsFileName part) (hd : d.IsTree)
    {place : Location} (hplace : d.entry? place = some .directory) :
    (parts.foldlM enter place).Ends d
      (fun _ d' => d'.IsTree ∧ Grows (· ∈ Location.stops place parts) d d' ∧
        ∀ stop ∈ Location.stops place parts, d'.entry? stop = some .directory)
      (fun d' => d'.IsTree ∧ Grows (· ∈ Location.stops place parts) d d' ∧
        ∃ stop ∈ Location.stops place parts, (d.read? stop).isSome = true) := by
  induction parts generalizing place d with
  | nil => exact ⟨hd, Grows.refl _ _, fun _ h => absurd h List.not_mem_nil⟩
  | cons part parts ih =>
    rw [List.foldlM_cons]
    have henter := enter_ends hd hplace (hparts part List.mem_cons_self)
    refine (henter.mono (fun _ _ h => h) ?_).bind ?_
    · rintro _ ⟨rfl, hfile⟩
      exact ⟨hd, Grows.refl _ _, _, List.mem_cons_self, hfile⟩
    · rintro _ d' ⟨rfl, hd', hgrow, hnext⟩
      have hgrow' := hgrow.mono (T := (· ∈ Location.stops place (part :: parts)))
        fun q hq => hq ▸ List.mem_cons_self
      have hrest := ih (fun q hq => hparts q (List.mem_cons_of_mem _ hq)) hd' hnext
      refine hrest.mono ?_ ?_
      · rintro q d'' ⟨hd'', hgrow'', hstops⟩
        refine ⟨hd'', hgrow'.trans (hgrow''.mono fun q hq => List.mem_cons_of_mem _ hq), ?_⟩
        intro stop hstop
        rcases List.mem_cons.mp hstop with rfl | hstop
        · exact hgrow''.directory hnext
        · exact hstops stop hstop
      · rintro d'' ⟨hd'', hgrow'', stop, hstop, hfile⟩
        exact ⟨hd'', hgrow'.trans (hgrow''.mono fun q hq => List.mem_cons_of_mem _ hq), stop,
          List.mem_cons_of_mem _ hstop, hgrow.isSome_read? hfile⟩

/-- **Directories are made on the way of a path**, unless a file is in the way. -/
theorem makeDirectories_ends {p : Path} (hp : p.IsProper) (hd : d.IsTree) :
    (makeDirectories p).Ends d
      (fun _ d' => d'.IsTree ∧ Grows (· ∈ p.stops) d d' ∧
        ∀ stop ∈ p.stops, d'.entry? stop = some .directory)
      (fun d' => d'.IsTree ∧ Grows (· ∈ p.stops) d d' ∧
        ∃ stop ∈ p.stops, (d.read? stop).isSome = true) :=
  DiskAction.Ends.discard (foldlM_enter_ends hp hd entry?_nil)

theorem foldlM_enter_eq {parts : List String} {place : Location}
    (hplace : d.entry? place = some .directory)
    (hstops : ∀ stop ∈ Location.stops place parts, d.entry? stop = some .directory) :
    (parts.foldlM enter place).run d = .ok (parts.foldl Location.step place) d := by
  induction parts generalizing place with
  | nil => rfl
  | cons part parts ih =>
    have hnext := hstops _ List.mem_cons_self
    have henter : (enter place part).run d = .ok (Location.step place part) d := by
      unfold EStateM.run enter
      rw [if_pos (isDirectory_iff.mpr hplace), hnext]
    rw [List.foldlM_cons, EStateM.run_bind, henter]
    exact ih hnext fun stop hstop => hstops stop (List.mem_cons_of_mem _ hstop)

theorem makeDirectories_eq {p : Path} (hstops : ∀ stop ∈ p.stops, d.entry? stop = some .directory) :
    (makeDirectories p).run d = .ok () d := by
  have hdiscard : makeDirectories p = (fun _ => ()) <$> p.parts.foldlM enter [] := rfl
  rw [hdiscard, map_eq_pure_bind, EStateM.run_bind, foldlM_enter_eq entry?_nil hstops]
  rfl

theorem follow?_of_stops {parts : List String} {place : Location}
    (hplace : d.entry? place = some .directory)
    (hstops : ∀ stop ∈ Location.stops place parts, d.entry? stop = some .directory) :
    d.follow? place parts = some (parts.foldl Location.step place) := by
  induction parts generalizing place with
  | nil => rfl
  | cons part parts ih =>
    rw [follow?, if_pos (isDirectory_iff.mpr hplace)]
    exact ih (hstops _ List.mem_cons_self) fun stop hstop => hstops stop (List.mem_cons_of_mem _ hstop)

/-- A path leads where its text says, if there are directories on its way. -/
theorem reach?_of_stops {p : Path} (hstops : ∀ stop ∈ p.stops, d.entry? stop = some .directory) :
    d.reach? p = some p.place := follow?_of_stops entry?_nil hstops

/-! ## Files -/

theorem write_eq {p : Path} {place : Location} (hp : d.reach? p = some place)
    (content : List UInt8) :
    (write p content).run d =
      if d.entry? place = some .directory then .error (.isDirectory p) d
      else .ok () (d.put place (.file content)) := by
  simp only [EStateM.run, write, hp, isDirectory_iff]

theorem write_ends {p : Path} {place : Location} (hp : d.reach? p = some place)
    (content : List UInt8) :
    (write p content).Ends d
      (fun _ d' => d' = d.put place (.file content) ∧ d.entry? place ≠ some .directory)
      (fun d' => d' = d ∧ d.entry? place = some .directory) := by
  unfold DiskAction.Ends
  rw [write_eq hp]
  split_ifs with hplace
  · exact ⟨rfl, hplace⟩
  · exact ⟨rfl, hplace⟩

theorem write_eq_missing {p : Path} (hp : d.reach? p = none) (content : List UInt8) :
    (write p content).run d = .error (.missing p) d := by
  simp only [EStateM.run, write, hp]

/-- The second disk is the first one without what is at a place. -/
def Without (place : Location) (d d' : Disk) : Prop :=
  ∀ q, d'.entry? q = if q = place then none else d.entry? q

theorem Without.within {place : Location} {d' : Disk} (S : Location → Prop) (h : Without place d d') :
    Within S d d' := by
  intro q
  rw [h]
  split_ifs
  · exact .inr (.inl rfl)
  · exact .inl rfl

theorem Without.directory_iff {place : Location} {d' : Disk} (h : Without place d d')
    (hplace : d.entry? place ≠ some .directory) (q : Location) :
    d'.entry? q = some .directory ↔ d.entry? q = some .directory := by
  rw [h]
  split_ifs with hq
  · rw [hq]
    exact iff_of_false (by simp) hplace
  · rfl

theorem without_of_none {place : Location} (h : d.entry? place = none) : Without place d d := by
  intro q
  split_ifs with hq
  · rw [hq, h]
  · rfl

theorem IsTree.without (h : d.IsTree) {d' : Disk} {place : Location} (hd' : Without place d d')
    (hfile : d.entry? place ≠ some .directory) : d'.IsTree := by
  intro q m hq
  rw [hd'] at hq ⊢
  split_ifs at hq
  · exact absurd rfl hq
  · have hdir := (h q m hq).2
    rw [if_neg (by rintro rfl; exact hfile hdir)]
    exact h q m hq

theorem removeFile_ends {p : Path} {place : Location} (hp : d.reach? p = some place)
    (hplace : d.entry? place ≠ none) :
    (removeFile p).Ends d (fun _ d' => Without place d d' ∧ d.entry? place ≠ some .directory)
      (fun d' => d' = d ∧ d.entry? place = some .directory) := by
  obtain ⟨e, he⟩ := Option.ne_none_iff_exists'.mp hplace
  unfold DiskAction.Ends EStateM.run removeFile
  rw [find?_eq hp, he]
  cases e with
  | directory => exact ⟨rfl, rfl⟩
  | file content =>
    exact ⟨entry?_erase (by rintro rfl; rw [entry?_nil] at he; cases he), by simp⟩

/-- A directory is removed, or only emptied where the path does not end in its name. -/
theorem removeTree_ends {p : Path} {place : Location} (hp : d.reach? p = some place)
    (hplace : d.entry? place ≠ none) :
    (removeTree p).Ends d (fun _ d' => d' = d.eraseTree place ∧ p.endsInName = true)
      (fun d' => d' = d ∧ (d.read? place).isSome = true ∨
        d' = d.eraseBelow place ∧ p.endsInName = false) := by
  obtain ⟨e, he⟩ := Option.ne_none_iff_exists'.mp hplace
  unfold DiskAction.Ends EStateM.run removeTree
  rw [find?_eq hp, he]
  cases e with
  | file content => exact .inl ⟨rfl, by rw [read?_eq_some.mpr he]; rfl⟩
  | directory =>
    simp only [Option.map_some]
    split_ifs with hname
    · exact ⟨rfl, hname⟩
    · exact .inr ⟨rfl, by simpa using hname⟩

end Disk

end Facade
