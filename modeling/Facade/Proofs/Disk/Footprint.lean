import Facade.Proofs.Disk.Actions

/-!
# What actions leave alone

Of every action it is known, whatever the disk is and however the action ends, at which places it changes
what is there, and at which places it leaves something new.

* `Disk.Confined`: a disk that differs from another one at some places only;
* `DiskAction.Touches`: an action that goes to some places only; actions in a row;
* `Disk.touches_makeDirectories`, `Disk.touches_write`, `Disk.touches_removeFile`: the actions.
-/

namespace Facade

namespace Disk

/-- What is on the first disk is on the second one too, but for places with `S`, and what is new on the
second one is at places with `T`. -/
structure Confined (S T : Location → Prop) (d d' : Disk) : Prop where
  spared : ∀ q, d.entry? q ≠ none → d'.entry? q = d.entry? q ∨ S q
  made : ∀ q, d'.entry? q ≠ none → d.entry? q ≠ none ∨ T q

namespace Confined

variable {S U T V : Location → Prop} {d d' d'' : Disk}

theorem refl (S T : Location → Prop) (d : Disk) : Confined S T d d :=
  ⟨fun _ _ => .inl rfl, fun _ => .inl⟩

theorem trans (h : Confined S T d d') (h' : Confined S T d' d'') : Confined S T d d'' where
  spared q hq := by
    rcases h.spared q hq with heq | hS
    · rw [← heq]
      exact h'.spared q (heq ▸ hq)
    · exact .inr hS
  made q hq := (h'.made q hq).elim (h.made q) .inr

theorem mono (h : Confined S T d d') (hS : ∀ q, S q → U q) (hT : ∀ q, T q → V q) :
    Confined U V d d' :=
  ⟨fun q hq => (h.spared q hq).imp id (hS q), fun q hq => (h.made q hq).imp id (hT q)⟩

theorem entry?_eq (h : Confined S T d d') {q : Location} (hq : d.entry? q ≠ none) (hS : ¬ S q) :
    d'.entry? q = d.entry? q := (h.spared q hq).resolve_right hS

theorem read?_eq_some (h : Confined S T d d') {q : Location} (hS : ¬ S q) {content : List UInt8}
    (hq : d.read? q = some content) : d'.read? q = some content := by
  rw [Disk.read?_eq_some] at hq ⊢
  rw [h.entry?_eq (by rw [hq]; simp) hS, hq]

theorem put {place : Location} (hne : place ≠ []) (e : Entry) :
    Confined (· = place) (· = place) d (d.put place e) := by
  refine ⟨fun q _ => ?_, fun q hq => ?_⟩
  · rw [entry?_put hne]
    split_ifs with heq
    · exact .inr heq
    · exact .inl rfl
  · rw [entry?_put hne] at hq
    split_ifs at hq with heq
    · exact .inr heq
    · exact .inl hq

theorem put_new {place : Location} (hnone : d.entry? place = none) (e : Entry) :
    Confined (fun _ => False) (· = place) d (d.put place e) := by
  have hne : place ≠ [] := by
    rintro rfl
    rw [entry?_nil] at hnone
    cases hnone
  refine ⟨fun q hq => .inl ?_, (put hne e).made⟩
  rw [entry?_put hne, if_neg (by rintro rfl; exact hq hnone)]

theorem of_within {T : Location → Prop} (hmade : Within T d d') (hS : ∀ q, d'.entry? q ≠ d.entry? q → S q) :
    Confined S T d d' where
  spared q _ := by
    by_cases h : d'.entry? q = d.entry? q
    · exact .inl h
    · exact .inr (hS q h)
  made q hq := by
    rcases hmade q with h | h | h
    · exact .inl (h ▸ hq)
    · exact absurd h hq
    · exact .inr h.1

theorem without {place : Location} (h : Without place d d') :
    Confined (· = place) (fun _ => False) d d' :=
  of_within (h.within _) fun q hq => by
    by_contra hne
    exact hq (by rw [h, if_neg hne])

theorem eraseTree (place : Location) :
    Confined (place <+: ·) (fun _ => False) d (d.eraseTree place) :=
  of_within (.of_eraseTree _ place) fun q hq => by
    by_contra hbelow
    exact hq (by rw [entry?_eraseTree, if_neg fun h => hbelow h.1])

theorem eraseBelow (place : Location) :
    Confined (place <+: ·) (fun _ => False) d (d.eraseBelow place) :=
  of_within (.of_eraseBelow _ place) fun q hq => by
    by_contra hbelow
    exact hq (by rw [entry?_eraseBelow, if_neg fun h => hbelow h.1])

end Confined

end Disk

open Disk

namespace DiskAction

variable {α β : Type} {S U T V : Location → Prop} {x : DiskAction α} {f : α → DiskAction β}

/-- On every disk the action changes what is at places with `S` only, and leaves something new at places
with `T` only, whether it comes to its end or not. -/
def Touches (x : DiskAction α) (S T : Location → Prop) : Prop :=
  ∀ d, x.Ends d (fun _ => Confined S T d) (Confined S T d)

theorem touches_pure (a : α) : (pure a : DiskAction α).Touches S T := fun d => Confined.refl S T d

/-- Actions in a row, the second one of which is known on the disks that the first one leaves. -/
theorem ends_confined_bind {d : Disk} (hx : x.Ends d (fun _ => Confined S T d) (Confined S T d))
    (hf : ∀ a d', Confined S T d d' →
      (f a).Ends d' (fun _ => Confined S T d') (Confined S T d')) :
    (x >>= f).Ends d (fun _ => Confined S T d) (Confined S T d) :=
  hx.bind fun a d' h => (hf a d' h).mono (fun _ _ => h.trans) fun _ => h.trans

theorem Touches.bind (hx : x.Touches S T) (hf : ∀ a, (f a).Touches S T) :
    (x >>= f).Touches S T := fun d => ends_confined_bind (hx d) fun a d' _ => hf a d'

theorem touches_get_bind {f : Disk → DiskAction β} (hf : ∀ d, (f d).Touches S T) :
    (get >>= f).Touches S T := fun d => ends_get_bind (hf d d)

theorem Touches.discard (hx : x.Touches S T) : (discard x).Touches S T := fun d =>
  Ends.discard (hx d)

theorem Touches.mono (hx : x.Touches S T) (hS : ∀ q, S q → U q) (hT : ∀ q, T q → V q) :
    x.Touches U V := fun d => (hx d).mono (fun _ _ h => h.mono hS hT) fun _ h => h.mono hS hT

theorem touches_mapM {items : List α} (hf : ∀ a ∈ items, (f a).Touches S T) :
    (items.mapM f).Touches S T := by
  intro d
  refine ends_mapM (I := fun _ _ => Confined S T d) ?_ (Confined.refl S T d)
  intro _ a _ d' ha h
  exact (hf a ha d').mono (fun _ _ => h.trans) fun _ => h.trans

end DiskAction

namespace Disk

/-! ## Directories on a way -/

theorem enter_confined (place : Location) (part : String) (d : Disk) :
    (enter place part).Ends d
      (fun next d' => next = Location.step place part ∧
        Confined (fun _ => False) (· = Location.step place part) d d')
      (fun d' => d' = d) := by
  unfold DiskAction.Ends EStateM.run enter
  cases hdir : d.isDirectory place with
  | false => rfl
  | true =>
    simp only [if_true]
    cases hnext : d.entry? (Location.step place part) with
    | some e =>
      cases e with
      | directory => exact ⟨rfl, .refl _ _ d⟩
      | file content => rfl
    | none => exact ⟨rfl, .put_new hnext _⟩

theorem touches_foldlM_enter (parts : List String) (place : Location) :
    (parts.foldlM enter place).Touches (fun _ => False) (· ∈ Location.stops place parts) := by
  induction parts generalizing place with
  | nil => exact DiskAction.touches_pure place
  | cons part parts ih =>
    intro d
    rw [List.foldlM_cons]
    have hstep : ∀ {d₁ d₂ : Disk},
        Confined (fun _ => False) (· = Location.step place part) d₁ d₂ →
        Confined (fun _ => False) (· ∈ Location.stops place (part :: parts)) d₁ d₂ := fun h =>
      h.mono (fun _ => id) fun q hq => hq ▸ List.mem_cons_self
    have henter := enter_confined place part d
    refine (henter.mono (fun _ _ h => h) ?_).bind ?_
    · rintro _ rfl
      exact .refl _ _ _
    rintro _ d' ⟨rfl, hd'⟩
    have hrest := (ih (Location.step place part)).mono (fun _ => id) fun q hq =>
      List.mem_cons_of_mem (Location.step place part) hq
    exact (hrest d').mono (fun _ _ h => (hstep hd').trans h) fun _ h => (hstep hd').trans h

/-- **Making directories leaves everything alone**, and makes what is on the way of the path only. -/
theorem touches_makeDirectories (p : Path) :
    (makeDirectories p).Touches (fun _ => False) (· ∈ p.stops) :=
  (touches_foldlM_enter p.parts []).discard

/-! ## Files -/

/-- Writing changes what is at the end of the path. -/
theorem touches_write (p : Path) (content : List UInt8) :
    (write p content).Touches (· = p.place) (· = p.place) := by
  intro d
  cases hreach : d.reach? p with
  | none =>
    unfold DiskAction.Ends
    rw [write_eq_missing hreach]
    exact .refl _ _ d
  | some place =>
    obtain rfl := reach?_eq_some hreach
    refine (write_ends hreach content).mono ?_ ?_
    · rintro _ _ ⟨rfl, hdir⟩
      refine .put ?_ _
      intro hroot
      rw [hroot, entry?_nil] at hdir
      exact hdir rfl
    · rintro _ ⟨rfl, -⟩
      exact .refl _ _ _

theorem touches_writeWithParents (p : Path) (content : List UInt8) :
    (writeWithParents p content).Touches (· = p.place)
      (fun q => q ∈ p.parent.stops ∨ q = p.place) :=
  ((touches_makeDirectories p.parent).mono (fun _ h => h.elim) fun _ => .inl).bind fun _ =>
    (touches_write p content).mono (fun _ => id) fun _ => .inr

/-- Removing a file changes what is at the end of the path. -/
theorem touches_removeFile (p : Path) :
    (removeFile p).Touches (· = p.place) (fun _ => False) := by
  intro d
  by_cases hthere : d.isThere p = true
  · obtain ⟨hreach, hentry⟩ := isThere_iff_exists.mp hthere
    refine (removeFile_ends hreach hentry).mono ?_ ?_
    · rintro _ d' ⟨hd', -⟩
      exact .without hd'
    · rintro _ ⟨rfl, -⟩
      exact .refl _ _ _
  · have hnone : d.find? p = none := by simpa [isThere] using hthere
    unfold DiskAction.Ends EStateM.run removeFile
    rw [hnone]
    exact .refl _ _ d

end Disk

end Facade
