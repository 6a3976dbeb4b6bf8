import Mathlib.Data.List.Induction
import Facade.Generator.Pass

/-!
# What a registry holds

Units are registered by their hint names: of those with one hint name the last one stays, at its place.
Skips and notices are only added.

* `lastOfEach`, `firstOfEach`: of the items with one key, the last or the first;
* `Registry.units_add`, `Registry.skips_add`, `Registry.notices_add`: what becomes of a registry.
-/

namespace Facade

/-! ## One item for each key -/

section

variable {α κ : Type} [DecidableEq κ] (key : α → κ)

/-- The last of the items with each key, in their order: those whose key does not come again. -/
def lastOfEach : List α → List α
  | [] => []
  | x :: xs => if key x ∈ xs.map key then lastOfEach xs else x :: lastOfEach xs

/-- The first of the items with each key, in their order. -/
def firstOfEach (xs : List α) : List α := (lastOfEach key xs.reverse).reverse

theorem mem_map_lastOfEach {xs : List α} {k : κ} : k ∈ (lastOfEach key xs).map key ↔ k ∈ xs.map key := by
  induction xs with
  | nil => rfl
  | cons x xs ih =>
    rw [lastOfEach, List.map_cons, List.mem_cons]
    split_ifs with hx
    · rw [ih]
      exact ⟨Or.inr, fun h => h.elim (fun h => h ▸ hx) id⟩
    · rw [List.map_cons, List.mem_cons, ih]

theorem lastOfEach_subset (xs : List α) : lastOfEach key xs ⊆ xs := by
  induction xs with
  | nil => exact List.Subset.refl _
  | cons x xs ih =>
    rw [lastOfEach]
    split_ifs
    · exact List.Subset.trans ih (List.subset_cons_self x xs)
    · exact List.cons_subset_cons x ih

theorem firstOfEach_subset (xs : List α) : firstOfEach key xs ⊆ xs := fun _ h =>
  List.mem_reverse.mp (lastOfEach_subset key _ (List.mem_reverse.mp h))

theorem lastOfEach_append (xs : List α) (x : α) :
    lastOfEach key (xs ++ [x]) = (lastOfEach key xs).filter (fun y => key y ≠ key x) ++ [x] := by
  induction xs with
  | nil => rfl
  | cons y xs ih =>
    have hagain : key y ∈ (xs ++ [x]).map key ↔ key y ∈ xs.map key ∨ key y = key x := by simp
    rw [List.cons_append, lastOfEach, lastOfEach, ih]
    simp only [hagain]
    by_cases hy : key y ∈ xs.map key
    · rw [if_pos (Or.inl hy), if_pos hy]
    · by_cases hx : key y = key x
      · rw [if_pos (Or.inr hx), if_neg hy, List.filter_cons_of_neg (by simpa using hx)]
      · rw [if_neg (not_or.mpr ⟨hy, hx⟩), if_neg hy, List.filter_cons_of_pos (by simpa using hx),
          List.cons_append]

theorem firstOfEach_append (xs : List α) (x : α) :
    firstOfEach key (xs ++ [x]) =
      if key x ∈ (firstOfEach key xs).map key then firstOfEach key xs
      else firstOfEach key xs ++ [x] := by
  have hmet : key x ∈ (firstOfEach key xs).map key ↔ key x ∈ xs.reverse.map key := by
    rw [firstOfEach, List.map_reverse, List.mem_reverse, mem_map_lastOfEach]
  rw [firstOfEach, List.reverse_concat, lastOfEach]
  simp only [hmet]
  split_ifs
  · rfl
  · rw [List.reverse_cons]
    rfl

end

/-! ## Registries -/

namespace Registry

variable (r : Registry) (units : List GeneratedUnit) (skips : List Skip) (notices : List Notice)

/-- New units take the places of registered ones with their hint names, and the last of each hint name
stays. -/
theorem units_add : (r.add units skips notices).units =
    r.units.filter (fun v => v.hintName ∉ units.map GeneratedUnit.hintName) ++
      lastOfEach GeneratedUnit.hintName units := by
  change (units.foldl addUnit r).units = _
  induction units using List.reverseRecOn with
  | nil => exact ((List.append_nil _).trans (List.filter_eq_self.mpr (by simp))).symm
  | append_singleton units u ih =>
    have hkept : ∀ v : GeneratedUnit, (decide (v.hintName ∉ (units ++ [u]).map GeneratedUnit.hintName)) =
        (v.hintName != u.hintName && decide (v.hintName ∉ units.map GeneratedUnit.hintName)) := by
      intro v
      by_cases hv : v.hintName = u.hintName <;> simp [hv]
    rw [List.foldl_append, List.foldl_cons, List.foldl_nil, lastOfEach_append, addUnit, ih]
    simp only [hkept, List.filter_append, List.filter_filter, List.append_assoc, ne_eq, decide_not]
    rfl

theorem units_add_empty : (empty.add units skips notices).units =
    lastOfEach GeneratedUnit.hintName units := by rw [units_add]; rfl

theorem foldl_addUnit_eq :
    (units.foldl addUnit r).skips = r.skips ∧ (units.foldl addUnit r).notices = r.notices := by
  induction units generalizing r with
  | nil => exact ⟨rfl, rfl⟩
  | cons u units ih => exact ih (r.addUnit u)

theorem skips_add : (r.add units skips notices).skips = r.skips ++ skips := by
  rw [add, (foldl_addUnit_eq r units).1]

theorem notices_add : (r.add units skips notices).notices = r.notices ++ notices := by
  rw [add, (foldl_addUnit_eq r units).2]

end Registry

end Facade
