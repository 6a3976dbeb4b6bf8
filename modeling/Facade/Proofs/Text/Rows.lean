import Mathlib.Data.Prod.Lex
import Mathlib.Tactic.Common
import Facade.Text.Position

/-!
# Stretches in a row

Lines and columns put the places of a source in order. Stretches of it stand in a row if each of them ends
before the next one begins.

* `Place`, `Position.place`: places, ordered by line and column;
* `Span.Within`, `Span.Before`: one stretch in another one, and one behind another one;
* `Position.place_le_after`, `Position.place_lt_after`: text leads on;
* `Row`: stretches in a row between two places;
* `Row.sublist`, `Row.split`, `Row.around`: what is left of a row, its parts, and what it covers.
-/

namespace Facade

/-- A place in a source: line and column, the line first. -/
abbrev Place := Int ×ₗ Int

/-- The line and column of a position. -/
def Position.place (p : Position) : Place := toLex (p.line, p.column)

namespace Span

/-- Where a stretch begins. -/
def start (s : Span) : Place := toLex (s.line, s.column)

/-- Where a stretch ends. -/
def stop (s : Span) : Place := toLex (s.endLine, s.endColumn)

/-- The stretch is part of the other one. -/
def Within (s t : Span) : Prop := t.start ≤ s.start ∧ s.stop ≤ t.stop

/-- The stretch ends before the other one begins. -/
def Before (s t : Span) : Prop := s.stop ≤ t.start

end Span

namespace Position

theorem place_lt_advance (p : Position) (c : Char) : p.place < (p.advance c).place := by
  unfold advance place
  rw [Prod.Lex.toLex_lt_toLex]
  split_ifs
  · exact Or.inl (by push_cast; omega)
  · exact Or.inr ⟨rfl, by push_cast; omega⟩

/-- **Text does not lead back.** -/
theorem place_le_after (p : Position) (cs : List Char) : p.place ≤ (p.after cs).place := by
  induction cs generalizing p with
  | nil => exact le_refl _
  | cons c cs ih => exact (place_lt_advance p c).le.trans (ih (p.advance c))

theorem place_lt_after (p : Position) {cs : List Char} (h : cs ≠ []) :
    p.place < (p.after cs).place := by
  obtain ⟨c, cs, rfl⟩ := List.exists_cons_of_ne_nil h
  exact (place_lt_advance p c).trans_le (place_le_after (p.advance c) cs)

end Position

/-! ## Rows -/

/-- Between two places stand these stretches, each of them behind the ones before. -/
inductive Row : Place → Place → List Span → Prop
  | nil {lo hi} : lo ≤ hi → Row lo hi []
  | cons {lo hi s spans} : lo ≤ s.start → s.start < s.stop → Row s.stop hi spans →
      Row lo hi (s :: spans)

namespace Row

variable {lo lo' mid hi hi' : Place} {s : Span} {xs ys : List Span}

theorem le (h : Row lo hi xs) : lo ≤ hi := by
  induction h with
  | nil h => exact h
  | cons hstart hproper _ ih => exact hstart.trans (hproper.le.trans ih)

theorem widen (h : Row lo hi xs) (hlo : lo' ≤ lo) (hhi : hi ≤ hi') : Row lo' hi' xs := by
  induction h generalizing lo' with
  | nil h => exact .nil (hlo.trans (h.trans hhi))
  | cons hstart hproper _ ih => exact .cons (hlo.trans hstart) hproper (ih (le_refl _) hhi)

theorem append (h : Row lo mid xs) (h' : Row mid hi ys) : Row lo hi (xs ++ ys) := by
  induction h with
  | nil h => exact h'.widen h (le_refl _)
  | cons hstart hproper _ ih => exact .cons hstart hproper (ih h')

theorem singleton (hlo : lo ≤ s.start) (hproper : s.start < s.stop) (hhi : s.stop ≤ hi) :
    Row lo hi [s] := .cons hlo hproper (.nil hhi)

/-- The parts of a row are rows, one behind the other. -/
theorem split (h : Row lo hi (xs ++ ys)) : ∃ mid, Row lo mid xs ∧ Row mid hi ys := by
  induction xs generalizing lo with
  | nil => exact ⟨lo, .nil (le_refl lo), h⟩
  | cons x xs ih =>
    cases h with
    | cons hstart hproper hrest =>
      obtain ⟨mid, hxs, hys⟩ := ih hrest
      exact ⟨mid, .cons hstart hproper hxs, hys⟩

/-- **Some stretches of a row stand in a row.** -/
theorem sublist (h : Row lo hi ys) (hsub : xs.Sublist ys) : Row lo hi xs := by
  induction hsub generalizing lo with
  | slnil => exact h
  | cons y _ ih =>
    cases h with
    | cons hstart hproper hrest => exact (ih hrest).widen (hstart.trans hproper.le) (le_refl hi)
  | cons_cons y _ ih =>
    cases h with
    | cons hstart hproper hrest => exact .cons hstart hproper (ih hrest)

theorem bounds (h : Row lo hi xs) (hs : s ∈ xs) :
    lo ≤ s.start ∧ s.start < s.stop ∧ s.stop ≤ hi := by
  induction h with
  | nil => cases hs
  | cons hstart hproper hrest ih =>
    rcases List.mem_cons.mp hs with rfl | hs
    · exact ⟨hstart, hproper, hrest.le⟩
    · obtain ⟨hlo, hmem⟩ := ih hs
      exact ⟨hstart.trans (hproper.le.trans hlo), hmem⟩

theorem pairwise (h : Row lo hi xs) : xs.Pairwise Span.Before := by
  induction h with
  | nil => exact .nil
  | cons _ _ hrest ih => exact .cons (fun t ht => (hrest.bounds ht).1) ih

/-- **Stretches stand in a row** if each of them has room and ends before the ones behind it. -/
theorem of_pairwise (hle : lo ≤ hi)
    (hbounds : ∀ s ∈ xs, lo ≤ s.start ∧ s.start < s.stop ∧ s.stop ≤ hi)
    (horder : xs.Pairwise Span.Before) : Row lo hi xs := by
  induction xs generalizing lo with
  | nil => exact .nil hle
  | cons s xs ih =>
    obtain ⟨hbehind, horder⟩ := List.pairwise_cons.mp horder
    obtain ⟨hs, hxs⟩ := List.forall_mem_cons.mp hbounds
    exact .cons hs.1 hs.2.1 (ih hs.2.2 (fun t ht => ⟨hbehind t ht, (hxs t ht).2⟩) horder)

/-- What a row covers, from its first to its last stretch. -/
theorem around (h : Row lo hi xs) {first last : Span} (hfirst : xs.head? = some first)
    (hlast : xs.getLast? = some last) :
    lo ≤ first.start ∧ last.stop ≤ hi ∧ Row first.start last.stop xs := by
  obtain ⟨ys, rfl⟩ := List.getLast?_eq_some_iff.mp hlast
  obtain ⟨mid, hys, hend⟩ := h.split
  have hmem : first ∈ ys ++ [last] := List.mem_of_head? hfirst
  refine ⟨(h.bounds hmem).1, (h.bounds (by simp)).2.2, ?_⟩
  have htight : Row lo last.stop (ys ++ [last]) := hys.append (by
    cases hend with
    | cons hstart hproper _ => exact singleton hstart hproper (le_refl _))
  cases ys with
  | nil =>
    cases hfirst
    cases htight with
    | cons _ hproper hrest => exact .cons (le_refl _) hproper hrest
  | cons y ys =>
    cases hfirst
    cases htight with
    | cons _ hproper hrest => exact .cons (le_refl _) hproper hrest

end Row

end Facade
