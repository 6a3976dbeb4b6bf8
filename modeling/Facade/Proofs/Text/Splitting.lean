import Mathlib.Tactic.Common
import Facade.Text.Split

/-!
# Texts divided at a mark

A text and its pieces between the marks determine each other.

* `of_mem_splitFrom`, `split_of_not_mem`: there are no marks in the pieces;
* **`joined_split`**, **`split_joined`**: pieces and the text that they make up;
* **`split_append`**: the pieces of two texts;
* **`intercalate_split`**, **`split_intercalate`**: dividing a dotted name and joining its names.
-/

namespace Facade.Text

theorem splitFrom_of_not_mem {mark : Char} {cs : List Char} (h : mark ∉ cs) (current : List Char) :
    splitFrom mark current cs = [String.ofList (current.reverse ++ cs)] := by
  induction cs generalizing current with
  | nil => simp [splitFrom]
  | cons c cs ih =>
    simp only [List.mem_cons, not_or] at h
    rw [splitFrom, if_neg (Ne.symm h.1), ih h.2]
    simp

theorem of_mem_splitFrom {mark : Char} {current cs : List Char} {part : String}
    (h : part ∈ splitFrom mark current cs) : ∀ c ∈ part.toList, c ∈ current ∨ c ∈ cs ∧ c ≠ mark := by
  induction cs generalizing current with
  | nil =>
    obtain rfl := List.mem_singleton.mp h
    intro c hc
    exact .inl (by simpa using hc)
  | cons e cs ih =>
    rw [splitFrom] at h
    split_ifs at h with he
    · rcases List.mem_cons.mp h with rfl | h
      · intro c hc
        exact .inl (by simpa using hc)
      · intro c hc
        rcases ih h c hc with hcurrent | ⟨hmem, hne⟩
        · cases hcurrent
        · exact .inr ⟨List.mem_cons_of_mem _ hmem, hne⟩
    · intro c hc
      rcases ih h c hc with hcurrent | ⟨hmem, hne⟩
      · rcases List.mem_cons.mp hcurrent with rfl | hcurrent
        · exact .inr ⟨List.mem_cons_self, he⟩
        · exact .inl hcurrent
      · exact .inr ⟨List.mem_cons_of_mem _ hmem, hne⟩

theorem split_of_not_mem {mark : Char} {s : String} (h : mark ∉ s.toList) : split mark s = [s] := by
  rw [split, splitFrom_of_not_mem h]
  simp

theorem splitFrom_ne_nil (mark : Char) (current cs : List Char) : splitFrom mark current cs ≠ [] := by
  induction cs generalizing current with
  | nil => simp [splitFrom]
  | cons c cs ih =>
    rw [splitFrom]
    split_ifs
    · simp
    · exact ih _

theorem split_ne_nil (mark : Char) (s : String) : split mark s ≠ [] := splitFrom_ne_nil _ _ _

/-- **The pieces of a text make it up**, with the marks between them. -/
theorem joined_split (mark : Char) (s : String) : mark.toString.intercalate (split mark s) = s := by
  have hpieces : ∀ (cs current : List Char),
      mark.toString.intercalate (splitFrom mark current cs) =
        String.ofList (current.reverse ++ cs) := by
    intro cs
    induction cs with
    | nil => simp [splitFrom]
    | cons c cs ih =>
      intro current
      rw [splitFrom]
      split_ifs with hc
      · obtain ⟨piece, pieces, hp⟩ := List.exists_cons_of_ne_nil (splitFrom_ne_nil mark [] cs)
        rw [hp, String.intercalate_cons_cons, ← hp, ih, hc]
        apply String.ext
        simp
      · rw [ih]
        simp
  rw [split, hpieces]
  simp

/-- **The pieces of a dotted name make up the name.** -/
theorem intercalate_split (s : String) : ".".intercalate (split '.' s) = s := joined_split '.' s

/-- **The pieces of two texts with a mark between them** are those of both. -/
theorem split_append (mark : Char) (s t : String) :
    split mark (s ++ mark.toString ++ t) = split mark s ++ split mark t := by
  have hpieces : ∀ cs current : List Char, splitFrom mark current (cs ++ mark :: t.toList) =
      splitFrom mark current cs ++ splitFrom mark [] t.toList := by
    intro cs
    induction cs with
    | nil => simp [splitFrom]
    | cons c cs ih =>
      intro current
      rw [List.cons_append, splitFrom, splitFrom]
      split_ifs with hc
      · rw [ih, List.cons_append]
      · exact ih (c :: current)
  have htext : (s ++ mark.toString ++ t).toList = s.toList ++ mark :: t.toList := by simp
  rw [split, htext, hpieces]
  rfl

/-- **Pieces that are joined by marks are divided again**, if they hold no mark themselves. -/
theorem split_joined (mark : Char) {pieces : List String} (hne : pieces ≠ [])
    (h : ∀ p ∈ pieces, mark ∉ p.toList) : split mark (mark.toString.intercalate pieces) = pieces := by
  induction pieces with
  | nil => exact absurd rfl hne
  | cons p pieces ih =>
    have hp := split_of_not_mem (h p List.mem_cons_self)
    cases pieces with
    | nil => simpa using hp
    | cons q pieces =>
      rw [String.intercalate_cons_cons, split_append, hp,
        ih (by simp) fun n hn => h n (List.mem_cons_of_mem _ hn)]
      rfl

/-- **The pieces of names that are joined by dots are the names.** -/
theorem split_intercalate {names : List String} (hne : names ≠ [])
    (h : ∀ n ∈ names, '.' ∉ n.toList) : split '.' (".".intercalate names) = names :=
  split_joined '.' hne h

end Facade.Text
