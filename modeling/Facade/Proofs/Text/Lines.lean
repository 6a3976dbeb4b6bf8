import Mathlib.Tactic.Common
import Facade.Diagnostic.Render
import Facade.Proofs.Text.Dividing
import Facade.Proofs.Text.Splitting

/-!
# Lines and positions

Positions count line feeds, but an excerpt is taken from lines that end at other characters too.

* `of_mem_splitLinesFrom`, `mem_of_lineAt`: the characters of an excerpt;
* `withoutReturn`, `IsWhole`: lines in which no other line end stands;
* **`lineAt_eq`**, **`lineAt_eq_iff`**: when the excerpt of a line is the line;
* **`line_of_after`**: the line of a position, and what stands in it from the position on.
-/

namespace Facade

namespace Text

theorem of_mem_splitLinesFrom {current cs : List Char} {line : String}
    (h : line ∈ splitLinesFrom current cs) :
    ∀ c ∈ line.toList, c ∈ current ∨ c ∈ cs ∧ isLineEnd c = false := by
  have hclosed : ∀ {current rest cs : List Char} {line : String},
      line = String.ofList current.reverse ∨ line ∈ splitLinesFrom [] rest →
      (line ∈ splitLinesFrom [] rest →
        ∀ c ∈ line.toList, c ∈ ([] : List Char) ∨ c ∈ rest ∧ isLineEnd c = false) →
      (∀ c ∈ rest, c ∈ cs) → ∀ c ∈ line.toList, c ∈ current ∨ c ∈ cs ∧ isLineEnd c = false := by
    intro current rest cs line h ih hrest c hc
    rcases h with rfl | h
    · exact Or.inl (by simpa using hc)
    · exact Or.inr (((ih h c hc).resolve_left List.not_mem_nil).imp_left (hrest c))
  fun_induction splitLinesFrom current cs with
  | case1 current hempty => exact absurd h List.not_mem_nil
  | case2 current hempty =>
    obtain rfl := List.mem_singleton.mp h
    exact fun c hc => Or.inl (by simpa using hc)
  | case3 current rest ih =>
    exact hclosed (List.mem_cons.mp h) ih fun c hc =>
      List.mem_cons_of_mem _ (List.mem_cons_of_mem _ hc)
  | case4 current c rest _ _ ih =>
    exact hclosed (List.mem_cons.mp h) ih fun c hc => List.mem_cons_of_mem _ hc
  | case5 current c rest _ hend ih =>
    intro d hd
    rcases ih h d hd with hcurrent | ⟨hrest, hd⟩
    · rcases List.mem_cons.mp hcurrent with rfl | hcurrent
      · exact Or.inr ⟨List.mem_cons_self, Bool.eq_false_iff.mpr hend⟩
      · exact Or.inl hcurrent
    · exact Or.inr ⟨List.mem_cons_of_mem _ hrest, hd⟩

/-! ## Whole lines -/

/-- A line without the carriage return at its end, if there is one. -/
def withoutReturn (line : String) : String :=
  if line.toList.getLast? = some '\r' then String.ofList line.toList.dropLast else line

/-- No character of the line ends it, a carriage return at its end aside. -/
def IsWhole (line : String) : Prop :=
  Without (fun c => isLineEnd c = true) (withoutReturn line).toList

instance (line : String) : Decidable (IsWhole line) := inferInstanceAs (Decidable (Without _ _))

theorem toList_eq_withoutReturn (line : String) :
    line.toList = (withoutReturn line).toList ∨ line.toList = (withoutReturn line).toList ++ ['\r'] := by
  unfold withoutReturn
  split_ifs with h
  · right
    have hlast := List.dropLast_append_getLast? _ h
    simpa using hlast.symm
  · exact Or.inl rfl

theorem splitLinesFrom_append {u : List Char} (hu : Without (fun c => isLineEnd c = true) u)
    (current cs : List Char) :
    splitLinesFrom current (u ++ cs) = splitLinesFrom (u.reverse ++ current) cs := by
  induction u generalizing current with
  | nil => rfl
  | cons c u ih =>
    have hc : isLineEnd c = false := Bool.eq_false_iff.mpr (hu c List.mem_cons_self)
    have hreturn : c ≠ '\r' := by
      rintro rfl
      exact absurd hc (by decide)
    rw [List.cons_append, splitLinesFrom.eq_3 _ _ _ (fun _ hr _ => hreturn hr), hc]
    simpa using ih (fun d hd => hu d (List.mem_cons_of_mem _ hd)) (c :: current)

theorem splitLinesFrom_line {line : String} (h : IsWhole line) (rest : List Char) :
    splitLinesFrom [] (line.toList ++ '\n' :: rest) = withoutReturn line :: splitLinesFrom [] rest := by
  have hline : String.ofList (withoutReturn line).toList.reverse.reverse = withoutReturn line := by simp
  rcases toList_eq_withoutReturn line with heq | heq
  · rw [heq, splitLinesFrom_append h, List.append_nil,
      splitLinesFrom.eq_3 _ _ _ (fun _ hr _ => absurd hr (by decide)), if_pos (by decide), hline]
  · rw [heq, List.append_assoc, List.singleton_append, splitLinesFrom_append h, List.append_nil,
      splitLinesFrom, hline]

theorem splitLinesFrom_last {line : String} (h : IsWhole line) :
    (splitLinesFrom [] line.toList)[0]?.getD "" = withoutReturn line := by
  have hline : String.ofList (withoutReturn line).toList.reverse.reverse = withoutReturn line := by simp
  rcases toList_eq_withoutReturn line with heq | heq
  · have hsplit := splitLinesFrom_append h [] []
    rw [List.append_nil, List.append_nil] at hsplit
    rw [heq, hsplit, splitLinesFrom]
    split_ifs with hempty
    · have hnil : (withoutReturn line).toList = [] := by simpa using hempty
      rw [← hline, hnil]
      rfl
    · exact hline
  · rw [heq, splitLinesFrom_append h, List.append_nil,
      splitLinesFrom.eq_3 _ _ _ (fun _ _ hr => absurd hr (by simp)), if_pos (by decide), hline]
    rfl

theorem getElem?_splitLinesFrom {lines : List String} {line : String} {k : Nat}
    (hline : lines[k]? = some line) (hwhole : ∀ l ∈ lines.take (k + 1), IsWhole l) :
    (splitLinesFrom [] ("\n".intercalate lines).toList)[k]?.getD "" = withoutReturn line := by
  induction lines generalizing k with
  | nil => cases hline
  | cons l lines ih =>
    have hl : IsWhole l := hwhole l (by simp)
    cases lines with
    | nil =>
      cases k with
      | zero =>
        cases hline
        simpa using splitLinesFrom_last hl
      | succ k => cases hline
    | cons l' lines =>
      have htext : ("\n".intercalate (l :: l' :: lines)).toList =
          l.toList ++ '\n' :: ("\n".intercalate (l' :: lines)).toList := by
        rw [String.intercalate_cons_cons]
        simp
      rw [htext, splitLinesFrom_line hl]
      cases k with
      | zero =>
        cases hline
        rfl
      | succ k =>
        exact ih hline fun m hm => hwhole m (List.mem_cons_of_mem _ hm)

end Text

open Text

/-- The characters of an excerpt come from the source, and none of them ends a line. -/
theorem mem_of_lineAt {source : String} {number : Int} {c : Char}
    (h : c ∈ (lineAt source number).toList) : c ∈ source.toList ∧ isLineEnd c = false := by
  unfold lineAt at h
  split_ifs at h
  · simp at h
  · cases hline : (splitLines source)[(number - 1).toNat]? with
    | none =>
      rw [hline] at h
      simp at h
    | some line =>
      rw [hline, Option.getD_some] at h
      exact (of_mem_splitLinesFrom (List.mem_of_getElem? hline) c h).resolve_left List.not_mem_nil

/-- **The excerpt of a line is the line**, without the carriage return at its end, if it is whole and so are
the lines before it. -/
theorem lineAt_eq {source line : String} {n : Nat} (hline : (split '\n' source)[n]? = some line)
    (hwhole : ∀ l ∈ (split '\n' source).take (n + 1), IsWhole l) :
    lineAt source (n + 1 : Nat) = withoutReturn line := by
  have hread := getElem?_splitLinesFrom hline hwhole
  have hsource : "\n".intercalate (split '\n' source) = source := joined_split '\n' source
  rw [hsource] at hread
  have hnumber : ¬ ((n + 1 : Nat) : Int) < 1 := by omega
  have hindex : (((n + 1 : Nat) : Int) - 1).toNat = n := by omega
  rw [lineAt, if_neg hnumber, hindex]
  exact hread

/-- **Behind whole lines the excerpt of a line is the line** if and only if it is whole. -/
theorem lineAt_eq_iff {source line : String} {n : Nat} (hline : (split '\n' source)[n]? = some line)
    (hbefore : ∀ l ∈ (split '\n' source).take n, IsWhole l) :
    lineAt source (n + 1 : Nat) = withoutReturn line ↔ IsWhole line := by
  constructor
  · intro h c hc
    rw [← h] at hc
    exact Bool.eq_false_iff.mp (mem_of_lineAt hc).2
  · intro h
    refine lineAt_eq hline fun l hl => ?_
    rw [List.take_add_one, hline] at hl
    rcases List.mem_append.mp hl with hl | hl
    · exact hbefore l hl
    · rw [List.mem_singleton.mp hl]
      exact h

theorem Text.getElem?_withoutReturn {line : String} {k : Nat} {c : Char}
    (h : line.toList[k]? = some c) (hc : c ≠ '\r') : (withoutReturn line).toList[k]? = some c := by
  rcases toList_eq_withoutReturn line with heq | heq
  · rwa [← heq]
  · rw [heq, List.getElem?_append] at h
    split_ifs at h
    · exact h
    · exact absurd (List.mem_singleton.mp (List.mem_of_getElem? h)) hc

/-! ## Positions -/

theorem splitFrom_head (mark : Char) (current cs : List Char) :
    (splitFrom mark current cs)[0]? =
      some (String.ofList (current.reverse ++ cs.takeWhile (· ≠ mark))) := by
  induction cs generalizing current with
  | nil => simp [splitFrom]
  | cons c cs ih =>
    rw [splitFrom]
    split_ifs with hc
    · simp [hc]
    · simp [ih, hc]

/-- The line of a position, if the open line holds as many characters as the column says. -/
theorem splitFrom_after (before rest current : List Char) {p : Position}
    (hcolumn : p.column = current.length + 1) :
    ∃ n line, (p.after before).line = p.line + n ∧ 0 < (p.after before).column ∧
      (splitFrom '\n' current (before ++ rest))[n]? = some line ∧
      line.toList.drop ((p.after before).column - 1) = rest.takeWhile (· ≠ '\n') := by
  induction before generalizing current p with
  | nil =>
    refine ⟨0, _, rfl, ?_, splitFrom_head '\n' current rest, ?_⟩
    · rw [Position.after, List.foldl_nil, hcolumn]
      omega
    · rw [Position.after, List.foldl_nil, hcolumn, String.toList_ofList, Nat.add_sub_cancel,
        ← List.length_reverse, List.drop_left]
  | cons c before ih =>
    rw [List.cons_append, splitFrom]
    by_cases hc : c = '\n'
    · have hadvance : p.advance c = ⟨p.offset + 1, p.line + 1, 1⟩ := if_pos hc
      obtain ⟨n, line, hn, hcol, hline, hdrop⟩ := ih [] (p := p.advance c) (by rw [hadvance]; rfl)
      refine ⟨n + 1, line, ?_, hcol, ?_, hdrop⟩
      · change ((p.advance c).after before).line = _
        rw [hn, hadvance, Nat.add_assoc, Nat.add_comm 1]
      · rw [if_pos hc]
        exact hline
    · have hadvance : p.advance c = ⟨p.offset + 1, p.line, p.column + 1⟩ := if_neg hc
      obtain ⟨n, line, hn, hcol, hline, hdrop⟩ :=
        ih (c :: current) (p := p.advance c) (by rw [hadvance, hcolumn]; rfl)
      refine ⟨n, line, ?_, hcol, ?_, hdrop⟩
      · change ((p.advance c).after before).line = _
        rw [hn, hadvance]
      · rw [if_neg hc]
        exact hline

/-- **The line of a position**: from the position on it holds what comes next. -/
theorem line_of_after (before rest : List Char) :
    ∃ n line, (Position.start.after before).line = n + 1 ∧ 0 < (Position.start.after before).column ∧
      (split '\n' (String.ofList (before ++ rest)))[n]? = some line ∧
      line.toList.drop ((Position.start.after before).column - 1) = rest.takeWhile (· ≠ '\n') := by
  obtain ⟨n, line, hn, h⟩ := splitFrom_after before rest [] (p := .start) rfl
  refine ⟨n, line, hn.trans (Nat.add_comm 1 n), ?_⟩
  rwa [split, String.toList_ofList]

end Facade
