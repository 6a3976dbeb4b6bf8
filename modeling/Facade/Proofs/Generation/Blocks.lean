import Mathlib.Tactic.Common
import Facade.Generator.Emit
import Facade.Proofs.Text.Dividing
import Facade.Proofs.Text.Splitting

/-!
# Lines between braces

A line that is a brace by itself opens or closes a block. A text is read line by line, with a count of its
braces, which says what blocks there are and how far a line should be indented.

* `Block.depth`, `Block.headers`: the count of braces, and the blocks that a list of lines opens;
* `Block.WellBracketed`: braces match, all in one block, and lines are indented by their depth;
* `Block.Nested`: lines that were laid out at a depth, with the blocks among them;
* **`Block.Nested.headersFrom_append`**, **`Block.Nested.wellBracketed`**: what is read of such lines.
-/

namespace Facade

open Text

/-! ## Lines and blocks -/

/-- The text has no line end. -/
def IsLine (s : String) : Prop := Without (· = '\n') s.toList

instance (s : String) : Decidable (IsLine s) := inferInstanceAs (Decidable (Without _ _))

theorem isLine_append {a b : String} : IsLine (a ++ b) ↔ IsLine a ∧ IsLine b :=
  without_toList_append

theorem isLine_intercalate {sep : String} {items : List String} (hsep : IsLine sep)
    (h : ∀ i ∈ items, IsLine i) : IsLine (sep.intercalate items) :=
  without_toList_intercalate hsep h

theorem isLine_withArguments {n : String} (hn : IsLine n) {as : List String}
    (h : ∀ a ∈ as, IsLine a) : IsLine (withArguments n as) := by
  unfold withArguments
  split_ifs
  · exact hn
  · simp only [isLine_append]
    exact ⟨⟨⟨hn, by decide⟩, isLine_intercalate (by decide) h⟩, by decide⟩

/-- The number of blanks before a line. -/
def indentation (line : String) : Nat := (line.toList.takeWhile (· == ' ')).length

/-- A line without the blanks before it. -/
def unindented (line : String) : String := String.ofList (line.toList.dropWhile (· == ' '))

namespace Block

/-- The line is an opening brace. -/
def opens (line : String) : Bool := unindented line == "\x7b"

/-- The line is a closing brace. -/
def closes (line : String) : Bool := unindented line == "\x7d"

/-- The blocks that are open after some lines: the opening braces less the closing ones. -/
def depth (lines : List String) : Int := (lines.countP opens : Int) - lines.countP closes

/-- The blocks around a line, given the lines before it; the brace that closes a block is not in it. -/
def enclosing (before : List String) (line : String) : Int :=
  if closes line then depth before - 1 else depth before

/-- The blocks that lines open, in order, each with the number of blocks around it and its header, which
is the line above its brace. `depth` blocks are open, and `above` is the line above the lines. -/
def headersFrom (depth : Int) (above : String) : List String → List (Int × String)
  | [] => []
  | l :: ls =>
    if opens l then (depth, unindented above) :: headersFrom (depth + 1) l ls
    else headersFrom (if closes l then depth - 1 else depth) l ls

/-- The blocks of a text. -/
def headers (lines : List String) : List (Int × String) := headersFrom 0 "" lines

/-- The braces match: no block is closed that is not open, and once a block is open, the last line is the
first that leaves none open. Lines are indented by four blanks for each block around them. -/
structure WellBracketed (lines : List String) : Prop where
  nonneg : ∀ before after, lines = before ++ after → 0 ≤ depth before
  last : ∀ before more after, lines = before ++ more ++ after → 0 < depth before →
    depth (before ++ more) = 0 → after = []
  balanced : depth lines = 0
  indented : ∀ before line after, lines = before ++ line :: after → line ≠ "" →
    (indentation line : Int) = 4 * enclosing before line

@[simp] theorem depth_nil : depth [] = 0 := rfl

theorem depth_append (as bs : List String) : depth (as ++ bs) = depth as + depth bs := by
  simp only [depth, List.countP_append]
  omega

theorem enclosing_append (as before : List String) (line : String) :
    enclosing (as ++ before) line = depth as + enclosing before line := by
  unfold enclosing
  split_ifs
  · rw [depth_append]
    omega
  · rw [depth_append]

/-! ## Indented lines -/

/-- The text begins with a sign that is neither a blank nor a brace. -/
def BeginsPlain (t : String) : Prop :=
  t.toList.head?.any (fun c => c != ' ' && c != '\x7b' && c != '\x7d') = true

instance (t : String) : Decidable (BeginsPlain t) := inferInstanceAs (Decidable (_ = true))

theorem BeginsPlain.append {s : String} (h : BeginsPlain s) (t : String) : BeginsPlain (s ++ t) := by
  unfold BeginsPlain at h ⊢
  rw [String.toList_append]
  cases hs : s.toList with
  | nil => simp [hs] at h
  | cons c cs => simpa [hs] using h

/-- The text begins with a sign other than a blank. -/
def BeginsBare (t : String) : Prop := ∃ c cs, t.toList = c :: cs ∧ (c == ' ') = false

theorem BeginsPlain.beginsBare {t : String} (h : BeginsPlain t) : BeginsBare t := by
  unfold BeginsPlain at h
  cases ht : t.toList with
  | nil => simp [ht] at h
  | cons c cs =>
    refine ⟨c, cs, ht, beq_eq_false_iff_ne.mpr ?_⟩
    rintro rfl
    rw [ht, List.head?_cons] at h
    exact absurd h (by decide)

theorem BeginsPlain.ne {t s : String} (h : BeginsPlain t) (hs : ¬ BeginsPlain s) : t ≠ s :=
  fun heq => hs (heq ▸ h)

theorem beginsBare_braces : BeginsBare "\x7b" ∧ BeginsBare "\x7d" :=
  ⟨⟨'\x7b', [], by decide, by decide⟩, ⟨'\x7d', [], by decide, by decide⟩⟩

theorem indented_empty (d : Nat) : Code.indented d "" = "" := rfl

theorem toList_indented {t : String} (h : BeginsBare t) (d : Nat) :
    (Code.indented d t).toList = List.replicate (4 * d) ' ' ++ t.toList := by
  obtain ⟨c, cs, ht, -⟩ := h
  have hne : t.isEmpty = false := by
    rw [Bool.eq_false_iff, ne_eq, String.isEmpty_iff]
    rintro rfl
    cases ht
  simp [Code.indented, hne]

theorem indentation_indented {t : String} (h : BeginsBare t) (d : Nat) :
    indentation (Code.indented d t) = 4 * d := by
  obtain ⟨c, cs, ht, hc⟩ := id h
  rw [indentation, toList_indented h, ht, List.takeWhile_append_of_pos (by simp), List.takeWhile_cons,
    hc]
  simp

theorem unindented_indented {t : String} (h : BeginsBare t) (d : Nat) :
    unindented (Code.indented d t) = t := by
  obtain ⟨c, cs, ht, hc⟩ := id h
  rw [unindented, toList_indented h, ht, List.dropWhile_append_of_pos (by simp), List.dropWhile_cons,
    hc]
  exact (congrArg String.ofList ht.symm).trans String.ofList_toList

theorem isLine_indented {t : String} (h : IsLine t) (d : Nat) : IsLine (Code.indented d t) := by
  unfold Code.indented
  split_ifs
  · exact fun c hc => absurd hc (by simp)
  · rw [IsLine, String.toList_append, without_append]
    refine ⟨fun c hc => ?_, h⟩
    rw [String.toList_ofList] at hc
    rw [List.eq_of_mem_replicate hc]
    decide

theorem not_brace_indented {t : String} (h : t = "" ∨ BeginsPlain t) (d : Nat) :
    opens (Code.indented d t) = false ∧ closes (Code.indented d t) = false := by
  rcases h with rfl | h
  · rw [indented_empty]
    decide
  · rw [opens, closes, unindented_indented h.beginsBare]
    exact ⟨beq_eq_false_iff_ne.mpr (h.ne (by decide)), beq_eq_false_iff_ne.mpr (h.ne (by decide))⟩

theorem opening_indented (d : Nat) :
    opens (Code.indented d "\x7b") = true ∧ closes (Code.indented d "\x7b") = false := by
  rw [opens, closes, unindented_indented beginsBare_braces.1]
  decide

theorem closing_indented (d : Nat) :
    opens (Code.indented d "\x7d") = false ∧ closes (Code.indented d "\x7d") = true := by
  rw [opens, closes, unindented_indented beginsBare_braces.2]
  decide

theorem depth_line {l : String} (h : opens l = false ∧ closes l = false) : depth [l] = 0 := by
  simp [depth, h.1, h.2]

theorem depth_opening (d : Nat) : depth [Code.indented d "\x7b"] = 1 := by
  simp [depth, opening_indented d]

theorem depth_closing (d : Nat) : depth [Code.indented d "\x7d"] = -1 := by
  simp [depth, closing_indented d]

/-! ## Nested lines -/

/-- The lines of a block. -/
def linesOf (d : Nat) (header : String) (body : List String) : List String :=
  Code.indented d header :: Code.indented d "\x7b" :: (body ++ [Code.indented d "\x7d"])

/-- Lines that were laid out within `d` blocks, and the blocks that they open. -/
inductive Nested : Nat → List String → List (Int × String) → Prop
  | nil {d} : Nested d [] []
  | line {d t} : IsLine t → (t = "" ∨ BeginsPlain t) → Nested d [Code.indented d t] []
  | block {d header body hs} : IsLine header → BeginsPlain header → Nested (d + 1) body hs →
      Nested d (linesOf d header body) (((d : Int), header) :: hs)
  | append {d as bs hs ks} : Nested d as hs → Nested d bs ks → Nested d (as ++ bs) (hs ++ ks)

/-- Where the lines of a block are divided: before its header, before its brace, in what it holds, or at
its end. -/
theorem linesOf_split {d : Nat} {header : String} {body before after : List String}
    (h : linesOf d header body = before ++ after) :
    (before = [] ∧ after = linesOf d header body) ∨
      (before = [Code.indented d header] ∧
        after = Code.indented d "\x7b" :: (body ++ [Code.indented d "\x7d"])) ∨
      (∃ b w, body = b ++ w ∧ before = Code.indented d header :: Code.indented d "\x7b" :: b ∧
        after = w ++ [Code.indented d "\x7d"]) ∨
      (before = linesOf d header body ∧ after = []) := by
  match before, h with
  | [], h => exact Or.inl ⟨rfl, h.symm⟩
  | [l], h =>
    obtain ⟨rfl, rfl⟩ := List.cons.inj h
    exact Or.inr (Or.inl ⟨rfl, rfl⟩)
  | l :: l' :: b, h =>
    obtain ⟨rfl, htail⟩ := List.cons.inj h
    obtain ⟨rfl, hrest⟩ := List.cons.inj htail
    rcases List.append_eq_append_iff.mp hrest with ⟨w, rfl, hw⟩ | ⟨w, rfl, rfl⟩
    · cases w with
      | nil => exact Or.inr (Or.inr (Or.inl ⟨body, [], by simp, by simp, by simpa using hw.symm⟩))
      | cons x w =>
        obtain ⟨rfl, hnil⟩ := List.cons.inj hw
        obtain ⟨rfl, rfl⟩ := List.append_eq_nil_iff.mp hnil.symm
        exact Or.inr (Or.inr (Or.inr ⟨rfl, rfl⟩))
    · exact Or.inr (Or.inr (Or.inl ⟨b, w, rfl, rfl, rfl⟩))

theorem depth_within {d : Nat} {header : String} (hbegins : BeginsPlain header) (b : List String) :
    depth (Code.indented d header :: Code.indented d "\x7b" :: b) = 1 + depth b := by
  have hsplit : Code.indented d header :: Code.indented d "\x7b" :: b =
      [Code.indented d header] ++ ([Code.indented d "\x7b"] ++ b) := rfl
  rw [hsplit, depth_append, depth_append, depth_line (not_brace_indented (Or.inr hbegins) d),
    depth_opening, Int.zero_add]

theorem depth_linesOf {d : Nat} {header : String} (hbegins : BeginsPlain header) (body : List String) :
    depth (linesOf d header body) = depth body := by
  rw [linesOf, depth_within hbegins, depth_append, depth_closing]
  omega

namespace Nested

variable {d : Nat} {ls : List String} {hs : List (Int × String)}

theorem isLine (h : Nested d ls hs) : ∀ l ∈ ls, IsLine l := by
  induction h with
  | nil => exact fun l hl => absurd hl List.not_mem_nil
  | line hline _ => exact fun l hl => List.mem_singleton.mp hl ▸ isLine_indented hline _
  | @block d header body hs hline hbegins _ ih =>
    have hbraces : Without (· = '\n') "\x7b".toList ∧ Without (· = '\n') "\x7d".toList := by
      decide
    intro l hl
    simp only [linesOf, List.mem_cons, List.mem_append, List.not_mem_nil, or_false] at hl
    rcases hl with rfl | rfl | hl | rfl
    · exact isLine_indented hline _
    · exact isLine_indented hbraces.1 _
    · exact ih l hl
    · exact isLine_indented hbraces.2 _
  | append _ _ ih ih' => exact fun l hl => (List.mem_append.mp hl).elim (ih l) (ih' l)

/-- Lines close the blocks that they open. -/
theorem depth (h : Nested d ls hs) : Block.depth ls = 0 := by
  induction h with
  | nil => rfl
  | line _ ht => exact depth_line (not_brace_indented ht _)
  | block _ hbegins _ ih => rw [depth_linesOf hbegins, ih]
  | append _ _ ih ih' => rw [depth_append, ih, ih', Int.add_zero]

theorem nonneg (h : Nested d ls hs) :
    ∀ before after, ls = before ++ after → 0 ≤ Block.depth before := by
  induction h with
  | nil =>
    intro before after heq
    rw [(List.append_eq_nil_iff.mp heq.symm).1]
    exact Int.le_of_eq depth_nil.symm
  | @line d t hline ht =>
    intro before after heq
    have hwhole := (Nested.line (d := d) hline ht).depth
    rcases List.singleton_eq_append_iff.mp heq with ⟨rfl, -⟩ | ⟨rfl, -⟩
    · exact Int.le_of_eq depth_nil.symm
    · exact Int.le_of_eq hwhole.symm
  | @block d header body hs hline hbegins hbody ih =>
    intro before after heq
    rcases linesOf_split heq with ⟨rfl, -⟩ | ⟨rfl, -⟩ | ⟨b, w, rfl, rfl, -⟩ | ⟨rfl, -⟩
    · exact Int.le_of_eq depth_nil.symm
    · exact Int.le_of_eq (depth_line (not_brace_indented (Or.inr hbegins) d)).symm
    · have hb := ih b w rfl
      rw [depth_within hbegins]
      omega
    · exact Int.le_of_eq ((depth_linesOf hbegins body).trans hbody.depth).symm
  | @append d as bs hs ks has _ ih ih' =>
    intro before after heq
    rcases List.append_eq_append_iff.mp heq with ⟨w, rfl, hw⟩ | ⟨w, rfl, -⟩
    · rw [depth_append, has.depth, Int.zero_add]
      exact ih' w after hw
    · exact ih before w rfl

theorem indented (h : Nested d ls hs) : ∀ before line after, ls = before ++ line :: after →
    line ≠ "" → (indentation line : Int) = 4 * (d + enclosing before line) := by
  have hbegins : ∀ {d : Nat} {t : String}, BeginsPlain t →
      (indentation (Code.indented d t) : Int) = 4 * (d + enclosing [] (Code.indented d t)) := by
    intro d t ht
    rw [indentation_indented ht.beginsBare, enclosing, (not_brace_indented (Or.inr ht) d).2]
    simp [Block.depth]
  induction h with
  | nil => exact fun before line after heq => absurd heq (by simp)
  | @line d t _ ht =>
    intro before line after heq hne
    obtain ⟨rfl, heq⟩ : before = [] ∧ [Code.indented d t] = line :: after := by
      rcases List.singleton_eq_append_iff.mp heq with h | ⟨-, h⟩
      · exact ⟨h.1, h.2.symm⟩
      · cases h
    obtain ⟨rfl, -⟩ := List.cons.inj heq
    rcases ht with rfl | ht
    · exact absurd (indented_empty d) hne
    · exact hbegins ht
  | @block d header body hs _ hheader hbody ih =>
    intro before line after heq hne
    rcases linesOf_split heq with ⟨rfl, h⟩ | ⟨rfl, h⟩ | ⟨b, w, rfl, rfl, h⟩ | ⟨-, h⟩
    · obtain ⟨rfl, -⟩ := List.cons.inj h
      exact hbegins hheader
    · obtain ⟨rfl, -⟩ := List.cons.inj h
      rw [indentation_indented beginsBare_braces.1, enclosing, (opening_indented d).2,
        depth_line (not_brace_indented (Or.inr hheader) d)]
      simp
    · cases w with
      | nil =>
        obtain ⟨rfl, -⟩ := List.cons.inj h
        have hdepth : Block.depth b = 0 := by simpa using hbody.depth
        rw [indentation_indented beginsBare_braces.2, enclosing, (closing_indented d).2,
          depth_within hheader, hdepth]
        simp
      | cons x w =>
        obtain ⟨rfl, -⟩ := List.cons.inj h
        have hx := ih b line w rfl hne
        have hopened : enclosing (Code.indented d header :: Code.indented d "\x7b" :: b) line =
            1 + enclosing b line := by
          unfold enclosing
          rw [depth_within hheader]
          split_ifs <;> omega
        rw [hx, hopened]
        omega
    · cases h
  | @append d as bs hs ks has _ ih ih' =>
    intro before line after heq hne
    rcases List.append_eq_append_iff.mp heq with ⟨w, rfl, hw⟩ | ⟨w, rfl, hw⟩
    · rw [enclosing_append, has.depth, Int.zero_add]
      exact ih' w line after hw hne
    · cases w with
      | nil =>
        have hbefore : Block.depth before = 0 := by simpa using has.depth
        have happend := enclosing_append before [] line
        rw [List.append_nil, hbefore, Int.zero_add] at happend
        rw [happend]
        exact ih' [] line after hw.symm hne
      | cons x w =>
        obtain ⟨rfl, -⟩ := List.cons.inj hw
        exact ih before line w rfl hne

/-- The blocks that lines open are told from them. -/
theorem headersFrom_append (h : Nested d ls hs) (above : String) (rest : List String) :
    headersFrom d above (ls ++ rest) = hs ++ headersFrom d (ls.getLast?.getD above) rest := by
  have hplain : ∀ {l : String} {depth : Int} {above : String} {ls : List String},
      opens l = false ∧ closes l = false →
        headersFrom depth above (l :: ls) = headersFrom depth l ls := by
    intro l depth above ls hl
    rw [headersFrom, hl.1, hl.2]
    simp
  induction h generalizing above rest with
  | nil => rfl
  | line _ ht => exact hplain (not_brace_indented ht _)
  | @block d header body hs _ hheader _ ih =>
    have hbody := ih (Code.indented d "\x7b") (Code.indented d "\x7d" :: rest)
    have hlast : ((linesOf d header body).getLast?.getD above) = Code.indented d "\x7d" := by
      rw [linesOf, ← List.cons_append, ← List.cons_append, List.getLast?_concat]
      rfl
    rw [hlast, linesOf, List.cons_append, List.cons_append, List.append_assoc, List.singleton_append,
      hplain (not_brace_indented (Or.inr hheader) d), headersFrom, (opening_indented d).1, if_pos rfl,
      unindented_indented hheader.beginsBare, List.cons_append]
    push_cast at hbody
    rw [hbody, headersFrom, (closing_indented d).1, (closing_indented d).2]
    simp
  | @append d as bs hs ks _ _ ih ih' =>
    have hlast : ((as ++ bs).getLast?.getD above) = bs.getLast?.getD (as.getLast?.getD above) := by
      rw [List.getLast?_append]
      cases bs.getLast? <;> rfl
    rw [List.append_assoc, ih, ih', hlast, List.append_assoc]

theorem depth_of_flat (h : Nested d ls hs) (hflat : hs = []) :
    ∀ before after, ls = before ++ after → Block.depth before = 0 := by
  induction h with
  | nil =>
    intro before after heq
    rw [(List.append_eq_nil_iff.mp heq.symm).1, depth_nil]
  | line _ ht =>
    intro before after heq
    rcases List.singleton_eq_append_iff.mp heq with ⟨rfl, -⟩ | ⟨rfl, -⟩
    · exact depth_nil
    · exact depth_line (not_brace_indented ht _)
  | block => cases hflat
  | append has _ ih ih' =>
    obtain ⟨hfirst, hsecond⟩ := List.append_eq_nil_iff.mp hflat
    intro before after heq
    rcases List.append_eq_append_iff.mp heq with ⟨w, rfl, hw⟩ | ⟨w, rfl, -⟩
    · rw [depth_append, has.depth, Int.zero_add]
      exact ih' hsecond w after hw
    · exact ih hfirst before w rfl

/-- **A block after lines that open none is well bracketed.** -/
theorem wellBracketed {flat body : List String} {header : String} (hflat : Nested 0 flat [])
    (hline : IsLine header) (hbegins : BeginsPlain header) (hbody : Nested 1 body hs) :
    WellBracketed (flat ++ linesOf 0 header body) := by
  have hwhole := hflat.append (.block hline hbegins hbody)
  refine ⟨hwhole.nonneg, ?last, hwhole.depth, by simpa using hwhole.indented⟩
  intro before more after heq hpos hzero
  -- Before the brace of the block nothing is open.
  have hopened : ∀ {xs ys}, Nested 0 xs ys → ys = [] → xs ≠ before ++ more := by
    intro xs ys hxs hys hx
    rw [hxs.depth_of_flat hys before more hx] at hpos
    exact absurd hpos (by decide)
  rcases List.append_eq_append_iff.mp heq with ⟨w, hw, hblock⟩ | ⟨w, hw, -⟩
  · rcases linesOf_split hblock with ⟨rfl, -⟩ | ⟨rfl, -⟩ | ⟨b, v, rfl, rfl, -⟩ | ⟨-, hafter⟩
    · exact absurd (by simpa using hw.symm) (hopened hflat rfl)
    · exact absurd hw.symm (hopened (hflat.append (.line hline (Or.inr hbegins))) rfl)
    · have hb := hbody.nonneg b v rfl
      rw [hw, depth_append, hflat.depth, depth_within hbegins] at hzero
      omega
    · exact hafter
  · rw [hflat.depth_of_flat rfl before (more ++ w) (by rw [hw, List.append_assoc])] at hpos
    exact absurd hpos (by decide)

end Nested

end Block

end Facade
