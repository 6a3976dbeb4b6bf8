import Mathlib.Data.Nat.Digits.Defs
import Mathlib.Tactic.Common
import Facade.Proofs.Text.Lines

/-!
# Colours are decoration

The diagnostics that a terminal shows in colours are those that are written without. Escape sequences are
all that colours add to a text.

* `Terminal.withoutSequences`: what is left of a text without its escape sequences;
* `Terminal.ReadsAs`: a text that is read as another one, whatever follows;
* `Segment.readsAs_written`, `readsAs_writeLine`: segments and lines in colours;
* `showFile_plain`: the shown name of a file holds no escape character if the name holds none;
* `Reporter.OfPlain`: reporters to which messages without escape characters were added;
* **`Reporter.withoutSequences_format`**: all diagnostics of such a reporter.
-/

namespace Facade

open Text

/-! ## Escape sequences -/

namespace Terminal

/-- The character that begins every escape sequence. -/
def escape : Char := '\x1b'

/-- The character lies between the other two, or is one of them. -/
def isBetween (low high c : Char) : Bool := low.toNat ≤ c.toNat && c.toNat ≤ high.toNat

/-- The number of characters after the escape character that make up an escape sequence with it: a bracket
with parameters, intermediate characters and a final one, or a single character. -/
def sequenceLength? : List Char → Option Nat
  | [] => none
  | c :: cs =>
    if c = '[' then
      let parameters := cs.takeWhile (isBetween '0' '?')
      let rest := cs.drop parameters.length
      let middle := rest.takeWhile (isBetween ' ' '/')
      if (rest.drop middle.length).head?.any (isBetween '@' '~') then
        some (parameters.length + middle.length + 2)
      else none
    else if isBetween '@' '_' c then some 1
    else none

/-- What is left of a text without its escape sequences, after as many characters as are still to be left
out. -/
def leftFrom : Nat → List Char → List Char
  | _, [] => []
  | skipped + 1, _ :: cs => leftFrom skipped cs
  | 0, c :: cs =>
    if c = escape then
      match sequenceLength? cs with
      | some n => leftFrom n cs
      | none => c :: leftFrom 0 cs
    else c :: leftFrom 0 cs

/-- A text without its escape sequences. -/
def withoutSequences (s : String) : String := String.ofList (leftFrom 0 s.toList)

/-- There is no escape character in the text. -/
def IsPlain (s : String) : Prop := Without (· = escape) s.toList

instance (s : String) : Decidable (IsPlain s) := inferInstanceAs (Decidable (Without _ _))

theorem isPlain_append {a b : String} : IsPlain (a ++ b) ↔ IsPlain a ∧ IsPlain b :=
  without_toList_append

theorem isPlain_intercalate {sep : String} {items : List String} (hsep : IsPlain sep)
    (h : ∀ i ∈ items, IsPlain i) : IsPlain (sep.intercalate items) :=
  without_toList_intercalate hsep h

theorem isPlain_replicate {c : Char} (hc : c ≠ escape) (n : Nat) :
    IsPlain (String.ofList (List.replicate n c)) := by
  intro d hd
  rw [String.toList_ofList] at hd
  rw [List.eq_of_mem_replicate hd]
  exact hc

/-! ## Texts that are read as others -/

/-- Without escape sequences the text `s` is `t`, whatever follows. -/
def ReadsAs (s t : String) : Prop := ∀ rest, leftFrom 0 (s.toList ++ rest) = t.toList ++ leftFrom 0 rest

variable {s s' t t' : String}

theorem ReadsAs.withoutSequences_eq (h : ReadsAs s t) : withoutSequences s = t := by
  have hall := h []
  rw [List.append_nil, leftFrom, List.append_nil] at hall
  rw [withoutSequences, hall, String.ofList_toList]

theorem ReadsAs.append (h : ReadsAs s t) (h' : ReadsAs s' t') : ReadsAs (s ++ s') (t ++ t') := by
  intro rest
  rw [String.toList_append, List.append_assoc, h, h', String.toList_append, List.append_assoc]

theorem readsAs_empty : ReadsAs "" "" := fun _ => rfl

theorem IsPlain.readsAs (h : IsPlain s) : ReadsAs s s := by
  have hplain : ∀ cs : List Char, Without (· = escape) cs → ∀ rest,
      leftFrom 0 (cs ++ rest) = cs ++ leftFrom 0 rest := by
    intro cs hcs rest
    induction cs with
    | nil => rfl
    | cons c cs ih =>
      rw [List.cons_append, leftFrom, if_neg (hcs c List.mem_cons_self),
        ih fun d hd => hcs d (List.mem_cons_of_mem _ hd)]
      rfl
  exact hplain s.toList h

theorem leftFrom_append (as rest : List Char) : leftFrom as.length (as ++ rest) = leftFrom 0 rest := by
  induction as with
  | nil => rfl
  | cons a as ih => exact ih

/-- **A control sequence is read as nothing.** -/
theorem readsAs_controlSequence {number : String}
    (h : number.toList.all (isBetween '0' '?') = true) : ReadsAs (controlSequence number) "" := by
  intro rest
  have htext : (controlSequence number).toList ++ rest =
      escape :: (('[' :: (number.toList ++ ['m'])) ++ rest) := by
    simp [controlSequence, escape]
  have hparameters : ((number.toList ++ 'm' :: rest).takeWhile (isBetween '0' '?')) = number.toList := by
    rw [List.takeWhile_append_of_pos (List.all_eq_true.mp h),
      List.takeWhile_cons_of_neg (by decide), List.append_nil]
  have hlength : sequenceLength? (('[' :: (number.toList ++ ['m'])) ++ rest) =
      some ('[' :: (number.toList ++ ['m'])).length := by
    rw [List.cons_append, List.append_assoc, List.singleton_append, sequenceLength?, if_pos rfl]
    simp only [hparameters, List.drop_left]
    rw [List.takeWhile_cons_of_neg (by decide)]
    simp
    decide
  rw [htext, leftFrom, if_pos rfl, hlength]
  exact leftFrom_append _ rest

theorem readsAs_join {α : Type} {f g : α → String} {xs : List α} (h : ∀ x ∈ xs, ReadsAs (f x) (g x)) :
    ReadsAs (String.join (xs.map f)) (String.join (xs.map g)) := by
  induction xs with
  | nil => exact readsAs_empty
  | cons x xs ih =>
    rw [List.map_cons, List.map_cons, String.join_cons, String.join_cons]
    exact (h x List.mem_cons_self).append (ih fun y hy => h y (List.mem_cons_of_mem _ hy))

theorem readsAs_intercalate {α : Type} {f g : α → String} {sep : String} {xs : List α}
    (hsep : IsPlain sep) (h : ∀ x ∈ xs, ReadsAs (f x) (g x)) :
    ReadsAs (sep.intercalate (xs.map f)) (sep.intercalate (xs.map g)) := by
  induction xs with
  | nil => exact readsAs_empty
  | cons x xs ih =>
    have hx := h x List.mem_cons_self
    cases xs with
    | nil => simpa using hx
    | cons y xs =>
      have hrest := ih fun z hz => h z (List.mem_cons_of_mem _ hz)
      rw [List.map_cons, List.map_cons, List.map_cons, List.map_cons, String.intercalate_cons_cons,
        String.intercalate_cons_cons]
      exact (hx.append hsep.readsAs).append hrest

end Terminal

open Terminal

/-! ## Segments and lines -/

theorem Ink.readsAs_sequence (i : Ink) : ReadsAs i.sequence "" := by
  cases i <;> exact readsAs_controlSequence (by decide)

theorem readsAs_inks (inks : List Ink) : ReadsAs (String.join (inks.map Ink.sequence)) "" := by
  induction inks with
  | nil => exact readsAs_empty
  | cons i inks ih =>
    rw [List.map_cons, String.join_cons]
    exact i.readsAs_sequence.append ih

/-- **A segment in colours is read as its text.** -/
theorem Segment.readsAs_written {s : Segment} (h : IsPlain s.text) :
    ReadsAs (s.written true) (s.written false) := by
  have hplain : s.written false = s.text := if_neg (by simp)
  have hreset : ReadsAs resetSequence "" := readsAs_controlSequence (by decide)
  rw [hplain, Segment.written]
  split_ifs
  · simpa using ((readsAs_inks s.inks).append h.readsAs).append hreset
  · exact h.readsAs

/-- **A line in colours is read as the line without.** -/
theorem readsAs_writeLine {segments : List Segment} (h : ∀ s ∈ segments, IsPlain s.text) :
    ReadsAs (writeLine true segments) (writeLine false segments) :=
  readsAs_join fun s hs => Segment.readsAs_written (h s hs)

/-! ## Texts without escape characters -/

theorem isPlain_toString_nat (n : Nat) : IsPlain (toString n) := by
  intro c hc
  rw [Nat.toString_eq_ofList_toDigits, String.toList_ofList] at hc
  have hdigit := Nat.isDigit_of_mem_toDigits (by decide) (by decide) hc
  rintro rfl
  exact absurd hdigit (by decide)

theorem isPlain_toString (n : Int) : IsPlain (toString n) := by
  cases n with
  | ofNat n => exact isPlain_toString_nat n
  | negSucc n => exact isPlain_append.mpr ⟨by decide, isPlain_toString_nat (n + 1)⟩

theorem Location.mem_drop_of_steps {base : Location} {n : Nat} {parts : List String} {x : String}
    (hx : x ∈ (parts.foldl Location.step base).drop n) : x ∈ base.drop n ∨ x ∈ parts := by
  induction parts generalizing base with
  | nil => exact Or.inl hx
  | cons part parts ih =>
    rcases ih hx with h | h
    · unfold Location.step at h
      split_ifs at h
      · exact Or.inl h
      · exact Or.inl ((base.dropLast_sublist.drop n).subset h)
      · rw [List.drop_append] at h
        rcases List.mem_append.mp h with h | h
        · exact Or.inl h
        · exact Or.inr (List.mem_cons.mpr (Or.inl (List.mem_singleton.mp (List.mem_of_mem_drop h))))
    · exact Or.inr (List.mem_cons_of_mem _ h)

/-- **The shown name of a file holds no escape character** if its name holds none, whatever the working
directory is called. -/
theorem showFile_plain (base : Location) {filename : String} (h : IsPlain filename) :
    IsPlain (showFile base filename) := by
  have hparts : ∀ p ∈ (Path.ofString filename).parts, IsPlain p := by
    intro p hp c hc
    have hsplit := (List.mem_filter.mp hp).1
    exact h c ((of_mem_splitFrom hsplit c hc).resolve_left List.not_mem_nil).1
  have hname : IsPlain (Path.ofString filename).name := by
    unfold Path.name
    cases hlast : (Path.ofString filename).parts.getLast? with
    | none => decide
    | some p => exact hparts p (List.mem_of_getLast? hlast)
  simp only [showFile]
  split_ifs
  · exact hname
  · split
    · next parts hbelow =>
      have hbelow' : ∀ p ∈ parts, IsPlain p := by
        intro p hp
        unfold Location.below? at hbelow
        split_ifs at hbelow
        cases hbelow
        rcases Location.mem_drop_of_steps hp with hp | hp
        · split_ifs at hp <;> simp at hp
        · exact hparts p hp
      have hempty : IsPlain "" := by decide
      refine isPlain_append.mpr ⟨by decide, ?_⟩
      unfold Path.text
      split_ifs
      · decide
      · exact isPlain_append.mpr ⟨hempty, isPlain_intercalate (by decide) hbelow'⟩
    · exact hname

/-! ## Diagnostics -/

/-- The texts of a diagnostic hold no escape character. -/
structure Diagnostic.OfPlain (d : Diagnostic) : Prop where
  code : IsPlain d.code
  message : IsPlain d.message
  filename : IsPlain d.filename

namespace Diagnostic

variable {d : Diagnostic}

theorem OfPlain.headline (h : d.OfPlain) (base : Location) :
    ∀ s ∈ d.headline base, IsPlain s.text := by
  have hplace : IsPlain (d.place base) := by
    have hfile := showFile_plain base h.filename
    unfold Diagnostic.place
    split
    · simp only [isPlain_append]
      exact ⟨⟨⟨⟨hfile, by decide⟩, isPlain_toString _⟩, by decide⟩, isPlain_toString _⟩
    · exact hfile
  have htitle : IsPlain d.severity.title := by
    cases d.severity <;> decide
  have hsentence : IsPlain d.sentence := by
    unfold sentence
    split_ifs
    · exact h.message
    · exact isPlain_append.mpr ⟨h.message, by decide⟩
  intro s hs
  simp only [Diagnostic.headline, List.mem_cons, List.not_mem_nil, or_false] at hs
  rcases hs with rfl | rfl | rfl | rfl | rfl | rfl
  · exact hplace
  · decide
  · exact htitle
  · decide
  · exact h.code
  · exact isPlain_append.mpr ⟨by decide, hsentence⟩

theorem OfPlain.excerpt (h : d.OfPlain) (useUnicode : Bool) (base : Location) (span : Span)
    {line : String} (hline : IsPlain line) :
    ∀ segments ∈ d.excerpt useUnicode base span line, ∀ s ∈ segments, IsPlain s.text := by
  have hheadline := h.headline base
  have hindent : IsPlain (indent span) := isPlain_replicate (by decide) _
  have hguide := isPlain_replicate (c := '─') (by decide) ((max 1 span.column).toNat + 1)
  have hcorner : IsPlain "╯" := by decide
  intro segments hsegments s hs
  unfold Diagnostic.excerpt at hsegments
  split_ifs at hsegments
  · simp only [List.mem_cons, List.not_mem_nil, or_false] at hsegments
    rcases hsegments with rfl | rfl | rfl | rfl <;>
      simp only [List.mem_cons, List.not_mem_nil, or_false] at hs
    · rcases hs with rfl | hs
      · decide
      · exact hheadline s hs
    · rcases hs with rfl | rfl
      · decide
      · exact isPlain_append.mpr ⟨by decide, hline⟩
    · rcases hs with rfl | rfl | rfl
      · decide
      · decide
      · exact isPlain_append.mpr ⟨hindent, by decide⟩
    · rcases hs with rfl | rfl
      · exact isPlain_append.mpr ⟨by decide, hguide⟩
      · exact hcorner
  · simp only [List.mem_cons, List.not_mem_nil, or_false] at hsegments
    rcases hsegments with rfl | rfl | rfl
    · exact hheadline s hs
    · rw [List.mem_singleton.mp hs]
      exact isPlain_append.mpr ⟨by decide, hline⟩
    · rw [List.mem_singleton.mp hs]
      simp only [isPlain_append]
      exact ⟨⟨by decide, hindent⟩, by decide⟩

end Diagnostic

/-! ## Reporters -/

namespace Reporter

/-- The reporter was made for a source and a file, and messages were added to it, all without escape
characters. -/
inductive OfPlain : Reporter → Prop
  | empty {source filename} : (∀ s ∈ source, IsPlain s) → IsPlain filename →
      OfPlain (empty source filename)
  | add {r severity code message span filename} : OfPlain r → IsPlain code → IsPlain message →
      (∀ f ∈ filename, IsPlain f) → OfPlain (r.add severity code message span filename)

variable {r : Reporter}

theorem OfPlain.source_plain (h : r.OfPlain) : ∀ s ∈ r.source, IsPlain s := by
  induction h with
  | empty hsource _ => exact hsource
  | add _ _ _ _ ih => exact ih

theorem OfPlain.filename_plain (h : r.OfPlain) : IsPlain r.filename := by
  induction h with
  | empty _ hfilename => exact hfilename
  | add _ _ _ _ ih => exact ih

theorem OfPlain.items_plain (h : r.OfPlain) : ∀ d ∈ r.items, d.OfPlain := by
  induction h with
  | empty => exact fun d hd => absurd hd List.not_mem_nil
  | @add r severity code message span filename hr hcode hmessage hfilename ih =>
    intro d hd
    rcases List.mem_append.mp hd with hd | hd
    · exact ih d hd
    · rw [List.mem_singleton.mp hd]
      refine ⟨hcode, hmessage, ?_⟩
      cases filename with
      | none => exact hr.filename_plain
      | some f =>
        change IsPlain (if f.isEmpty then r.filename else f)
        split_ifs
        · exact hr.filename_plain
        · exact hfilename f rfl

/-- **Colours are only decoration.** A reporter is made for a source and a file, and any errors and warnings
are added to it. If there is no escape character in these texts, and none in the other files that messages
are about, then taking all escape sequences out of the coloured diagnostics leaves the diagnostics as they are
written without colours, framed or not, character for character. -/
theorem withoutSequences_format (h : r.OfPlain) (base : Location) {files : String → Option String}
    (hfiles : ∀ d ∈ r.items, d.filename ≠ r.filename → ∀ t ∈ files d.filename, IsPlain t)
    (useUnicode : Bool) :
    withoutSequences (r.format base files ⟨true, useUnicode⟩) = r.format base files ⟨false, useUnicode⟩ := by
  have hsegments : ∀ segments ∈ r.lines base files useUnicode, ∀ s ∈ segments, IsPlain s.text := by
    intro segments hsegments
    obtain ⟨d, hd, hsegments⟩ := List.mem_flatMap.mp hsegments
    have hplain := h.items_plain d hd
    unfold linesOf at hsegments
    split at hsegments
    · rw [List.mem_singleton.mp hsegments]
      exact hplain.headline base
    · refine hplain.excerpt useUnicode base _ (fun c hc => ?_) segments hsegments
      have hsource : IsPlain (r.sourceOf files d) := by
        have hgetD : ∀ {o : Option String}, (∀ t ∈ o, IsPlain t) → IsPlain (o.getD "") := by
          intro o ho
          cases o with
          | none => decide
          | some t => exact ho t rfl
        unfold sourceOf
        split_ifs with hown
        · exact hgetD h.source_plain
        · exact hgetD (hfiles d hd fun hsame => hown (by simp [hsame]))
      exact hsource c (mem_of_lineAt hc).1
  exact ReadsAs.withoutSequences_eq
    (readsAs_intercalate (by decide) fun segments hs => readsAs_writeLine (hsegments segments hs))

/-- An error with an excerpt and a warning about another file. -/
def twoDiagnostics : Reporter :=
  ((empty (some "class A \x7b\n") "a.cs").add .error "FG1001" "unexpected end of file"
    (some ⟨1, 9, 1, 9⟩) none).add .warning "FG3002" "not partial." none (some "/b.cs")

theorem withoutSequences_format_of_two :
    withoutSequences (twoDiagnostics.format ["w"] (fun _ => none) ⟨true, false⟩) =
      "\n".intercalate ["./a.cs:1:9: error [FG1001]: unexpected end of file.", "  | class A \x7b",
        "  `         ^", "b.cs: warning [FG3002]: not partial."] := by
  have hplain : twoDiagnostics.OfPlain :=
    .add (.add (.empty (by decide) (by decide)) (by decide) (by decide) (by decide)) (by decide)
      (by decide) (by decide)
  have hfiles : ∀ d ∈ twoDiagnostics.items, d.filename ≠ twoDiagnostics.filename →
      ∀ t ∈ (none : Option String), IsPlain t := by simp
  rw [withoutSequences_format hplain ["w"] hfiles false]
  decide +kernel

end Reporter

end Facade
