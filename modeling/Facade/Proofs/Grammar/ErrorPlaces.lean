import Facade.Proofs.Grammar.Braces
import Facade.Proofs.Grammar.Takes

/-!
# Where syntax errors stand

A syntax error is about a character of the source, or about its end. It stands at that character, which is
no white space between tokens.

* `SyntaxFault.isAboutText`, `SyntaxFault.offending`: the character that a fault is about;
* `SyntaxError.IsIn`: an error that stands at its place in a source;
* `SyntaxError.StaysIn`: what comes of a source, unless it is an error that stands in it;
* `Parser.IsIn`, `Parser.staysIn_read`, `Parser.staysIn_take`: reading tokens;
* **`Pattern.staysIn_parse`**: reading patterns;
* **`CompilationUnit.isIn_of_parse`**: the errors of a source.
-/

namespace Facade

open Scan

namespace SyntaxFault

/-- The fault is about a token or a character, and not about the source as a whole. -/
def isAboutText : SyntaxFault → Bool
  | unexpectedToken _ _ | unexpectedCharacter _ => true
  | unexpectedEnd | tooDeep | malformedTree => false

/-- The character that a fault is about, the first one of a token. -/
def offending : SyntaxFault → Option Char
  | unexpectedToken text _ => text.toList.head?
  | unexpectedCharacter c => some c
  | unexpectedEnd | tooDeep | malformedTree => none

end SyntaxFault

/-! ## Places of tokens -/

namespace Cursor

variable {admitted : TerminalSet} {c c' : Cursor}

theorem Stands.not_isLayout {t : Terminal} {s : Split} (h : c.Stands admitted t s) :
    ∀ ch ∈ c.rest.head?, isLayout ch = false := by
  intro ch hch
  obtain ⟨cs, hrest⟩ := List.head?_eq_some_iff.mp hch
  rw [Bool.eq_false_iff]
  intro hlayout
  rw [Stands, hrest] at h
  rcases h with h | ⟨-, h, -⟩
  · rw [matchChunk_of_isBlank (isBlank_of_isLayout hlayout)] at h
    cases h
  · rw [scanIgnored_of_isLayout hlayout] at h
    cases h

/-- Where no token can be read something stands after a gap, and it is not ignored. -/
theorem exists_gap_of_stuck (h : c.next admitted = .stuck c') :
    Gap admitted c c' ∧ scanIgnored c'.rest = none := by
  have hwithin : ∀ (bound : List Char) (c : Cursor), c.rest.length ≤ bound.length →
      nextWithin admitted bound c = .stuck c' → Gap admitted c c' ∧ scanIgnored c'.rest = none := by
    intro bound
    induction bound with
    | nil =>
      intro c hlength h
      have hnil : c.rest = [] := List.length_eq_zero_iff.mp (Nat.le_zero.mp hlength)
      simp [nextWithin, hnil] at h
    | cons b bound ih =>
      intro c hlength h
      unfold nextWithin at h
      split_ifs at h
      cases hchunk : matchChunk admitted c.rest with
      | some found => simp [hchunk] at h
      | none =>
        simp only [hchunk] at h
        cases hignored : scanIgnored c.rest with
        | some s =>
          simp only [hignored] at h
          have hshorter := length_of_scanIgnored hignored
          obtain ⟨hgap, hnone⟩ := ih (c.past s) (by
            change s.2.length ≤ bound.length
            rw [List.length_cons] at hlength
            omega) h
          exact ⟨.some hchunk hignored hgap, hnone⟩
        | none =>
          simp only [hignored] at h
          cases hterminal : matchTerminal admitted c.rest with
          | some found => simp [hterminal] at h
          | none =>
            rw [hterminal] at h
            cases h
            exact ⟨.none, hignored⟩
  exact hwithin c.rest c (Nat.le_refl _) h

end Cursor

/-! ## Errors in a source -/

namespace SyntaxError

variable {source : List Char}

/-- The error stands at a place of the source. If it is about a token or a character, that comes next there,
and it does not begin with white space. -/
def IsIn (source : List Char) (e : SyntaxError) : Prop :=
  ∃ c : Cursor, c.IsOf source ∧ e.line = c.position.line ∧ e.column = c.position.column ∧
    (e.fault.isAboutText → ∃ ch, e.fault.offending = some ch ∧ c.rest.head? = some ch ∧
      isLayout ch = false)

/-- What is computed from a source is `P`, or it is an error that stands in the source. -/
def StaysIn {α : Type} (source : List Char) (P : α → Prop) : Except SyntaxError α → Prop
  | .ok a => P a
  | .error e => e.IsIn source

theorem StaysIn.bind {α β : Type} {P : α → Prop} {Q : β → Prop} {x : Except SyntaxError α}
    {f : α → Except SyntaxError β} (hx : StaysIn source P x) (hf : ∀ a, P a → StaysIn source Q (f a)) :
    StaysIn source Q (x >>= f) := by
  cases x with
  | ok a => exact hf a hx
  | error e => exact hx

theorem isIn_of_not_isAboutText {c : Cursor} (hc : c.IsOf source) {fault : SyntaxFault}
    (h : fault.isAboutText = false) : IsIn source ⟨fault, c.position.line, c.position.column⟩ :=
  ⟨c, hc, rfl, rfl, fun htext => by
    rw [h] at htext
    cases htext⟩

theorem isIn_of_stands {admitted expected : TerminalSet} {c : Cursor} {t : Terminal} {s : Split}
    (hc : c.IsOf source) (h : c.Stands admitted t s) :
    IsIn source ⟨.unexpectedToken (c.token t s).text expected, c.position.line, c.position.column⟩ := by
  obtain ⟨ch, cs, hword⟩ := List.exists_cons_of_ne_nil h.ne_nil
  have hhead : c.rest.head? = some ch := by
    rw [h.divides, hword]
    rfl
  exact ⟨c, hc, rfl, rfl, fun _ =>
    ⟨ch, by simp [SyntaxFault.offending, Cursor.token, hword], hhead, h.not_isLayout ch hhead⟩⟩

end SyntaxError

open SyntaxError

namespace Parser

variable {source : List Char} {s : Parser}

/-- The token that comes next stands in the source before the cursor, and the last place is one of the
source. -/
structure IsIn (source : List Char) (s : Parser) : Prop where
  ahead : ∀ t ∈ s.lookahead, ∃ (c : Cursor) (admitted : TerminalSet) (kind : Terminal) (taken : Split),
    c.IsOf source ∧ c.Stands admitted kind taken ∧ t = c.token kind taken ∧ s.cursor = c.past taken
  last : ∃ c : Cursor, c.IsOf source ∧ s.last = c.position

theorem IsIn.cursor (h : s.IsIn source) {t : Token} (ht : s.lookahead = some t) :
    s.cursor.IsOf source := by
  obtain ⟨c, admitted, kind, taken, hc, hstands, -, hcursor⟩ := h.ahead t ht
  exact hcursor ▸ hc.past hstands.divides

theorem IsIn.unexpected (h : s.IsIn source) (expected : TerminalSet) :
    (s.unexpected expected).IsIn source := by
  unfold Parser.unexpected
  cases hlookahead : s.lookahead with
  | some t =>
    obtain ⟨c, admitted, kind, taken, hc, hstands, rfl, -⟩ := h.ahead t hlookahead
    exact isIn_of_stands hc hstands
  | none =>
    obtain ⟨c, hc, hlast⟩ := h.last
    dsimp only
    rw [hlast]
    exact isIn_of_not_isAboutText hc rfl

theorem staysIn_check (h : s.IsIn source) (expected : TerminalSet) :
    StaysIn source (fun _ => True) (s.check expected) := by
  unfold check
  split_ifs
  · trivial
  · exact h.unexpected expected

theorem isIn_stuck {c : Cursor} (hc : c.IsOf source) (hignored : scanIgnored c.rest = none)
    (admitted : TerminalSet) : (stuck c admitted).IsIn source := by
  unfold stuck
  split
  · next t htoken =>
    -- Nothing is ignored before the token, so it stands at the cursor.
    have hnext : ∃ after, c.next .univ = .token t after := by
      unfold Cursor.anyToken? at htoken
      split at htoken
      · next after h =>
        cases htoken
        exact ⟨after, h⟩
      · cases htoken
    obtain ⟨after, hnext⟩ := hnext
    obtain ⟨c', kind, taken, hgap, hstands, rfl, -⟩ := Cursor.exists_gap hnext
    cases hgap with
    | none => exact isIn_of_stands hc hstands
    | some _ h _ =>
      rw [hignored] at h
      cases h
  · next ch cs _ hrest =>
    refine ⟨c, hc, rfl, rfl, fun _ =>
      ⟨ch, rfl, by rw [hrest]; rfl, Bool.eq_false_iff.mpr fun hlayout => ?_⟩⟩
    rw [hrest, scanIgnored_of_isLayout hlayout] at hignored
    cases hignored
  · exact isIn_of_not_isAboutText hc rfl

/-- **Reading a token** stays in the source. -/
theorem staysIn_read {c d : Cursor} (hc : c.IsOf source) (hd : d.IsOf source) (admitted : TerminalSet) :
    StaysIn source (Parser.IsIn source) (read c d.position admitted) := by
  unfold read
  split
  · next t after hnext =>
    obtain ⟨c', kind, taken, hgap, hstands, rfl, rfl⟩ := Cursor.exists_gap hnext
    have hc' := hgap.isOf hc
    refine ⟨fun t ht => ?_, c', hc', rfl⟩
    cases ht
    exact ⟨c', admitted, kind, taken, hc', hstands, rfl, rfl⟩
  · have hs : Parser.IsIn source ⟨none, ⟨[], c.position⟩, d.position⟩ :=
      ⟨fun t ht => absurd ht (by simp), d, hd, rfl⟩
    exact (staysIn_check hs admitted).bind fun _ _ => hs
  · next c' hnext =>
    obtain ⟨hgap, hignored⟩ := Cursor.exists_gap_of_stuck hnext
    exact isIn_stuck (hgap.isOf hc) hignored admitted

/-- **Taking a token** stays in the source. -/
theorem staysIn_take (h : s.IsIn source) (expected : Terminal) (admitted : TerminalSet) :
    StaysIn source (fun x => x.2.IsIn source) (s.take expected admitted) := by
  unfold take
  cases hlookahead : s.lookahead with
  | none => exact h.unexpected _
  | some t =>
    obtain ⟨d, hd, hlast⟩ := h.last
    dsimp only
    split_ifs
    · rw [hlast]
      exact (staysIn_read (h.cursor hlookahead) hd admitted).bind fun _ hs => hs
    · exact h.unexpected _

end Parser

/-! ## Errors of a parse -/

/-- **Reading a pattern** stays in the source. -/
theorem Pattern.staysIn_parse {source : List Char} {depth : Nat} {p : Pattern} {after : TerminalSet}
    {parts : List Tree} {s : Parser} (h : s.IsIn source) :
    StaysIn source (fun x => x.2.IsIn source) (p.parse depth after parts s) := by
  induction depth generalizing p after parts s with
  | zero =>
    obtain ⟨c, hc, hlast⟩ := h.last
    unfold parse
    rw [hlast]
    exact isIn_of_not_isAboutText hc rfl
  | succ depth ih =>
    cases p with
    | token t => exact (Parser.staysIn_take h t after).bind fun _ hs => hs
    | rule r => exact (ih h).bind fun _ hs => (Parser.staysIn_check hs after).bind fun _ _ => hs
    | seq p q => exact (ih h).bind fun _ hs => ih hs
    | alt p q =>
      simp only [parse]
      split_ifs
      · exact ih h
      · exact ih h
    | opt p =>
      simp only [parse]
      split_ifs
      · exact ih h
      · exact h
    | plus repeated p =>
      refine (ih h).bind fun x hs => (Parser.staysIn_check hs _).bind fun _ _ => ?_
      split_ifs
      · exact ih hs
      · exact hs
    | resume r n p => exact (ih h).bind fun _ hs => (Parser.staysIn_check hs after).bind fun _ _ => hs

theorem Tree.staysIn_parse (source : List Char) : StaysIn source (fun _ => True) (Tree.parse source) := by
  have hstart := Cursor.isOf_ofSource source
  exact (Parser.staysIn_read hstart hstart _).bind fun s hs =>
    (Pattern.staysIn_parse hs).bind fun _ _ => trivial

/-- **An error of a source stands in it**, at the character that it is about. -/
theorem CompilationUnit.isIn_of_parse {path source : String} {e : SyntaxError}
    (h : CompilationUnit.parse path source = .error e) : e.IsIn source.toList := by
  have hstays : StaysIn source.toList (fun _ => True) (CompilationUnit.parse path source) := by
    refine StaysIn.bind (P := fun _ => True) ((Tree.staysIn_parse source.toList).bind fun tree _ => ?_)
      fun _ _ => trivial
    split
    · trivial
    · exact isIn_of_not_isAboutText (Cursor.isOf_ofSource source.toList) rfl
  rw [h] at hstays
  exact hstays

end Facade
