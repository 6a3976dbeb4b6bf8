import Mathlib.Data.Option.Basic
import Mathlib.Tactic.Common
import Facade.Grammar.Parse

/-!
# What is read of a source

Every scanner divides its text, so what has been read of a source and what is left of it are the
source, and positions count what has been read.

* `Scan.Divides`: a scanner gives the beginning of its text and what remains;
* `Cursor.IsOf`, `Parser.IsOf`: cursors and states that stand somewhere in a source;
* `Cursor.Gap`, `Cursor.exists_gap`: a token comes after a gap of ignored text;
* `Parser.IsOf.take`: taking a token stays in the source.
-/

namespace Facade

namespace Scan

/-- The scanner gives the beginning of its text and what remains of it. -/
def Divides (scan : List Char → Option Split) : Prop :=
  ∀ cs s, scan cs = some s → cs = s.1 ++ s.2

theorem divides_prepend {scan : List Char → Option Split} (h : Divides scan) {cs taken : List Char}
    {s : Split} (hs : (scan cs).map (prepend taken) = some s) : taken ++ cs = s.1 ++ s.2 := by
  obtain ⟨s', hs', rfl⟩ := Option.map_eq_some_iff.mp hs
  rw [h cs s' hs', prepend, List.append_assoc]

theorem divides_scanExact (es : List Char) : Divides (scanExact es) := by
  induction es with
  | nil =>
    intro cs s h
    cases h
    rfl
  | cons e es ih =>
    intro cs s h
    cases cs with
    | nil => cases h
    | cons c cs =>
      simp only [scanExact] at h
      split_ifs at h with hc
      exact divides_prepend ih h

@[simp] theorem scanWhile_append (p : Char → Bool) (cs : List Char) :
    (scanWhile p cs).1 ++ (scanWhile p cs).2 = cs :=
  List.takeWhile_append_dropWhile

theorem scanWhile_append_of {p : Char → Bool} {u v : List Char} (hu : ∀ c ∈ u, p c = true)
    (hv : ∀ c ∈ v.head?, p c = false) : scanWhile p (u ++ v) = (u, v) := by
  unfold scanWhile
  rw [List.takeWhile_append_of_pos hu, List.dropWhile_append_of_pos hu]
  cases v with
  | nil => simp
  | cons c v =>
    have hc : p c = false := hv c rfl
    simp [hc]

theorem divides_scanPlainName : Divides scanPlainName := by
  intro cs s h
  cases cs with
  | nil => cases h
  | cons c cs =>
    simp only [scanPlainName] at h
    split_ifs at h
    cases h
    simp [prepend]

theorem divides_scanName : Divides scanName := by
  intro cs s h
  unfold scanName at h
  split at h
  · exact divides_prepend divides_scanPlainName h
  · exact divides_scanPlainName _ s h

theorem divides_scanWholeWord (word : String) : Divides (scanWholeWord word) := fun cs s h =>
  divides_scanExact word.toList cs s (Option.filter_eq_some_iff.mp h).1

theorem divides_scanOperator : Divides scanOperator := by
  intro cs s h
  unfold scanOperator at h
  rw [Option.orElse_eq_some, Option.orElse_eq_some] at h
  rcases h with h | ⟨-, h | ⟨-, h⟩⟩
  · obtain ⟨o, -, ho⟩ := List.exists_of_findSome?_eq_some h
    exact divides_scanExact _ cs s ho
  · obtain ⟨o, -, ho⟩ := List.exists_of_findSome?_eq_some h
    exact divides_scanWholeWord _ cs s ho
  · cases cs with
    | nil => cases h
    | cons c cs =>
      simp only at h
      split_ifs at h
      cases h
      rfl

theorem divides_scanCommentEnd : Divides scanCommentEnd := by
  intro cs s h
  induction cs using scanCommentEnd.induct generalizing s with
  | case1 rest =>
    simp only [scanCommentEnd, Option.some.injEq] at h
    simp [← h]
  | case2 c rest hc ih =>
    rw [scanCommentEnd.eq_2 c rest hc] at h
    obtain ⟨s', hs', rfl⟩ := Option.map_eq_some_iff.mp h
    simp [prepend, ← ih s' hs']
  | case3 => cases h

theorem divides_scanProgramAttribute : Divides scanProgramAttribute := by
  intro cs s h
  unfold scanProgramAttribute at h
  split at h
  · next cs =>
    simp only [Option.bind_eq_bind, Option.bind_eq_some_iff] at h
    obtain ⟨target, htarget, colon, hcolon, close, hclose, h⟩ := h
    have hblank := scanWhile_append Text.isBlank cs
    have hgap := scanWhile_append Text.isBlank target.2
    have hbody := scanWhile_append (fun c => c != ']') colon.2
    rw [divides_scanExact _ _ _ hclose] at hbody
    rw [divides_scanExact _ _ _ hcolon, ← hbody] at hgap
    have htext : (scanWhile Text.isBlank cs).2 = target.1 ++ target.2 := by
      rw [Option.orElse_eq_some] at htarget
      rcases htarget with h | ⟨-, h⟩
      · exact divides_scanExact _ _ _ h
      · exact divides_scanExact _ _ _ h
    rw [htext, ← hgap] at hblank
    rw [Option.some.injEq] at h
    simp only [← h, List.cons_append, List.append_assoc, hblank]
  · cases h

theorem divides_scanIgnored : Divides scanIgnored := by
  intro cs s h
  unfold scanIgnored at h
  split at h
  · cases h; simp [prepend]
  · exact divides_prepend divides_scanCommentEnd h
  · cases h; simp [prepend]
  · exact divides_scanProgramAttribute _ s h
  · split_ifs at h
    cases h
    simp [prepend]
  · cases h

theorem divides_scanLiteralEnd (quote : Char) : Divides (scanLiteralEnd quote) := by
  intro cs s h
  fun_induction scanLiteralEnd quote cs generalizing s with
  | case1 => cases h
  | case2 => cases h
  | case3 => cases h
  | case4 c rest hc ih =>
    obtain ⟨s', hs', rfl⟩ := Option.map_eq_some_iff.mp h
    simp [prepend, ← ih s' hs']
  | case5 rest =>
    cases h
    rfl
  | case6 => cases h
  | case7 c rest _ _ _ _ ih =>
    obtain ⟨s', hs', rfl⟩ := Option.map_eq_some_iff.mp h
    simp [prepend, ← ih s' hs']

theorem divides_scanVerbatimEnd : Divides scanVerbatimEnd := by
  intro cs s h
  fun_induction scanVerbatimEnd cs generalizing s with
  | case1 => cases h
  | case2 rest s' hs' ih =>
    cases h
    simp [prepend, ← ih s' hs']
  | case3 =>
    cases h
    rfl
  | case4 =>
    cases h
    rfl
  | case5 c rest _ _ ih =>
    obtain ⟨s', hs', rfl⟩ := Option.map_eq_some_iff.mp h
    simp [prepend, ← ih s' hs']

theorem divides_scanItem (k : Chunk) : Divides (scanItem k) := by
  intro cs s h
  unfold scanItem at h
  split at h
  · cases h; simp [prepend]
  · exact divides_prepend divides_scanCommentEnd h
  · exact divides_prepend divides_scanVerbatimEnd h
  · next c cs _ _ _ =>
    by_cases hquote : c = '"' ∨ c = '\''
    · rw [if_pos hquote] at h
      cases hs : scanLiteralEnd c cs with
      | some s' =>
        rw [hs] at h
        cases h
        simp [prepend, ← divides_scanLiteralEnd c cs s' hs]
      | none =>
        simp only [hs] at h
        split_ifs at h
        cases h
        rfl
    · rw [if_neg hquote] at h
      split_ifs at h
      cases h
      rfl
  · cases h

theorem scanItems_append (k : Chunk) (bound cs : List Char) :
    (scanItems k bound cs).1 ++ (scanItems k bound cs).2 = cs := by
  fun_induction scanItems k bound cs with
  | case1 => rfl
  | case2 b bound cs s hs ih =>
    rw [divides_scanItem k cs s hs, prepend, List.append_assoc, ih]
  | case3 => rfl

theorem divides_scanChunk (k : Chunk) : Divides (scanChunk k) := by
  intro cs s h
  simp only [scanChunk] at h
  split_ifs at h
  cases h
  exact (scanItems_append k cs cs).symm

theorem divides_matchChunk {admitted : TerminalSet} {cs : List Char} {t : Terminal} {s : Split}
    (h : matchChunk admitted cs = some (t, s)) : cs = s.1 ++ s.2 := by
  obtain ⟨e, -, h⟩ := List.exists_of_findSome?_eq_some h
  split_ifs at h
  obtain ⟨s', hs', hs⟩ := Option.map_eq_some_iff.mp h
  cases hs
  exact divides_scanChunk _ _ _ hs'

theorem divides_matchTerminal {admitted : TerminalSet} {cs : List Char} {t : Terminal} {s : Split}
    (h : matchTerminal admitted cs = some (t, s)) : cs = s.1 ++ s.2 := by
  unfold matchTerminal at h
  rw [Option.orElse_eq_some, Option.orElse_eq_some] at h
  rcases h with h | ⟨-, h | ⟨-, h⟩⟩
  · unfold matchName at h
    split_ifs at h
    obtain ⟨s', hs', hs⟩ := Option.map_eq_some_iff.mp h
    cases hs
    exact divides_scanName _ _ hs'
  · unfold matchOperator at h
    split_ifs at h
    obtain ⟨s', hs', hs⟩ := Option.map_eq_some_iff.mp h
    cases hs
    exact divides_scanOperator _ _ hs'
  · obtain ⟨e, -, h⟩ := List.exists_of_findSome?_eq_some h
    split_ifs at h
    obtain ⟨s', hs', hs⟩ := Option.map_eq_some_iff.mp h
    cases hs
    exact divides_scanExact _ _ _ hs'

end Scan

namespace Position

theorem after_append (p : Position) (cs ds : List Char) : p.after (cs ++ ds) = (p.after cs).after ds :=
  List.foldl_append

@[simp] theorem after_offset (p : Position) (cs : List Char) :
    (p.after cs).offset = p.offset + cs.length := by
  induction cs generalizing p with
  | nil => rfl
  | cons c cs ih =>
    have hstep : (p.advance c).offset = p.offset + 1 := by
      unfold advance
      split_ifs <;> rfl
    rw [after, List.foldl_cons]
    change ((p.advance c).after cs).offset = _
    rw [ih, hstep, List.length_cons]
    omega

end Position

namespace Cursor

open Scan

/-- The cursor stands in the source, at the place it says. -/
def IsOf (source : List Char) (c : Cursor) : Prop :=
  ∃ before, source = before ++ c.rest ∧ c.position = Position.start.after before

theorem isOf_ofSource (source : List Char) : (ofSource source).IsOf source := ⟨[], rfl, rfl⟩

theorem IsOf.past {source : List Char} {c : Cursor} (h : c.IsOf source) {s : Split}
    (hs : c.rest = s.1 ++ s.2) : (c.past s).IsOf source := by
  obtain ⟨before, hsource, hposition⟩ := h
  refine ⟨before ++ s.1, ?_, ?_⟩
  · rw [hsource, hs, List.append_assoc]
    rfl
  · rw [Cursor.past, hposition, Position.after_append]

variable (admitted : TerminalSet) in
/-- Ignored text lies between the cursors, and no chunk can be read in it. -/
inductive Gap : Cursor → Cursor → Prop
  | none {c} : Gap c c
  | some {c s c'} : matchChunk admitted c.rest = .none → scanIgnored c.rest = .some s →
      Gap (c.past s) c' → Gap c c'

theorem Gap.isOf {admitted : TerminalSet} {source : List Char} {c c' : Cursor}
    (h : Gap admitted c c') (hc : c.IsOf source) : c'.IsOf source := by
  induction h with
  | none => exact hc
  | some _ hignored _ ih => exact ih (hc.past (divides_scanIgnored _ _ hignored))

/-- What the admitted terminals make of the text at a cursor. -/
def Stands (admitted : TerminalSet) (c : Cursor) (t : Terminal) (s : Split) : Prop :=
  matchChunk admitted c.rest = .some (t, s) ∨
    matchChunk admitted c.rest = none ∧ scanIgnored c.rest = none ∧
      matchTerminal admitted c.rest = .some (t, s)

theorem Stands.divides {admitted : TerminalSet} {c : Cursor} {t : Terminal} {s : Split}
    (h : c.Stands admitted t s) : c.rest = s.1 ++ s.2 := by
  rcases h with h | ⟨-, -, h⟩
  · exact divides_matchChunk h
  · exact divides_matchTerminal h

/-- A token that is read stands after a gap. -/
theorem exists_gap {admitted : TerminalSet} {c after : Cursor} {t : Token}
    (h : c.next admitted = .token t after) :
    ∃ c' kind s, Gap admitted c c' ∧ c'.Stands admitted kind s ∧ t = c'.token kind s ∧
      after = c'.past s := by
  have hwithin : ∀ (bound : List Char) (c : Cursor), nextWithin admitted bound c = .token t after →
      ∃ c' kind s, Gap admitted c c' ∧ c'.Stands admitted kind s ∧ t = c'.token kind s ∧
        after = c'.past s := by
    intro bound
    induction bound with
    | nil =>
      intro c h
      unfold nextWithin at h
      split_ifs at h
    | cons b bound ih =>
      intro c h
      unfold nextWithin at h
      split_ifs at h
      cases hchunk : matchChunk admitted c.rest with
      | some found =>
        rw [hchunk] at h
        cases h
        exact ⟨c, _, _, .none, Or.inl hchunk, rfl, rfl⟩
      | none =>
        simp only [hchunk] at h
        cases hignored : scanIgnored c.rest with
        | some s =>
          simp only [hignored] at h
          obtain ⟨c', kind, s', hgap, hstands⟩ := ih _ h
          exact ⟨c', kind, s', .some hchunk hignored hgap, hstands⟩
        | none =>
          simp only [hignored] at h
          cases hterminal : matchTerminal admitted c.rest with
          | some found =>
            rw [hterminal] at h
            cases h
            exact ⟨c, _, _, .none, Or.inr ⟨hchunk, hignored, hterminal⟩, rfl, rfl⟩
          | none => rw [hterminal] at h; cases h
  exact hwithin _ _ h

theorem IsOf.next {admitted : TerminalSet} {source : List Char} {c after : Cursor} {t : Token}
    (hc : c.IsOf source) (h : c.next admitted = .token t after) : after.IsOf source := by
  obtain ⟨c', kind, s, hgap, hstands, -, rfl⟩ := exists_gap h
  exact (hgap.isOf hc).past hstands.divides

end Cursor

namespace Parser

/-- The state comes of reading a token at this cursor, where these terminals are admitted. -/
def IsAt (s : Parser) (c : Cursor) (admitted : TerminalSet) : Prop :=
  ∃ last, read c last admitted = .ok s

/-- The state comes of reading a token of the source. -/
def IsOf (source : List Char) (s : Parser) : Prop :=
  ∃ c admitted, c.IsOf source ∧ s.IsAt c admitted

theorem IsAt.next {s : Parser} {c : Cursor} {admitted : TerminalSet} (h : s.IsAt c admitted)
    {t : Token} (ht : s.lookahead = some t) : c.next admitted = .token t s.cursor := by
  obtain ⟨last, h⟩ := h
  unfold read at h
  split at h
  · next hnext =>
    cases h
    cases ht
    exact hnext
  · simp only [Bind.bind, Except.bind] at h
    split at h
    · cases h
    · cases h
      cases ht
  · cases h

theorem take_eq_ok {s s' : Parser} {t : Terminal} {admitted : TerminalSet} {found : Token}
    (h : s.take t admitted = .ok (found, s')) :
    s.lookahead = some found ∧ found.terminal = t ∧ s'.IsAt s.cursor admitted := by
  unfold take at h
  cases hlookahead : s.lookahead with
  | none => rw [hlookahead] at h; cases h
  | some found' =>
    simp only [hlookahead] at h
    split_ifs at h with hterminal
    simp only [Bind.bind, Except.bind] at h
    split at h
    · cases h
    · next s'' hread =>
      cases h
      exact ⟨rfl, hterminal, s.last, hread⟩

theorem IsOf.take {source : List Char} {s s' : Parser} {t : Terminal} {admitted : TerminalSet}
    {found : Token} (hs : s.IsOf source) (h : s.take t admitted = .ok (found, s')) :
    s'.IsOf source := by
  obtain ⟨hlookahead, -, hat⟩ := take_eq_ok h
  obtain ⟨c, admitted', hc, hs⟩ := hs
  exact ⟨s.cursor, admitted, hc.next (hs.next hlookahead), hat⟩

end Parser

end Facade
