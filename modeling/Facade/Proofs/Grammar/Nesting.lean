import Facade.Proofs.Grammar.Lexing
import Facade.Proofs.Grammar.Reads

/-!
# How deep a parse goes

Phrases that begin at one token are nested in each other no deeper than the grammar allows, and every
token that is taken leaves less of the source. So the depth that a parse is given is always enough.

* `Parser.left`: how much of a source is left at most;
* `Pattern.Reads.left_lt`: reading a pattern that takes a token leaves less;
* `Pattern.height`, `Rule.height`: how deep a pattern goes at its first token;
* **`Pattern.parse_of_reads`**, **`Tree.parse_of_reads`**: what can be read is parsed.
-/

namespace Facade

/-! ## What is left of a source -/

namespace Scan

theorem scanName_ne_nil {cs : List Char} {s : Split} (h : scanName cs = some s) : s.1 ≠ [] := by
  have hplain : ∀ {cs : List Char} {s : Split}, scanPlainName cs = some s → s.1 ≠ [] := by
    intro cs s h
    cases cs with
    | nil => cases h
    | cons c cs =>
      simp only [scanPlainName] at h
      split_ifs at h
      cases h
      simp [prepend]
  unfold scanName at h
  split at h
  · obtain ⟨s', -, rfl⟩ := Option.map_eq_some_iff.mp h
    simp [prepend]
  · exact hplain h

theorem scanExact_ne_nil {es cs : List Char} {s : Split} (h : scanExact es cs = some s)
    (hes : es ≠ []) : s.1 ≠ [] := by
  cases es with
  | nil => exact absurd rfl hes
  | cons e es =>
    cases cs with
    | nil => cases h
    | cons c cs =>
      simp only [scanExact] at h
      split_ifs at h
      obtain ⟨s', -, rfl⟩ := Option.map_eq_some_iff.mp h
      simp [prepend]

theorem scanOperator_ne_nil {cs : List Char} {s : Split} (h : scanOperator cs = some s) :
    s.1 ≠ [] := by
  have hlong : ∀ o ∈ longOperators ++ wordOperators, o.toList ≠ [] := by decide
  unfold scanOperator at h
  rw [Option.orElse_eq_some, Option.orElse_eq_some] at h
  rcases h with h | ⟨-, h | ⟨-, h⟩⟩
  · obtain ⟨o, ho, h⟩ := List.exists_of_findSome?_eq_some h
    exact scanExact_ne_nil h (hlong o (List.mem_append_left _ ho))
  · obtain ⟨o, ho, h⟩ := List.exists_of_findSome?_eq_some h
    exact scanExact_ne_nil (Option.filter_eq_some_iff.mp h).1 (hlong o (List.mem_append_right _ ho))
  · cases cs with
    | nil => cases h
    | cons c cs =>
      simp only at h
      split_ifs at h
      cases h
      simp

end Scan

namespace Cursor

open Scan

theorem Stands.ne_nil {admitted : TerminalSet} {c : Cursor} {t : Terminal} {s : Split}
    (h : c.Stands admitted t s) : s.1 ≠ [] := by
  rcases h with h | ⟨-, -, h⟩
  · obtain ⟨e, -, h⟩ := List.exists_of_findSome?_eq_some h
    split_ifs at h
    obtain ⟨s', hs', hs⟩ := Option.map_eq_some_iff.mp h
    cases hs
    simp only [scanChunk] at hs'
    split_ifs at hs' with _ hempty
    cases hs'
    simpa using hempty
  · unfold matchTerminal at h
    rw [Option.orElse_eq_some, Option.orElse_eq_some] at h
    rcases h with h | ⟨-, h | ⟨-, h⟩⟩
    · unfold matchName at h
      split_ifs at h
      obtain ⟨s', hs', hs⟩ := Option.map_eq_some_iff.mp h
      cases hs
      exact scanName_ne_nil hs'
    · unfold matchOperator at h
      split_ifs at h
      obtain ⟨s', hs', hs⟩ := Option.map_eq_some_iff.mp h
      cases hs
      exact scanOperator_ne_nil hs'
    · obtain ⟨e, he, h⟩ := List.exists_of_findSome?_eq_some h
      split_ifs at h
      obtain ⟨s', hs', hs⟩ := Option.map_eq_some_iff.mp h
      cases hs
      have hspelled : ∀ e ∈ Terminal.spelled, e.2.toList ≠ [] := by decide
      exact scanExact_ne_nil hs' (hspelled e he)

theorem Gap.length_le {admitted : TerminalSet} {c c' : Cursor} (h : Gap admitted c c') :
    c'.rest.length ≤ c.rest.length := by
  induction h with
  | none => exact Nat.le_refl _
  | @some c s c' _ hignored _ ih =>
    have hlength := congrArg List.length (divides_scanIgnored _ _ hignored)
    rw [List.length_append] at hlength
    change c'.rest.length ≤ s.2.length at ih
    omega

end Cursor

namespace Parser

/-- How many characters of the source are left at most: one for the token that comes next, and those
behind it. -/
def left (s : Parser) : Nat :=
  match s.lookahead with
  | some _ => s.cursor.rest.length + 1
  | none => 0

theorem left_read {c : Cursor} {last : Position} {admitted : TerminalSet} {s : Parser}
    (h : read c last admitted = .ok s) : s.left ≤ c.rest.length := by
  unfold read at h
  split at h
  · next t after hnext =>
    cases h
    obtain ⟨c', kind, split, hgap, hstands, -, rfl⟩ := Cursor.exists_gap hnext
    have hlength := congrArg List.length hstands.divides
    have hne := List.length_pos_iff.mpr hstands.ne_nil
    have hle := hgap.length_le
    rw [List.length_append] at hlength
    change split.2.length + 1 ≤ c.rest.length
    omega
  · simp only [Bind.bind, Except.bind] at h
    split at h
    · cases h
    · cases h
      exact Nat.zero_le _
  · cases h

theorem left_take {s s' : Parser} {t : Terminal} {admitted : TerminalSet} {found : Token}
    (h : s.take t admitted = .ok (found, s')) : s'.left < s.left := by
  obtain ⟨hlookahead, -, last, hread⟩ := take_eq_ok h
  have hleft : s.left = s.cursor.rest.length + 1 := by rw [left, hlookahead]
  have hle := left_read hread
  omega

end Parser

namespace Pattern

/-- Whatever the pattern is read from, a token is taken. A source may be empty. -/
def consumes : Pattern → Bool
  | token _ => true
  | rule r => r != .source
  | seq p q => p.consumes || q.consumes
  | alt p q => p.consumes && q.consumes
  | opt _ => false
  | plus _ p | resume _ _ p => p.consumes

theorem consumes_body {r : Rule} (h : (rule r).consumes) : r.body.consumes := by
  revert h
  cases r <;> decide

theorem Reads.left_le {p : Pattern} {after : TerminalSet} {parts parts' : List Tree} {s s' : Parser}
    (h : p.Reads after parts s parts' s') :
    s'.left ≤ s.left ∧ (p.consumes → s'.left < s.left) := by
  induction h with
  | token htake => exact ⟨Nat.le_of_lt (Parser.left_take htake), fun _ => Parser.left_take htake⟩
  | rule _ _ ih => exact ⟨ih.1, fun hr => ih.2 (consumes_body hr)⟩
  | seq _ _ ih ih' =>
    refine ⟨Nat.le_trans ih'.1 ih.1, fun h => ?_⟩
    rcases (Bool.or_eq_true _ _).mp h with h | h
    · exact Nat.lt_of_le_of_lt ih'.1 (ih.2 h)
    · exact Nat.lt_of_lt_of_le (ih'.2 h) ih.1
  | left _ _ ih => exact ⟨ih.1, fun h => ih.2 ((Bool.and_eq_true _ _).mp h).1⟩
  | right _ _ ih => exact ⟨ih.1, fun h => ih.2 ((Bool.and_eq_true _ _).mp h).2⟩
  | none => exact ⟨Nat.le_refl _, fun h => by cases h⟩
  | some _ _ ih => exact ⟨ih.1, fun h => by cases h⟩
  | once _ _ _ ih => exact ih
  | more _ _ _ _ ih ih' =>
    exact ⟨Nat.le_trans ih'.1 ih.1, fun h => Nat.lt_of_lt_of_le (ih'.2 h) ih.1⟩
  | resume _ _ ih => exact ih

/-- Reading a pattern that takes a token leaves less of the source. -/
theorem Reads.left_lt {p : Pattern} {after : TerminalSet} {parts parts' : List Tree}
    {s s' : Parser} (h : p.Reads after parts s parts' s') (hp : p.consumes) :
    s'.left < s.left := h.left_le.2 hp

end Pattern

/-! ## Depths -/

/-- How deep a phrase goes before the token after its first one is reached. -/
def Rule.height : Rule → Nat
  | source => 35
  | typeDeclaration | member => 30
  | constraint | parameterList => 27
  | modifier | parameter => 25
  | baseType | methodDeclaration | propertyDeclaration | indexerDeclaration | fieldDeclaration
  | operatorDeclaration | tupleElement => 23
  | type => 21
  | predefinedType => 17
  | typeParameter | memberBody | namedType | expression => 12
  | _ => 8

namespace Pattern

/-- How deep a pattern goes if every token that is taken makes room for a hundred levels more. -/
def height : Pattern → Nat
  | token _ => 1
  | rule r => r.height
  | seq p q => max p.height (if p.consumes then q.height - 100 else q.height) + 1
  | alt p q => max p.height q.height + 1
  | opt p | plus _ p | resume _ _ p => p.height + 1

theorem height_body (r : Rule) : r.body.height + 1 ≤ r.height := by
  cases r <;> decide

/-- What is repeated takes tokens. -/
def isSteady : Pattern → Bool
  | token _ | rule _ => true
  | seq p q | alt p q => p.isSteady && q.isSteady
  | opt p | resume _ _ p => p.isSteady
  | plus _ p => p.consumes && p.isSteady

theorem isSteady_body (r : Rule) : r.body.isSteady := by
  cases r <;> decide

/-- **What can be read is parsed** with room for a hundred levels at every token. -/
theorem parse_of_reads {p : Pattern} {after : TerminalSet} {parts parts' : List Tree}
    {s s' : Parser} (h : p.Reads after parts s parts' s') (hp : p.isSteady) {d : Nat}
    (hdepth : p.height + 100 * s.left ≤ d + 100 * s'.left) :
    p.parse d after parts s = .ok (parts', s') := by
  have hpos : ∀ p : Pattern, 1 ≤ p.height := by
    intro p
    cases p with
    | rule r => exact Nat.le_trans (Nat.le_add_left 1 _) (height_body r)
    | token => exact Nat.le_refl 1
    | _ => exact Nat.le_add_left 1 _
  induction h generalizing d with
  | @token t after parts s found s' htake =>
    have hlt := Parser.left_take htake
    obtain ⟨d, rfl⟩ : ∃ e, d = e + 1 := ⟨d - 1, by have := hpos (token t); omega⟩
    simp only [parse, htake, Bind.bind, Except.bind, pure, Except.pure]
  | @rule r after parts s inner s' hreads hcheck ih =>
    have hle := hreads.left_le.1
    have hbody := height_body r
    change r.height + _ ≤ _ at hdepth
    obtain ⟨d, rfl⟩ : ∃ e, d = e + 1 := ⟨d - 1, by omega⟩
    have hparse := ih (isSteady_body r) (d := d) (by omega)
    simp only [parse, hparse, hcheck, Bind.bind, Except.bind, pure, Except.pure]
  | @seq p q after parts s parts₁ s₁ parts₂ s₂ hreads hreads' ih ih' =>
    have hle := hreads.left_le.1
    have hle' := hreads'.left_le.1
    obtain ⟨hp, hq⟩ := (Bool.and_eq_true _ _).mp hp
    simp only [height] at hdepth
    have hroom : q.height + 100 * s₁.left ≤
        max p.height (if p.consumes then q.height - 100 else q.height) + 100 * s.left := by
      split_ifs with hconsumes
      · have hlt := hreads.left_lt hconsumes
        omega
      · omega
    obtain ⟨d, rfl⟩ : ∃ e, d = e + 1 := ⟨d - 1, by omega⟩
    have hparse := ih hp (d := d) (by omega)
    have hparse' := ih' hq (d := d) (by omega)
    simp only [parse, hparse, hparse', Bind.bind, Except.bind]
  | @left p q after parts s parts' s' hfirst hreads ih =>
    have hle := hreads.left_le.1
    simp only [height] at hdepth
    obtain ⟨d, rfl⟩ : ∃ e, d = e + 1 := ⟨d - 1, by omega⟩
    have hparse := ih ((Bool.and_eq_true _ _).mp hp).1 (d := d) (by omega)
    simp only [parse, if_pos hfirst, hparse]
  | @right p q after parts s parts' s' hfirst hreads ih =>
    have hle := hreads.left_le.1
    simp only [height] at hdepth
    obtain ⟨d, rfl⟩ : ∃ e, d = e + 1 := ⟨d - 1, by omega⟩
    have hparse := ih ((Bool.and_eq_true _ _).mp hp).2 (d := d) (by omega)
    simp only [parse, if_neg hfirst, hparse]
  | @none p after parts s hfirst =>
    simp only [height] at hdepth
    obtain ⟨d, rfl⟩ : ∃ e, d = e + 1 := ⟨d - 1, by omega⟩
    simp only [parse, if_neg hfirst]
  | @some p after parts s parts' s' hfirst hreads ih =>
    have hle := hreads.left_le.1
    simp only [height] at hdepth
    obtain ⟨d, rfl⟩ : ∃ e, d = e + 1 := ⟨d - 1, by omega⟩
    have hparse := ih hp (d := d) (by omega)
    simp only [parse, if_pos hfirst, hparse]
  | @once p repeated after parts s parts' s' hreads hcheck hfirst ih =>
    have hle := hreads.left_le.1
    simp only [height] at hdepth
    obtain ⟨d, rfl⟩ : ∃ e, d = e + 1 := ⟨d - 1, by omega⟩
    have hparse := ih ((Bool.and_eq_true _ _).mp hp).2 (d := d) (by omega)
    simp only [parse, hparse, hcheck, if_neg hfirst, Bind.bind, Except.bind, pure, Except.pure]
  | @more p repeated after parts s parts₁ s₁ parts₂ s₂ hreads hcheck hfirst hreads' ih ih' =>
    have hlt := hreads.left_lt ((Bool.and_eq_true _ _).mp hp).1
    have hle' := hreads'.left_le.1
    simp only [height] at hdepth
    obtain ⟨d, rfl⟩ : ∃ e, d = e + 1 := ⟨d - 1, by omega⟩
    have hparse := ih ((Bool.and_eq_true _ _).mp hp).2 (d := d) (by omega)
    have hparse' := ih' hp (d := d) (by simp only [height]; omega)
    simp only [parse, hparse, hcheck, if_pos hfirst, hparse', Bind.bind, Except.bind]
  | @resume r n p after parts s inner s' hreads hcheck ih =>
    have hle := hreads.left_le.1
    simp only [height] at hdepth
    obtain ⟨d, rfl⟩ : ∃ e, d = e + 1 := ⟨d - 1, by omega⟩
    have hparse := ih hp (d := d) (by omega)
    simp only [parse, hparse, hcheck, Bind.bind, Except.bind, pure, Except.pure]

end Pattern

/-- **A source whose phrases can be read is parsed.** -/
theorem Tree.parse_of_reads {source : List Char} {s s' : Parser} {parts : List Tree}
    (hread : Parser.read (Cursor.ofSource source) .start
      (Rule.source.body.admits Rule.source.follow) = .ok s)
    (h : Rule.source.body.Reads Rule.source.follow [] s parts s') :
    Tree.parse source = .ok (Rule.source.node parts.reverse) := by
  have hleft : s.left ≤ source.length := Parser.left_read hread
  have hbody := Pattern.height_body .source
  have hparse := Pattern.parse_of_reads h (Pattern.isSteady_body .source)
    (d := nestingBound source.length) (by
      have : Rule.source.height = 35 := rfl
      unfold nestingBound
      omega)
  simp only [Tree.parse, hread, hparse, Bind.bind, Except.bind, pure, Except.pure]

end Facade
