import Facade.Proofs.Grammar.BlockText

/-!
# Text between the tokens

White space and closed comments may stand between two tokens. They are skipped where no chunk can begin,
and become part of an expression where one begins.

* `Scan.IsFiller`: white space, comments up to a line feed and closed comments;
* `TerminalSet.isChunkless`, **`Scan.Lexes.filler`**: where no chunk is admitted it is skipped;
* `Scan.Items.filler`: in an expression all of it is taken;
* `Scan.Grown`, **`Scan.exists_grown`**: where an expression comes next, its first chunk takes it.
-/

namespace Facade

open Text

/-- No chunk is in the set. -/
def TerminalSet.isChunkless (s : TerminalSet) : Bool :=
  Scan.chunkTerminals.all fun e => !s.contains e.1

/-- The chunk of an expression is in the set, and no other one. -/
def TerminalSet.isOfExpression (s : TerminalSet) : Bool :=
  s.contains .expressionChunk &&
    Scan.chunkTerminals.all fun e => !s.contains e.1 || e.1 == .expressionChunk

namespace Scan

variable {A : TerminalSet} {T cs : List Char} {a : Ahead}

/-- White space, comments with a line feed behind them, and comments that are closed. -/
inductive IsFiller : List Char → Prop
  | nil : IsFiller []
  | blank {c cs} : isLayout c = true → IsFiller cs → IsFiller (c :: cs)
  | line {inner cs} : '\n' ∉ inner → IsFiller cs →
      IsFiller ('/' :: '/' :: (inner ++ '\n' :: cs))
  | comment {inner cs} : ¬ ['*', '/'] <:+: inner → IsFiller cs →
      IsFiller ('/' :: '*' :: (inner ++ '*' :: '/' :: cs))

/-! ## Where no chunk is admitted -/

theorem matchChunk_of_isChunkless (h : A.isChunkless) (cs : List Char) : matchChunk A cs = none :=
  List.findSome?_eq_none_iff.mpr fun e he => by
    have hnot := List.all_eq_true.mp h e he
    refine if_neg fun hmem => ?_
    rw [show A.contains e.1 = true from hmem] at hnot
    cases hnot

/-- **Filler before a token is skipped.** -/
theorem Lexes.filler (hT : IsFiller T) (hA : A.isChunkless) (h : Lexes A cs a) :
    Lexes A (T ++ cs) a := by
  induction hT with
  | nil => exact h
  | blank hc _ ih => exact ih.blank hc
  | @line inner T hinner _ ih =>
    have hwhile : scanWhile (· != '\n') (inner ++ '\n' :: (T ++ cs)) = (inner, '\n' :: (T ++ cs)) :=
      scanWhile_append_of (fun c hc => by
        have hne : c ≠ '\n' := by rintro rfl; exact hinner hc
        simpa using hne) (by simp)
    refine .skip (matchChunk_of_isChunkless hA _) (s := ('/' :: '/' :: inner, '\n' :: (T ++ cs))) ?_
      (ih.blank (by decide))
    simp [scanIgnored, hwhile, prepend]
  | @comment inner T hinner _ ih =>
    refine .skip (matchChunk_of_isChunkless hA _)
      (s := ('/' :: '*' :: (inner ++ ['*', '/']), T ++ cs)) ?_ ih
    simp [scanIgnored, scanCommentEnd_of_not_infix hinner, prepend]

/-! ## Where an expression comes next -/

theorem scanItem_of_isLayout {c : Char} (hc : isLayout c = true) (cs : List Char) :
    scanItem .inExpression (c :: cs) = some ([c], cs) := by
  simp only [isLayout, Bool.or_eq_true, beq_iff_eq] at hc
  rcases hc with (((rfl | rfl) | rfl) | rfl) | rfl <;> simp [scanItem, Chunk.stops]

/-- **All filler is taken in an expression.** -/
theorem Items.filler (hT : IsFiller T) {s : Split} (h : Items .inExpression cs s) :
    Items .inExpression (T ++ cs) (prepend T s) := by
  induction hT with
  | nil => exact h
  | @blank c T hc _ ih => exact .cons (s := ([c], T ++ cs)) (scanItem_of_isLayout hc _) ih
  | @line inner T hinner _ ih =>
    have hwhile : scanWhile (· != '\n') (inner ++ '\n' :: (T ++ cs)) = (inner, '\n' :: (T ++ cs)) :=
      scanWhile_append_of (fun c hc => by
        have hne : c ≠ '\n' := by rintro rfl; exact hinner hc
        simpa using hne) (by simp)
    have hitem : scanItem .inExpression ('/' :: '/' :: (inner ++ '\n' :: (T ++ cs))) =
        some ('/' :: '/' :: inner, '\n' :: (T ++ cs)) := by
      simp [scanItem, hwhile, prepend]
    have hitems := Items.cons hitem
      (.cons (s := (['\n'], T ++ cs)) (scanItem_of_isLayout (by decide) _) ih)
    simpa [prepend] using hitems
  | @comment inner T hinner _ ih =>
    have hitem : scanItem .inExpression ('/' :: '*' :: (inner ++ '*' :: '/' :: (T ++ cs))) =
        some ('/' :: '*' :: (inner ++ ['*', '/']), T ++ cs) := by
      simp [scanItem, scanCommentEnd_of_not_infix hinner, prepend]
    have hitems := Items.cons hitem ih
    simpa [prepend] using hitems

theorem IsFiller.split (hT : IsFiller T) : ∃ gap T', T = gap ++ T' ∧ isGap gap = true ∧ IsFiller T' ∧
    (T' = [] ∨ T'.head? = some '/') := by
  induction hT with
  | nil => exact ⟨[], [], rfl, rfl, .nil, Or.inl rfl⟩
  | @blank c T hc _ ih =>
    obtain ⟨gap, T', rfl, hgap, hT', hhead⟩ := ih
    exact ⟨c :: gap, T', rfl, by simpa [isGap, hc] using hgap, hT', hhead⟩
  | line hinner hT _ => exact ⟨[], _, rfl, rfl, .line hinner hT, Or.inr rfl⟩
  | comment hinner hT _ => exact ⟨[], _, rfl, rfl, .comment hinner hT, Or.inr rfl⟩

theorem Items.gap {gap : List Char} (hgap : isGap gap = true) {s : Split}
    (h : Items .inExpression cs s) : Items .inExpression (gap ++ cs) (prepend gap s) := by
  have hfiller : IsFiller gap := by
    induction gap with
    | nil => exact .nil
    | cons c gap ih =>
      simp only [isGap, List.all_cons, Bool.and_eq_true] at hgap ih
      exact .blank hgap.1 (ih hgap.2)
  exact h.filler hfiller

/-- Where ignored text begins like white space, it is white space. -/
theorem isGap_of_scanIgnored {s : Split} (h : scanIgnored cs = some s)
    (hblank : cs.head?.any isBlank = true) : isGap s.1 = true := by
  unfold scanIgnored at h
  split at h
  · cases hblank
  · cases hblank
  · cases hblank
  · cases hblank
  · next c cs _ _ _ _ =>
    split_ifs at h with hc
    cases h
    simp only [isGap, prepend, List.singleton_append, List.all_cons, hc, Bool.true_and]
    exact List.all_takeWhile
  · cases h

/-- What begins an expression: a chunk, or a brace. -/
inductive OpensExpression (a : Ahead) : List Char → Prop
  | chunk : a.terminal = .expressionChunk → OpensExpression a a.rest
  | brace : a.terminal = .leftBrace → OpensExpression a (a.word ++ a.rest)

theorem not_chunk_of_matchTerminal {t : Terminal} {s : Split} (h : matchTerminal A cs = some (t, s)) :
    ∀ e ∈ chunkTerminals, e.1 ≠ t := by
  have hspelled : ∀ e ∈ chunkTerminals, ∀ e' ∈ Terminal.spelled, e.1 ≠ e'.1 := by decide
  have hother : ∀ e ∈ chunkTerminals, e.1 ≠ .name ∧ e.1 ≠ .operatorSymbol := by decide
  intro e he ht
  unfold matchTerminal at h
  rw [Option.orElse_eq_some, Option.orElse_eq_some] at h
  rcases h with h | ⟨-, h | ⟨-, h⟩⟩
  · unfold matchName at h
    split_ifs at h
    obtain ⟨s', -, heq⟩ := Option.map_eq_some_iff.mp h
    obtain ⟨w, hw, -⟩ := mem_words_of_classifyName (congrArg Prod.fst heq) (ht ▸ (hother e he).1)
    exact hspelled e he _ (List.mem_append_left _ hw) ht
  · unfold matchOperator at h
    split_ifs at h
    obtain ⟨s', -, heq⟩ := Option.map_eq_some_iff.mp h
    have hclass : classifyOperator A s'.1 = t := congrArg Prod.fst heq
    unfold classifyOperator at hclass
    split at hclass
    · next e' he' =>
      exact hspelled e he e' (List.mem_append_right _ (List.mem_of_find?_eq_some he'))
        (ht.trans hclass.symm)
    · exact (hother e he).2 (ht.trans hclass.symm)
  · obtain ⟨e', he', h⟩ := List.exists_of_findSome?_eq_some h
    split_ifs at h
    obtain ⟨s', -, heq⟩ := Option.map_eq_some_iff.mp h
    have hterminal : e'.1 = t := congrArg Prod.fst heq
    exact hspelled e he e' he' (ht.trans hterminal.symm)

theorem matchChunk_expression (hA : A.isOfExpression) (cs : List Char) :
    matchChunk A cs = (scanChunk .inExpression cs).map fun s => (.expressionChunk, s) := by
  simp only [TerminalSet.isOfExpression, Bool.and_eq_true, List.all_eq_true, Bool.or_eq_true,
    Bool.not_eq_true', beq_iff_eq] at hA
  refine matchChunk_of_only (by decide) hA.1 (fun e he hmem => ?_) cs
  have hterminal : e.1 = .expressionChunk := (hA.2 e he).resolve_left fun hnot => by
    rw [show A.contains e.1 = true from hmem] at hnot
    cases hnot
  exact chunkTerminals_unique e he _ (by decide) hterminal

theorem Lexes.items (h : Lexes A cs a) (hA : A.isOfExpression) {rest : List Char}
    (ha : OpensExpression a rest) : ∃ taken, Items .inExpression cs (taken, rest) := by
  have hchunk := matchChunk_expression hA
  induction h with
  | @chunk cs t s h =>
    rw [hchunk] at h
    obtain ⟨s', hs', heq⟩ := Option.map_eq_some_iff.mp h
    cases heq
    cases ha with
    | chunk => exact ⟨s.1, (scanChunk_eq_some_iff.mp hs').2.1⟩
    | brace hterminal => cases hterminal
  | @skip cs s a hnone hignored _ ih =>
    obtain ⟨taken, hitems⟩ := ih ha
    rw [hchunk, Option.map_eq_none_iff, scanChunk_eq_none_iff] at hnone
    have hgap : isGap s.1 = true := by
      rcases hnone with hblank | hitem
      · exact isGap_of_scanIgnored hignored hblank
      · have hstop := stops_of_scanIgnored hignored hitem
        cases cs with
        | nil => cases hstop
        | cons c cs =>
          simp only [List.head?_cons, Option.any_some, Chunk.stops, Bool.or_eq_true,
            beq_iff_eq] at hstop
          rcases hstop with (rfl | rfl) | rfl <;> simp [scanIgnored, isLayout] at hignored
    have hall := hitems.gap hgap
    rw [← divides_scanIgnored _ _ hignored] at hall
    exact ⟨_, hall⟩
  | @terminal cs t s _ _ h =>
    cases ha with
    | chunk hterminal =>
      have hnot := not_chunk_of_matchTerminal h (.expressionChunk, .inExpression) (by decide)
      exact absurd hterminal.symm hnot
    | brace hterminal =>
      obtain rfl : t = .leftBrace := hterminal
      have hword : s.1 = ['\x7b'] := by
        rw [← String.toList_ofList (l := s.1), (fits_of_matchTerminal h).word "\x7b" rfl]
        rfl
      have hcs := divides_matchTerminal h
      refine ⟨[], ?_⟩
      change Items _ _ ([], s.1 ++ s.2)
      rw [← hcs]
      refine .nil ?_
      rw [hcs, hword]
      exact scanItem_of_stops (by decide) _
  | atEnd => cases ha with
    | chunk h => cases h
    | brace h => cases h

/-- The first chunk of an expression that has filler before it: it takes the filler, and either ends where
it ended, or before the brace that came first. -/
structure Grown (a a' : Ahead) : Prop where
  terminal : a'.terminal = .expressionChunk
  opens : OpensExpression a a'.rest

/-- **Before an expression filler is skipped or becomes part of its first chunk.** -/
theorem exists_grown (hT : IsFiller T) (hA : A.isOfExpression) (h : Lexes A cs a) {rest : List Char}
    (ha : OpensExpression a rest) : ∃ a', Lexes A (T ++ cs) a' ∧ (a' = a ∨ Grown a a') := by
  obtain ⟨gap, T', rfl, hgap, hT', hhead⟩ := hT.split
  rw [List.append_assoc]
  rcases hhead with rfl | hhead
  · exact ⟨a, h.gap hgap, Or.inl rfl⟩
  · obtain ⟨taken, hitems⟩ := h.items hA ha
    have hall := hitems.filler hT'
    obtain ⟨z, rfl⟩ := List.head?_eq_some_iff.mp hhead
    have hchunk : scanChunk .inExpression ('/' :: z ++ cs) = some ('/' :: z ++ taken, rest) :=
      scanChunk_eq_some_iff.mpr ⟨rfl, hall, by simp⟩
    have hlexes : Lexes A ('/' :: z ++ cs) ⟨.expressionChunk, '/' :: z ++ taken, rest⟩ := by
      refine .chunk (s := ('/' :: z ++ taken, rest)) ?_
      rw [matchChunk_expression hA, hchunk]
      rfl
    exact ⟨_, hlexes.gap hgap, Or.inr ⟨rfl, ha⟩⟩

end Scan

end Facade
