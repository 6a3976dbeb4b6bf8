import Facade.Proofs.Grammar.Lexing
import Facade.Proofs.Grammar.Spelling

/-!
# What comes next in a text

A token is read where some terminals are admitted. What is read depends on the text from there on, and
where it stands does not matter.

* `Ahead`, `Scan.Lexes`: the token that comes next, and how it is found;
* `Scan.lexes_name`, `Scan.lexes_word`, `Scan.lexes_sign`: names, words and signs are read as they are
  written;
* `Scan.Lexes.layout`, `Scan.Lexes.directive`: what stands before them is ignored;
* **`Scan.Lexes.of_isWithin`**: where fewer terminals are admitted, the same is read.
-/

namespace Facade

open Text

/-- What comes next in a text: a token, and the text behind it. -/
structure Ahead where
  terminal : Terminal
  word : List Char
  rest : List Char
deriving DecidableEq

/-- The end of a text. -/
def Ahead.atEnd : Ahead := ⟨.endOfInput, [], []⟩

/-- The terminals that are read otherwise than names, words and signs. -/
def Terminal.opaques : List Terminal :=
  [.operatorSymbol, .parameterChunk, .expressionChunk, .bodyChunk, .attributeChunk, .argumentChunk]

/-- Neither chunks nor operators are in the set. -/
def TerminalSet.isPlain (s : TerminalSet) : Bool := Terminal.opaques.all fun t => !s.contains t

namespace TerminalSet

theorem not_mem_of_isPlain {s : TerminalSet} (h : s.isPlain) {t : Terminal}
    (ht : t ∈ Terminal.opaques) : t ∉ s := fun hmem => by
  have hnot := List.all_eq_true.mp h t ht
  rw [show s.contains t = true from hmem] at hnot
  cases hnot

@[simp] theorem mem_single {t t' : Terminal} : t ∈ single t' ↔ t = t' := by
  change (1 <<< t'.ctorIdx).testBit t.ctorIdx = true ↔ t = t'
  rw [Nat.one_shiftLeft, Nat.testBit_two_pow, decide_eq_true_eq]
  refine ⟨fun h => ?_, fun h => h ▸ rfl⟩
  rw [← Terminal.ofNat_ctorIdx t, ← h, Terminal.ofNat_ctorIdx]

/-- Every terminal of one set is in the other. -/
def isWithin (a b : TerminalSet) : Bool := a.bits &&& b.bits == a.bits

theorem mem_of_isWithin {a b : TerminalSet} (h : a.isWithin b) {t : Terminal} (ht : t ∈ a) :
    t ∈ b := by
  change b.bits.testBit t.ctorIdx = true
  have hbit : a.bits.testBit t.ctorIdx = true := ht
  rw [← beq_iff_eq.mp h, Nat.testBit_and, Bool.and_eq_true] at hbit
  exact hbit.2

/-- No terminal is in both sets. -/
def isApart (a b : TerminalSet) : Bool := a.bits &&& b.bits == 0

theorem not_mem_of_isApart {a b : TerminalSet} (h : a.isApart b) {t : Terminal} (ht : t ∈ a) :
    t ∉ b := fun hmem => by
  have hbit : (a.bits &&& b.bits).testBit t.ctorIdx = true := by
    rw [Nat.testBit_and, Bool.and_eq_true]
    exact ⟨ht, hmem⟩
  rw [beq_iff_eq.mp h, Nat.zero_testBit] at hbit
  cases hbit

theorem isPlain_of_isWithin {a b : TerminalSet} (h : a.isWithin b) (hb : b.isPlain) : a.isPlain :=
  List.all_eq_true.mpr fun t ht => by
    have hnot : t ∉ a := fun hmem => not_mem_of_isPlain hb ht (mem_of_isWithin h hmem)
    simpa using Bool.eq_false_iff.mpr hnot

end TerminalSet

namespace Scan

/-- What comes next in a text where some terminals are admitted. -/
inductive Lexes (admitted : TerminalSet) : List Char → Ahead → Prop
  | chunk {cs t s} : matchChunk admitted cs = some (t, s) → Lexes admitted cs ⟨t, s.1, s.2⟩
  | skip {cs s a} : matchChunk admitted cs = none → scanIgnored cs = some s →
      Lexes admitted s.2 a → Lexes admitted cs a
  | terminal {cs t s} : matchChunk admitted cs = none → scanIgnored cs = none →
      matchTerminal admitted cs = some (t, s) → Lexes admitted cs ⟨t, s.1, s.2⟩
  | atEnd : .endOfInput ∈ admitted → Lexes admitted [] .atEnd

variable {admitted : TerminalSet}

theorem matchChunk_of_isPlain (h : admitted.isPlain) (cs : List Char) :
    matchChunk admitted cs = none := by
  have hchunks : ∀ e ∈ chunkTerminals, e.1 ∈ Terminal.opaques := by decide
  exact List.findSome?_eq_none_iff.mpr fun e he =>
    if_neg (TerminalSet.not_mem_of_isPlain h (hchunks e he))

theorem matchOperator_of_isPlain (h : admitted.isPlain) (cs : List Char) :
    matchOperator admitted cs = none :=
  if_neg (TerminalSet.not_mem_of_isPlain h List.mem_cons_self)

/-! ## Ignored text -/

/-- White space that may stand between tokens. -/
def isGap (gap : List Char) : Bool := gap.all isLayout

theorem scanIgnored_layout {gap cs : List Char} (hne : gap ≠ []) (hgap : isGap gap)
    (hcs : ∀ c ∈ cs.head?, isLayout c = false) : scanIgnored (gap ++ cs) = some (gap, cs) := by
  obtain ⟨c, gap, rfl⟩ := List.exists_cons_of_ne_nil hne
  simp only [isGap, List.all_cons, Bool.and_eq_true] at hgap
  have hwhile := scanWhile_append_of (List.all_eq_true.mp hgap.2) hcs
  have hslash : c ≠ '/' := by rintro rfl; exact absurd hgap.1 (by decide)
  have hhash : c ≠ '#' := by rintro rfl; exact absurd hgap.1 (by decide)
  have hbracket : c ≠ '[' := by rintro rfl; exact absurd hgap.1 (by decide)
  rw [List.cons_append, scanIgnored]
  · simp only [hgap.1, if_true, hwhile, prepend, List.singleton_append]
  all_goals intros; simp_all

theorem scanIgnored_eq_none {c : Char} {cs : List Char} (hc : c ∉ ['/', '#', '['])
    (hlayout : isLayout c = false) : scanIgnored (c :: cs) = none := by
  simp only [List.mem_cons, List.not_mem_nil, or_false, not_or] at hc
  rw [scanIgnored]
  · simp [hlayout]
  all_goals intros; simp_all

/-- What comes after white space comes next. -/
theorem Lexes.layout {cs gap : List Char} {a : Ahead} (h : Lexes admitted cs a)
    (hplain : admitted.isPlain) (hgap : isGap gap) (hcs : ∀ c ∈ cs.head?, isLayout c = false) :
    Lexes admitted (gap ++ cs) a := by
  cases gap with
  | nil => exact h
  | cons c gap =>
    exact .skip (matchChunk_of_isPlain hplain _) (scanIgnored_layout (by simp) hgap hcs) h

/-- What comes after the line of a directive comes next. -/
theorem Lexes.directive {cs line : List Char} {a : Ahead} (h : Lexes admitted ('\n' :: cs) a)
    (hplain : admitted.isPlain) (hline : '\n' ∉ line) :
    Lexes admitted ('#' :: (line ++ '\n' :: cs)) a := by
  have hwhile : scanWhile (· != '\n') (line ++ '\n' :: cs) = (line, '\n' :: cs) :=
    scanWhile_append_of (fun c hc => by
      have hne : c ≠ '\n' := by rintro rfl; exact hline hc
      simpa using hne) (by simp)
  refine .skip (matchChunk_of_isPlain hplain _) (s := ('#' :: line, '\n' :: cs)) ?_ h
  simp [scanIgnored, hwhile, prepend]

/-! ## Names -/

/-- No word goes on in this text. -/
def EndsWord (rest : List Char) : Prop := ∀ c ∈ rest.head?, isWord c = false

theorem endsWord_cons {c : Char} (hc : isWord c = false) (cs : List Char) : EndsWord (c :: cs) := by
  simpa [EndsWord] using hc

theorem scanPlainName_append {n rest : List Char} (hn : IsPlainName n) (hrest : EndsWord rest) :
    scanPlainName (n ++ rest) = some (n, rest) := by
  cases n with
  | nil => cases hn
  | cons c n =>
    simp only [List.cons_append, scanPlainName, hn.1, if_true, scanWhile_append_of hn.2 hrest,
      prepend, List.nil_append]

theorem isWord_of_isNameStart {c : Char} (h : isNameStart c) : isWord c = true := by
  simp only [isNameStart, Bool.and_eq_true] at h
  exact h.1

theorem ne_of_isNameStart {c d : Char} (hc : isNameStart c) (hd : isWord d = false) : c ≠ d := by
  rintro rfl
  rw [isWord_of_isNameStart hc] at hd
  cases hd

theorem scanName_append {n rest : List Char} (hn : IsName n) (hrest : EndsWord rest) :
    scanName (n ++ rest) = some (n, rest) := by
  rcases hn with hn | ⟨plain, rfl, hn⟩
  · cases n with
    | nil => cases hn
    | cons c n =>
      have hc : c ≠ '@' := ne_of_isNameStart hn.1 (by decide)
      have hplain := scanPlainName_append hn hrest
      rw [List.cons_append] at hplain ⊢
      rw [scanName, hplain]
      intro cs hcs
      exact hc (List.cons.inj hcs).1
  · simp only [List.cons_append, scanName, scanPlainName_append hn hrest, Option.map_some, prepend,
      List.nil_append]

theorem head_of_isName {n : List Char} (hn : IsName n) :
    ∃ c cs, n = c :: cs ∧ c ∉ ['/', '#', '['] ∧ isLayout c = false := by
  rcases hn with hn | ⟨plain, rfl, -⟩
  · cases n with
    | nil => cases hn
    | cons c n =>
      have hne : ∀ {d : Char}, isWord d = false → c ≠ d := ne_of_isNameStart hn.1
      refine ⟨c, n, rfl, ?_, ?_⟩
      · simp only [List.mem_cons, List.not_mem_nil, or_false, not_or]
        exact ⟨hne (by decide), hne (by decide), hne (by decide)⟩
      · simp only [isLayout, Bool.or_eq_false_iff, beq_eq_false_iff_ne]
        exact ⟨⟨⟨⟨hne (by decide), hne (by decide)⟩, hne (by decide)⟩, hne (by decide)⟩,
          hne (by decide)⟩
  · exact ⟨'@', plain, rfl, by decide, by decide⟩

theorem lexes_isName {n rest gap : List Char} (hplain : admitted.isPlain) (hname : .name ∈ admitted)
    (hn : IsName n) (hgap : isGap gap) (hrest : EndsWord rest) :
    Lexes admitted (gap ++ (n ++ rest)) ⟨classifyName admitted n, n, rest⟩ := by
  obtain ⟨c, cs, hcs, hc, hlayout⟩ := head_of_isName hn
  refine Lexes.layout (.terminal (s := (n, rest)) (matchChunk_of_isPlain hplain _) ?_ ?_) hplain
    hgap ?_
  · rw [hcs, List.cons_append, scanIgnored_eq_none hc hlayout]
  · rw [matchTerminal, matchName, if_pos hname, scanName_append hn hrest]
    rfl
  · simpa [hcs] using hlayout

/-- **A name is read as it is written**, where it is no word. -/
theorem lexes_name {n rest gap : List Char} (hplain : admitted.isPlain) (hname : .name ∈ admitted)
    (hn : IsName n) (hread : classifyName admitted n = .name) (hgap : isGap gap)
    (hrest : EndsWord rest) : Lexes admitted (gap ++ (n ++ rest)) ⟨.name, n, rest⟩ :=
  hread ▸ lexes_isName hplain hname hn hgap hrest

/-! ## Words and signs -/

/-- The characters with which a longer word or sign goes on. -/
def goesOnWith (w : List Char) : List Char :=
  Terminal.spelled.filterMap fun e =>
    if w.isPrefixOf e.2.toList then (e.2.toList.drop w.length).head? else none

theorem pairwise_spelled :
    Terminal.spelled.Pairwise fun e e' => e.2.toList.isPrefixOf e'.2.toList = false := by
  decide +kernel

theorem matchSpelled_append {t : Terminal} {w : String} (hmem : (t, w) ∈ Terminal.spelled)
    (ht : t ∈ admitted) (halone : isReadByItself admitted t) {rest : List Char}
    (hrest : ∀ c ∈ rest.head?, c ∉ goesOnWith w.toList) :
    matchSpelled admitted (w.toList ++ rest) = some (t, (w.toList, rest)) := by
  have hexact : ∀ es rest : List Char, scanExact es (es ++ rest) = some (es, rest) := by
    intro es rest
    induction es with
    | nil => rfl
    | cons e es ih => simp [scanExact, ih, prepend]
  have hlonger : ∀ e ∈ Terminal.spelled, ∀ s, scanExact e.2.toList (w.toList ++ rest) = some s →
      e.2.toList <+: w.toList := by
    intro e he s hs
    obtain ⟨hs', htext⟩ := scanExact_eq_some hs
    have hprefix : e.2.toList <+: w.toList ++ rest := ⟨s.2, htext.symm⟩
    rcases List.prefix_or_prefix_of_prefix hprefix (List.prefix_append w.toList rest) with h | h
    · exact h
    · obtain ⟨u, hu⟩ := h
      cases u with
      | nil => exact ⟨[], by simpa using hu.symm⟩
      | cons c u =>
        rw [← hu, List.append_assoc] at htext
        have hhead : rest.head? = some c := by rw [List.append_cancel_left htext]; rfl
        refine absurd (List.mem_filterMap.mpr ⟨e, he, ?_⟩) (hrest c hhead)
        rw [if_pos (List.isPrefixOf_iff_prefix.mpr ⟨_, hu⟩), ← hu, List.drop_left]
        rfl
  have hfind : ∀ L : List (Terminal × String), (∀ e ∈ L, e ∈ Terminal.spelled) →
      (L.Pairwise fun e e' => e.2.toList.isPrefixOf e'.2.toList = false) → (t, w) ∈ L →
      (L.findSome? fun e => if e.1 ∈ admitted && isReadByItself admitted e.1 then
        (scanExact e.2.toList (w.toList ++ rest)).map fun s => (e.1, s) else none) =
        some (t, (w.toList, rest)) := by
    intro L hL hpairs htw
    induction L with
    | nil => cases htw
    | cons e L ih =>
      rcases List.mem_cons.mp htw with rfl | htw
      · simp [ht, halone, hexact]
      · obtain ⟨hfirst, hpairs⟩ := List.pairwise_cons.mp hpairs
        have hnone : scanExact e.2.toList (w.toList ++ rest) = none := by
          cases hs : scanExact e.2.toList (w.toList ++ rest) with
          | none => rfl
          | some s =>
            have hprefix := List.isPrefixOf_iff_prefix.mpr (hlonger e (hL e List.mem_cons_self) s hs)
            rw [hfirst _ htw] at hprefix
            cases hprefix
        rw [List.findSome?_cons, hnone]
        simpa using ih (fun e he => hL e (List.mem_cons_of_mem _ he)) hpairs htw
  exact hfind _ (fun _ he => he) pairwise_spelled hmem

theorem isPlainName_words : ∀ e ∈ Terminal.words, IsPlainName e.2.toList := by decide

theorem ofWord?_words : ∀ e ∈ Terminal.words, Terminal.ofWord? e.2 = some e.1 := by
  decide

theorem goesOnWith_words : ∀ e ∈ Terminal.words, (goesOnWith e.2.toList).all isWord := by
  decide +kernel

theorem isReadByItself_iff {B : TerminalSet} (hB : B.isPlain) (t : Terminal) :
    isReadByItself B t ↔ (t.isWord → .name ∉ B) := by
  have hoperator : B.contains .operatorSymbol = false :=
    Bool.eq_false_iff.mpr (TerminalSet.not_mem_of_isPlain hB List.mem_cons_self)
  have hname : B.contains .name = false ↔ Terminal.name ∉ B := Bool.eq_false_iff
  cases hw : t.isWord with
  | false => simp [isReadByItself, hoperator, hw]
  | true => simp [isReadByItself, hoperator, hw, hname]

/-- **A word is read where it is admitted.** -/
theorem lexes_word {t : Terminal} {w : String} (hmem : (t, w) ∈ Terminal.words)
    (hplain : admitted.isPlain) (ht : t ∈ admitted) {rest gap : List Char} (hgap : isGap gap)
    (hrest : EndsWord rest) :
    Lexes admitted (gap ++ (w.toList ++ rest)) ⟨t, w.toList, rest⟩ := by
  have hn : IsName w.toList := Or.inl (isPlainName_words _ hmem)
  by_cases hname : Terminal.name ∈ admitted
  · have hclass : classifyName admitted w.toList = t := by
      simp [classifyName, ofWord?_words _ hmem, ht]
    exact hclass ▸ lexes_isName hplain hname hn hgap hrest
  · obtain ⟨c, cs, hcs, hc, hlayout⟩ := head_of_isName hn
    have halone := (isReadByItself_iff hplain t).mpr fun _ => hname
    refine Lexes.layout (.terminal (s := (w.toList, rest)) (matchChunk_of_isPlain hplain _) ?_ ?_)
      hplain hgap ?_
    · rw [hcs, List.cons_append, scanIgnored_eq_none hc hlayout]
    · rw [matchTerminal, matchName, if_neg hname, matchOperator_of_isPlain hplain,
        matchSpelled_append (List.mem_append_left _ hmem) ht halone]
      · rfl
      · intro c hc hmem'
        have hword := List.all_eq_true.mp (goesOnWith_words _ hmem) c hmem'
        rw [hrest c hc] at hword
        cases hword
    · simpa [hcs] using hlayout

theorem head_signs : ∀ e ∈ Terminal.punctuation, e.2.toList.head?.any fun c =>
    !isNameStart c && c != '@' && !isLayout c &&
      (!(['/', '#', '['].contains c) || e.1 == .leftBracket && e.2 == "[") := by
  decide

theorem scanIgnored_bracket {rest : List Char} (h : rest.head?.any fun c => c == ',' || c == ']') :
    scanIgnored ('[' :: rest) = none := by
  cases rest with
  | nil => cases h
  | cons c rest =>
    simp only [List.head?_cons, Option.any_some, Bool.or_eq_true, beq_iff_eq] at h
    rcases h with rfl | rfl <;> rfl

/-- **A sign is read where it is admitted**, if it does not begin a longer one. -/
theorem lexes_sign {t : Terminal} {w : String} (hmem : (t, w) ∈ Terminal.punctuation)
    (hplain : admitted.isPlain) (ht : t ∈ admitted) {rest gap : List Char} (hgap : isGap gap)
    (hrest : ∀ c ∈ rest.head?, c ∉ goesOnWith w.toList)
    (hbracket : t = .leftBracket → rest.head?.any fun c => c == ',' || c == ']') :
    Lexes admitted (gap ++ (w.toList ++ rest)) ⟨t, w.toList, rest⟩ := by
  have hhead := head_signs _ hmem
  obtain ⟨c, cs, hcs⟩ : ∃ c cs, w.toList = c :: cs := by
    cases hw : w.toList with
    | nil => rw [hw] at hhead; cases hhead
    | cons c cs => exact ⟨c, cs, rfl⟩
  rw [hcs] at hhead
  simp only [List.head?_cons, Option.any_some, Bool.and_eq_true, Bool.or_eq_true, Bool.not_eq_true', bne_iff_ne, ne_eq,
    beq_iff_eq] at hhead
  obtain ⟨⟨⟨hstart, hmark⟩, hlayout⟩, hignored⟩ := hhead
  have hname : matchName admitted (w.toList ++ rest) = none := by
    have hscan : scanName (c :: (cs ++ rest)) = none := by
      rw [scanName]
      · simp [scanPlainName, hstart]
      · intro u hu
        exact hmark (List.cons.inj hu).1
    rw [matchName, hcs, List.cons_append, hscan]
    simp
  have halone := (isReadByItself_iff hplain t).mpr fun hword => by
    have hsign : ∀ e ∈ Terminal.punctuation, e.1.isWord = false := by decide
    rw [hsign _ hmem] at hword
    cases hword
  refine Lexes.layout (.terminal (s := (w.toList, rest)) (matchChunk_of_isPlain hplain _) ?_ ?_)
    hplain hgap ?_
  · rcases hignored with hignored | ⟨rfl, rfl⟩
    · rw [hcs, List.cons_append, scanIgnored_eq_none (by simpa using hignored) hlayout]
    · exact scanIgnored_bracket (hbracket rfl)
  · rw [matchTerminal, hname, matchOperator_of_isPlain hplain,
      matchSpelled_append (List.mem_append_right _ hmem) ht halone hrest]
    rfl
  · simpa [hcs] using hlayout

/-- The signs of one character with which no longer sign begins. -/
def plainSigns : List (Terminal × Char) := [
  (.comma, ','), (.dot, '.'), (.leftBrace, '\x7b'), (.leftParen, '('), (.less, '<'),
  (.greater, '>'), (.question, '?'), (.rightBrace, '\x7d'), (.rightBracket, ']'),
  (.rightParen, ')'), (.semicolon, ';'), (.star, '*')]

theorem goesOnWith_plainSigns : ∀ e ∈ plainSigns,
    (e.1, String.ofList [e.2]) ∈ Terminal.punctuation ∧ goesOnWith [e.2] = [] ∧
      e.1 ≠ .leftBracket ∧ isWord e.2 = false ∧ isLayout e.2 = false := by
  decide

theorem lexes_plainSign {t : Terminal} {c : Char} (h : (t, c) ∈ plainSigns)
    (hplain : admitted.isPlain) (ht : t ∈ admitted) (rest : List Char) {gap : List Char}
    (hgap : isGap gap) : Lexes admitted (gap ++ c :: rest) ⟨t, [c], rest⟩ := by
  obtain ⟨hmem, hnone, hbracket, -⟩ := goesOnWith_plainSigns _ h
  have hrest : ∀ d ∈ rest.head?, d ∉ goesOnWith (String.ofList [c]).toList := by
    rw [String.toList_ofList, hnone]
    simp
  have hlex := lexes_sign hmem hplain ht hgap hrest fun h => absurd h hbracket
  rwa [String.toList_ofList] at hlex

theorem lexes_leftBracket (hplain : admitted.isPlain) (ht : .leftBracket ∈ admitted)
    {rest gap : List Char} (hgap : isGap gap)
    (hrest : rest.head?.any fun c => c == ',' || c == ']') :
    Lexes admitted (gap ++ '[' :: rest) ⟨.leftBracket, ['['], rest⟩ := by
  have hnone : goesOnWith "[".toList = [] := by decide
  exact lexes_sign (w := "[") (by decide) hplain ht hgap (by rw [hnone]; simp) fun _ => hrest

/-! ## Fewer terminals -/

theorem endsWord_of_scanName {cs : List Char} {s : Split} (h : scanName cs = some s) :
    EndsWord s.2 := by
  have hwhile : ∀ cs : List Char, EndsWord (scanWhile isWord cs).2 := fun cs c hc => by
    have hnot := List.head?_dropWhile_not isWord cs
    rw [show cs.dropWhile isWord = (scanWhile isWord cs).2 from rfl, hc] at hnot
    simpa using hnot
  have hplain : ∀ {cs : List Char} {s : Split}, scanPlainName cs = some s → EndsWord s.2 := by
    intro cs s h
    cases cs with
    | nil => cases h
    | cons c cs =>
      simp only [scanPlainName] at h
      split_ifs at h
      cases h
      exact hwhile cs
  unfold scanName at h
  split at h
  · obtain ⟨s', hs', rfl⟩ := Option.map_eq_some_iff.mp h
    exact hplain (s := s') hs'
  · exact hplain h

theorem classifyName_of_isWithin {B C : TerminalSet} (hsub : B.isWithin C) {n : List Char}
    (hmem : classifyName C n ∈ B) : classifyName B n = classifyName C n := by
  unfold classifyName at hmem ⊢
  split at hmem
  · next w hw =>
    split_ifs at hmem with hC
    · simp only [if_pos hmem, if_pos hC]
    · have hB : w ∉ B := fun h => hC (TerminalSet.mem_of_isWithin hsub h)
      simp only [if_neg hB, if_neg hC]
  · rfl

theorem mem_words_of_classifyName {B : TerminalSet} {n : List Char} {t : Terminal}
    (h : classifyName B n = t) (ht : t ≠ .name) :
    ∃ w, (t, w) ∈ Terminal.words ∧ w.toList = n := by
  unfold classifyName at h
  split at h
  · next w hw =>
    split_ifs at h
    · subst h
      obtain ⟨e, he, rfl⟩ := Option.map_eq_some_iff.mp hw
      have hspelled := List.find?_some he
      refine ⟨e.2, List.mem_of_find?_eq_some he, ?_⟩
      rw [beq_iff_eq.mp hspelled, String.toList_ofList]
    · exact absurd h.symm ht
  · exact absurd h.symm ht

theorem findSome?_eq_of {α β : Type} {f g : α → Option β} {L : List α} {r r' : β}
    (h : L.findSome? f = some r) (hnone : ∀ e ∈ L, f e = none → g e = none)
    (hsome : ∀ e ∈ L, f e = some r → g e = some r') : L.findSome? g = some r' := by
  induction L with
  | nil => cases h
  | cons e L ih =>
    rw [List.findSome?_cons] at h ⊢
    cases hf : f e with
    | some r₀ =>
      rw [hf] at h
      rw [hsome e List.mem_cons_self (hf.trans h)]
    | none =>
      rw [hf] at h
      rw [hnone e List.mem_cons_self hf]
      exact ih h (fun e he => hnone e (List.mem_cons_of_mem _ he))
        fun e he => hsome e (List.mem_cons_of_mem _ he)

theorem scanName_of_scanExact {e : Terminal × String} (he : e ∈ Terminal.words) {cs : List Char}
    {s : Split} (h : scanExact e.2.toList cs = some s) : scanName cs ≠ none := by
  have hplain := isPlainName_words e he
  rw [(scanExact_eq_some h).2]
  cases hw : e.2.toList with
  | nil => rw [hw] at hplain; cases hplain
  | cons c w =>
    rw [hw] at hplain
    have hc : c ≠ '@' := ne_of_isNameStart hplain.1 (by decide)
    rw [List.cons_append, scanName]
    · simp [scanPlainName, hplain.1]
    · intro u hu
      exact hc (List.cons.inj hu).1

theorem matchSpelled_of_isWithin {B C : TerminalSet} (hsub : B.isWithin C) (hC : C.isPlain)
    {cs : List Char} (hname : matchName C cs = none) {t : Terminal} {s : Split}
    (h : matchSpelled C cs = some (t, s)) (ht : t ∈ B) : matchSpelled B cs = some (t, s) := by
  have hB := TerminalSet.isPlain_of_isWithin hsub hC
  refine findSome?_eq_of h (fun e he hnone => ?_) fun e he hsome => ?_
  · split_ifs with hcond
    · simp only [Bool.and_eq_true, decide_eq_true_eq] at hcond
      cases hs : scanExact e.2.toList cs with
      | none => rfl
      | some s' =>
        have hmem := TerminalSet.mem_of_isWithin hsub hcond.1
        have halone : isReadByItself C e.1 := (isReadByItself_iff hC _).mpr fun hword hC' => by
          have hwords : ∀ e ∈ Terminal.spelled, e.1.isWord → e ∈ Terminal.words := by
            decide
          rw [matchName, if_pos hC', Option.map_eq_none_iff] at hname
          exact scanName_of_scanExact (hwords e he hword) hs hname
        simp [hmem, halone, hs] at hnone
    · rfl
  · split_ifs at hsome with hcond
    simp only [Bool.and_eq_true, decide_eq_true_eq] at hcond
    obtain ⟨s', hs', heq⟩ := Option.map_eq_some_iff.mp hsome
    cases heq
    have halone : isReadByItself B e.1 := (isReadByItself_iff hB _).mpr fun hword hB' =>
      (isReadByItself_iff hC _).mp hcond.2 hword (TerminalSet.mem_of_isWithin hsub hB')
    simp [ht, halone, hs']

theorem matchTerminal_of_isWithin {B C : TerminalSet} (hsub : B.isWithin C) (hC : C.isPlain)
    {cs : List Char} {t : Terminal} {s : Split} (h : matchTerminal C cs = some (t, s))
    (ht : t ∈ B) : matchTerminal B cs = some (t, s) := by
  have hB := TerminalSet.isPlain_of_isWithin hsub hC
  rw [matchTerminal, matchOperator_of_isPlain hC] at h
  rw [matchTerminal, matchOperator_of_isPlain hB]
  cases hname : matchName C cs with
  | some found =>
    rw [hname] at h
    cases h
    unfold matchName at hname
    split_ifs at hname with hC'
    obtain ⟨s', hs', heq⟩ := Option.map_eq_some_iff.mp hname
    cases heq
    by_cases hB' : Terminal.name ∈ B
    · rw [matchName, if_pos hB', hs', ← classifyName_of_isWithin hsub ht]
      rfl
    · -- A word is read by itself where no names are.
      obtain ⟨w, hw, hs⟩ := mem_words_of_classifyName (n := s.1) rfl fun h => hB' (h ▸ ht)
      have hspelled := matchSpelled_append (List.mem_append_left Terminal.punctuation hw) ht
        ((isReadByItself_iff hB _).mpr fun _ => hB') fun c (hc : c ∈ s.2.head?) hmem => by
          have hword := List.all_eq_true.mp (goesOnWith_words _ hw) c hmem
          rw [endsWord_of_scanName hs' c hc] at hword
          cases hword
      rw [hs, ← divides_scanName _ _ hs'] at hspelled
      rw [matchName, if_neg hB', hspelled]
      rfl
  | none =>
    rw [hname] at h
    have hnone : matchName B cs = none := by
      unfold matchName at hname ⊢
      split_ifs with hB'
      · rw [if_pos (TerminalSet.mem_of_isWithin hsub hB'), Option.map_eq_none_iff] at hname
        rw [hname]
        rfl
      · rfl
    rw [hnone]
    exact matchSpelled_of_isWithin hsub hC hname h ht

/-- **What is read is read where fewer terminals are admitted**, as long as it is one of them. -/
theorem Lexes.of_isWithin {B C : TerminalSet} (hsub : B.isWithin C) (hC : C.isPlain)
    {cs : List Char} {a : Ahead} (h : Lexes C cs a) (ha : a.terminal ∈ B) : Lexes B cs a := by
  have hchunk := matchChunk_of_isPlain (TerminalSet.isPlain_of_isWithin hsub hC)
  induction h with
  | chunk h => rw [matchChunk_of_isPlain hC] at h; cases h
  | skip _ hignored _ ih => exact .skip (hchunk _) hignored (ih ha)
  | terminal _ hignored h =>
    exact .terminal (hchunk _) hignored (matchTerminal_of_isWithin hsub hC h ha)
  | atEnd => exact .atEnd ha

end Scan

end Facade
