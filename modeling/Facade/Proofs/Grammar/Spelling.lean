import Mathlib.Data.Option.Basic
import Mathlib.Tactic.Common
import Facade.Grammar.Parse

/-!
# The spelling of tokens

What a token that was lexed consists of: a name is made of a letter and word characters, and each word
and each sign has its one spelling.

* `Scan.IsName`: the texts that are names;
* `Token.IsSpelled`: a token has a text that its terminal admits;
* **`isSpelled_of_next`**, `isSpelled_of_read`: all tokens that are lexed are spelled so.
-/

namespace Facade

open Text

namespace Scan

/-- A letter or underscore, and then word characters. -/
def IsPlainName : List Char → Prop
  | [] => False
  | c :: cs => isNameStart c = true ∧ ∀ d ∈ cs, isWord d = true

instance : DecidablePred IsPlainName
  | [] => isFalse id
  | c :: cs => decidable_of_iff ((isNameStart c && cs.all isWord) = true) (by simp [IsPlainName])

/-- A name, perhaps marked by an at sign. -/
def IsName (cs : List Char) : Prop :=
  IsPlainName cs ∨ ∃ plain, cs = '@' :: plain ∧ IsPlainName plain

theorem isWord_of_mem_isPlainName {n : List Char} (h : IsPlainName n) : ∀ c ∈ n, isWord c = true := by
  cases n with
  | nil => cases h
  | cons c n =>
    intro d hd
    rcases List.mem_cons.mp hd with rfl | hd
    · have := h.1
      simp only [isNameStart, Bool.and_eq_true] at this
      exact this.1
    · exact h.2 d hd

theorem IsName.mem {n : List Char} (h : IsName n) : ∀ c ∈ n, isWord c = true ∨ c = '@' := by
  intro c hc
  rcases h with h | ⟨plain, rfl, h⟩
  · exact Or.inl (isWord_of_mem_isPlainName h c hc)
  · rcases List.mem_cons.mp hc with rfl | hc
    · exact Or.inr rfl
    · exact Or.inl (isWord_of_mem_isPlainName h c hc)

theorem IsName.ne_of_mem {n : List Char} (h : IsName n) {c d : Char} (hc : c ∈ n)
    (hd : isWord d = false) (hne : d ≠ '@') : c ≠ d := by
  rintro rfl
  rcases h.mem c hc with hword | rfl
  · rw [hd] at hword
    cases hword
  · exact hne rfl

theorem isPlainName_of_scan {cs : List Char} {s : Split} (h : scanPlainName cs = some s) :
    IsPlainName s.1 := by
  cases cs with
  | nil => cases h
  | cons c cs =>
    simp only [scanPlainName] at h
    split_ifs at h with hc
    cases h
    exact ⟨hc, fun d hd => List.all_eq_true.mp List.all_takeWhile d hd⟩

theorem isName_of_scan {cs : List Char} {s : Split} (h : scanName cs = some s) : IsName s.1 := by
  unfold scanName at h
  split at h
  · obtain ⟨s', hs', rfl⟩ := Option.map_eq_some_iff.mp h
    exact Or.inr ⟨s'.1, rfl, isPlainName_of_scan hs'⟩
  · exact Or.inl (isPlainName_of_scan h)

theorem scanExact_eq_some {es cs : List Char} {s : Split} (h : scanExact es cs = some s) :
    s.1 = es ∧ cs = es ++ s.2 := by
  induction es generalizing cs s with
  | nil =>
    simp only [scanExact, Option.some.injEq] at h
    simp [← h]
  | cons e es ih =>
    cases cs with
    | nil => cases h
    | cons c cs =>
      simp only [scanExact] at h
      split_ifs at h with hc
      obtain ⟨s', hs', rfl⟩ := Option.map_eq_some_iff.mp h
      obtain ⟨h₁, h₂⟩ := ih hs'
      simp [prepend, hc, h₁, h₂]

end Scan

/-- The text of the token is one that its terminal admits. -/
structure Token.IsSpelled (t : Token) : Prop where
  name : t.terminal = .name → Scan.IsName t.text.toList
  word : ∀ w, t.terminal.spelling? = some w → t.text = w

namespace Scan

theorem spelling?_of_mem :
    ∀ e ∈ Terminal.spelled, e.1 ≠ .name ∧ Terminal.spelling? e.1 = some e.2 := by
  decide

theorem spelling?_eq_none :
    ∀ t ∈ [Terminal.name, .operatorSymbol, .parameterChunk, .expressionChunk, .bodyChunk,
      .attributeChunk, .argumentChunk, .endOfInput], t.spelling? = none := by
  decide

/-- What a terminal is read with. -/
structure Fits (t : Terminal) (cs : List Char) : Prop where
  name : t = .name → IsName cs
  word : ∀ w, t.spelling? = some w → String.ofList cs = w

theorem fits_of_mem_spelled {e : Terminal × String} (he : e ∈ Terminal.spelled) {cs : List Char}
    (h : String.ofList cs = e.2) : Fits e.1 cs where
  name hname := absurd hname (spelling?_of_mem e he).1
  word w hw := by
    rw [(spelling?_of_mem e he).2, Option.some.injEq] at hw
    rw [h, hw]

theorem fits_of_not_spelled {t : Terminal} (hname : t ≠ .name) (h : t.spelling? = none)
    (cs : List Char) : Fits t cs where
  name ht := absurd ht hname
  word w hw := by rw [h] at hw; cases hw

theorem fits_of_matchChunk {admitted : TerminalSet} {cs : List Char} {t : Terminal} {s : Split}
    (h : matchChunk admitted cs = some (t, s)) : Fits t s.1 := by
  obtain ⟨e, he, h⟩ := List.exists_of_findSome?_eq_some h
  have ht : e.1 = t := by
    split_ifs at h
    obtain ⟨s', -, hs'⟩ := Option.map_eq_some_iff.mp h
    exact congrArg Prod.fst hs'
  have hchunk : e.1 ≠ .name ∧ e.1.spelling? = none := by
    clear h ht
    revert e
    decide
  exact ht ▸ fits_of_not_spelled hchunk.1 hchunk.2 _

theorem fits_classifyName {admitted : TerminalSet} {cs : List Char} (h : IsName cs) :
    Fits (classifyName admitted cs) cs := by
  have hname : Fits .name cs :=
    ⟨fun _ => h, fun w hw => by rw [spelling?_eq_none .name (by simp)] at hw; cases hw⟩
  unfold classifyName
  split
  · next w hw =>
    split_ifs
    · obtain ⟨e, he, rfl⟩ := Option.map_eq_some_iff.mp hw
      have hmem : e ∈ Terminal.spelled := List.mem_append_left _ (List.mem_of_find?_eq_some he)
      have hspelled := List.find?_some he
      exact fits_of_mem_spelled hmem (beq_iff_eq.mp hspelled).symm
    · exact hname
  · exact hname

theorem fits_classifyOperator (admitted : TerminalSet) (cs : List Char) :
    Fits (classifyOperator admitted cs) cs := by
  unfold classifyOperator
  split
  · next e he =>
    have hmem : e ∈ Terminal.spelled := List.mem_append_right _ (List.mem_of_find?_eq_some he)
    have hspelled := List.find?_some he
    simp only [Bool.and_eq_true, beq_iff_eq] at hspelled
    exact fits_of_mem_spelled hmem (by rw [← hspelled.2, String.ofList_toList])
  · exact fits_of_not_spelled (by simp) (spelling?_eq_none _ (by simp)) cs

theorem fits_of_matchSpelled {admitted : TerminalSet} {cs : List Char} {t : Terminal} {s : Split}
    (h : matchSpelled admitted cs = some (t, s)) : Fits t s.1 := by
  obtain ⟨e, he, h⟩ := List.exists_of_findSome?_eq_some h
  split_ifs at h
  obtain ⟨s', hs', hs⟩ := Option.map_eq_some_iff.mp h
  cases hs
  exact fits_of_mem_spelled he (by rw [(scanExact_eq_some hs').1, String.ofList_toList])

theorem fits_of_matchTerminal {admitted : TerminalSet} {cs : List Char} {t : Terminal} {s : Split}
    (h : matchTerminal admitted cs = some (t, s)) : Fits t s.1 := by
  unfold matchTerminal at h
  rw [Option.orElse_eq_some, Option.orElse_eq_some] at h
  rcases h with h | ⟨-, h | ⟨-, h⟩⟩
  · unfold matchName at h
    split_ifs at h
    obtain ⟨s', hs', hs⟩ := Option.map_eq_some_iff.mp h
    cases hs
    exact fits_classifyName (isName_of_scan hs')
  · unfold matchOperator at h
    split_ifs at h
    obtain ⟨s', -, hs⟩ := Option.map_eq_some_iff.mp h
    cases hs
    exact fits_classifyOperator admitted s.1
  · exact fits_of_matchSpelled h

end Scan

namespace Cursor

open Scan

theorem isSpelled_token {t : Terminal} {s : Split} (h : Fits t s.1) (c : Cursor) :
    (c.token t s).IsSpelled where
  name ht := by simpa [token] using h.name ht
  word w hw := h.word w hw

/-- **Every token that is lexed is spelled as its terminal admits.** -/
theorem isSpelled_of_next {admitted : TerminalSet} {c after : Cursor} {t : Token}
    (h : c.next admitted = .token t after) : t.IsSpelled := by
  have hwithin : ∀ (bound : List Char) (c : Cursor),
      nextWithin admitted bound c = .token t after → t.IsSpelled := by
    intro bound
    induction bound with
    | nil =>
      intro c h
      unfold nextWithin at h
      split_ifs at h
    | cons b bound ih =>
      intro c h
      unfold nextWithin at h
      split_ifs at h
      split at h
      · next hchunk =>
        cases h
        exact isSpelled_token (fits_of_matchChunk hchunk) c
      · split at h
        · exact ih _ h
        · split at h
          · next hterminal =>
            cases h
            exact isSpelled_token (fits_of_matchTerminal hterminal) c
          · cases h
  exact hwithin _ _ h

end Cursor

theorem Parser.isSpelled_of_read {c : Cursor} {last : Position} {admitted : TerminalSet}
    {s : Parser} (h : Parser.read c last admitted = .ok s) {t : Token}
    (ht : s.lookahead = some t) : t.IsSpelled := by
  unfold Parser.read at h
  split at h
  · next hnext =>
    cases h
    cases ht
    exact Cursor.isSpelled_of_next hnext
  · simp only [Bind.bind, Except.bind] at h
    split at h
    · cases h
    · cases h
      cases ht
  · cases h

end Facade
