import Facade.Proofs.Grammar.Contexts
import Facade.Proofs.Grammar.Lookahead
import Facade.Proofs.Grammar.Takes

/-!
# From one token to the next

Reading goes through the tokens of a source one after the other, and the grammar says what comes after
each of them. So what follows a token that was read ends it.

* `Ahead.Leads`, **`Pattern.Reads.leads`**: what comes next behind a pattern comes after what came next
  before it;
* `Pattern.settles`, `Pattern.settles_body`: the grammar lets every token end;
* **`Pattern.Reads.isFirm`**: what follows the tokens of a pattern ends them.
-/

namespace Facade

open Scan

/-! ## What a parser sees -/

namespace Scan

open Cursor

variable {A : TerminalSet} {source cs : List Char}

theorem lexes_of_nextWithin {bound : List Char} {c : Cursor}
    (hstuck : ∀ c', nextWithin A bound c ≠ .stuck c')
    (hend : nextWithin A bound c = .atEnd → .endOfInput ∈ A) : ∃ a, Lexes A c.rest a := by
  obtain ⟨cs, position⟩ := c
  induction bound generalizing cs position with
  | nil =>
    cases cs with
    | nil => exact ⟨.atEnd, .atEnd (hend rfl)⟩
    | cons c cs => exact absurd rfl (hstuck _)
  | cons b bound ih =>
    cases cs with
    | nil => exact ⟨.atEnd, .atEnd (hend rfl)⟩
    | cons c cs =>
      cases hchunk : matchChunk A (c :: cs) with
      | some e => exact ⟨_, .chunk hchunk⟩
      | none =>
        cases hignored : scanIgnored (c :: cs) with
        | some s =>
          simp only [nextWithin, List.isEmpty_cons, hchunk, hignored] at hstuck hend
          obtain ⟨a, ha⟩ := ih _ _ hstuck hend
          exact ⟨a, .skip hchunk hignored ha⟩
        | none =>
          cases hterminal : matchTerminal A (c :: cs) with
          | some e => exact ⟨_, .terminal hchunk hignored hterminal⟩
          | none => simp [nextWithin, hchunk, hignored, hterminal] at hstuck

theorem exists_lexes_of_read {last : Position} {s : Parser} (hsource : cs <:+ source)
    (h : Parser.read ⟨cs, .ofRest source cs⟩ last A = .ok s) :
    ∃ a, Lexes A cs a ∧ s.Sees source a := by
  have hlexes : ∃ a, Lexes A cs a := by
    have hstuck : ∀ c, nextWithin A cs ⟨cs, .ofRest source cs⟩ ≠ .stuck c := fun c hc => by
      simp only [Parser.read, Cursor.next, hc] at h
      cases h
    refine lexes_of_nextWithin hstuck fun hend => ?_
    by_contra hnot
    simp [Parser.read, Cursor.next, hend, Parser.check, Parser.terminal, hnot, Bind.bind,
      Except.bind] at h
  obtain ⟨a, ha⟩ := hlexes
  obtain ⟨s', hread, hs'⟩ := ha.read hsource last
  rw [h] at hread
  cases hread
  exact ⟨a, ha, hs'⟩

end Scan

namespace Parser.Sees

variable {source : List Char} {s s' : Parser} {a b : Ahead}

theorem unique (h : s.Sees source a) (h' : s.Sees source b) : a = b := by
  rcases h with ⟨rfl, h⟩ | ⟨-, h, hcursor⟩ <;> rcases h' with ⟨rfl, h'⟩ | ⟨-, h', hcursor'⟩
  · rfl
  · rw [h] at h'; cases h'
  · rw [h] at h'; cases h'
  · obtain ⟨t, w, r⟩ := a
    obtain ⟨t', w', r'⟩ := b
    rw [h, Option.some.injEq, Ahead.token, Ahead.token, Token.mk.injEq] at h'
    rw [hcursor, Cursor.mk.injEq] at hcursor'
    obtain ⟨rfl, hword, -⟩ := h'
    obtain ⟨rfl, -⟩ := hcursor'
    obtain rfl : w = w' := String.ofList_injective hword
    rfl

/-- **The token that is taken is the one that comes next**, and behind it comes the next one. -/
theorem of_take (h : s.Sees source a) {t : Terminal} {after : TerminalSet} {found : Token}
    (htake : s.take t after = .ok (found, s')) :
    found = a.token source ∧ a.terminal = t ∧ ∃ b, Lexes after a.rest b ∧ s'.Sees source b := by
  obtain ⟨hlookahead, rfl, last, hread⟩ := Parser.take_eq_ok htake
  rcases h with ⟨-, h⟩ | ⟨hsuffix, h, hcursor⟩
  · rw [h] at hlookahead
    cases hlookahead
  · rw [h, Option.some.injEq] at hlookahead
    subst hlookahead
    rw [hcursor] at hread
    exact ⟨rfl, rfl, exists_lexes_of_read (List.IsSuffix.trans (List.suffix_append _ _) hsuffix) hread⟩

end Parser.Sees

/-- What comes after a token, one token behind the other. -/
inductive Ahead.Leads (a : Ahead) : Ahead → Prop
  | refl : Leads a a
  | tail {A b c} : Leads a b → Lexes A b.rest c → Leads a c

namespace Ahead.Leads

variable {a b c : Ahead}

theorem trans (h : a.Leads b) (h' : b.Leads c) : a.Leads c := by
  induction h' with
  | refl => exact h
  | tail _ hlexes ih => exact .tail ih hlexes

theorem divides (h : a.Leads b) : b = a ∨ ∃ gap, a.rest = gap ++ (b.word ++ b.rest) := by
  induction h with
  | refl => exact Or.inl rfl
  | tail _ hlexes ih =>
    obtain ⟨gap, hgap⟩ := hlexes.divides
    rcases ih with rfl | ⟨gap', hgap'⟩
    · exact Or.inr ⟨gap, hgap⟩
    · exact Or.inr ⟨_, by rw [hgap', hgap, ← List.append_assoc, ← List.append_assoc]⟩

theorem mem_of_mem (h : a.Leads b) {ch : Char} (hch : ch ∈ b.word ++ b.rest) :
    ch ∈ a.word ++ a.rest := by
  rcases h.divides with rfl | ⟨gap, hgap⟩
  · exact hch
  · rw [hgap]
    exact List.mem_append_right _ (List.mem_append_right _ hch)

end Ahead.Leads

theorem Scan.Lexes.fits {A : TerminalSet} {cs : List Char} {a : Ahead} (h : Lexes A cs a) :
    Fits a.terminal a.word := by
  induction h with
  | chunk h => exact fits_of_matchChunk h
  | skip _ _ _ ih => exact ih
  | terminal _ _ h => exact fits_of_matchTerminal h
  | atEnd => exact fits_of_not_spelled (by decide) (by decide) _

theorem Ahead.Leads.fits {a b : Ahead} (h : a.Leads b) (ha : Fits a.terminal a.word) :
    Fits b.terminal b.word := by
  cases h with
  | refl => exact ha
  | tail _ hlexes => exact hlexes.fits

namespace Pattern

variable {source : List Char} {p : Pattern} {after : TerminalSet} {parts parts' : List Tree}
  {s s' : Parser} {a b : Ahead}

/-- **What comes next behind a pattern comes after what came next before it.** -/
theorem Reads.leads (h : p.Reads after parts s parts' s') (ha : s.Sees source a) :
    ∃ b, s'.Sees source b ∧ a.Leads b := by
  induction h generalizing a with
  | token htake =>
    obtain ⟨-, -, b, hlexes, hb⟩ := ha.of_take htake
    exact ⟨b, hb, .tail .refl hlexes⟩
  | rule _ _ ih => exact ih ha
  | seq _ _ ih ih' =>
    obtain ⟨m, hm, hleads⟩ := ih ha
    obtain ⟨b, hb, hleads'⟩ := ih' hm
    exact ⟨b, hb, hleads.trans hleads'⟩
  | left _ _ ih => exact ih ha
  | right _ _ ih => exact ih ha
  | none => exact ⟨a, ha, .refl⟩
  | some _ _ ih => exact ih ha
  | once _ _ _ ih => exact ih ha
  | more _ _ _ _ ih ih' =>
    obtain ⟨m, hm, hleads⟩ := ih ha
    obtain ⟨b, hb, hleads'⟩ := ih' hm
    exact ⟨b, hb, hleads.trans hleads'⟩
  | resume _ _ ih => exact ih ha

theorem Reads.leads_to (h : p.Reads after parts s parts' s') (ha : s.Sees source a)
    (hb : s'.Sees source b) : a.Leads b := by
  obtain ⟨b', hb', hleads⟩ := h.leads ha
  exact hb.unique hb' ▸ hleads

/-! ## Brackets -/

/-- Whoever reads the pattern takes this terminal. -/
def needs (t : Terminal) : Pattern → Bool
  | token u => u == t
  | seq p q => p.needs t || q.needs t
  | plus _ p | resume _ _ p => p.needs t
  | rule _ | alt _ _ | opt _ => false

end Pattern

theorem Scan.mem_of_matchTerminal {A : TerminalSet} {cs : List Char} {t : Terminal} {s : Split}
    (h : matchTerminal A cs = some (t, s)) : t ∈ A := by
  unfold matchTerminal at h
  rw [Option.orElse_eq_some, Option.orElse_eq_some] at h
  rcases h with h | ⟨-, h | ⟨-, h⟩⟩
  · unfold matchName at h
    split_ifs at h with hname
    obtain ⟨s', -, heq⟩ := Option.map_eq_some_iff.mp h
    cases heq
    unfold classifyName
    split
    · split_ifs with hw
      · exact hw
      · exact hname
    · exact hname
  · unfold matchOperator at h
    split_ifs at h with hoperator
    obtain ⟨s', -, heq⟩ := Option.map_eq_some_iff.mp h
    cases heq
    unfold classifyOperator
    split
    · next e he =>
      have hfound := List.find?_some he
      simp only [Bool.and_eq_true, decide_eq_true_eq] at hfound
      exact hfound.1.2
    · exact hoperator
  · obtain ⟨e, -, h⟩ := List.exists_of_findSome?_eq_some h
    split_ifs at h with hmem
    obtain ⟨s', -, heq⟩ := Option.map_eq_some_iff.mp h
    cases heq
    simp only [Bool.and_eq_true, decide_eq_true_eq] at hmem
    exact hmem.1

theorem Scan.Lexes.mem {A : TerminalSet} {cs : List Char} {a : Ahead} (h : Lexes A cs a) :
    a.terminal ∈ A := by
  induction h with
  | chunk h =>
    obtain ⟨e, -, h⟩ := List.exists_of_findSome?_eq_some h
    split_ifs at h with hmem
    obtain ⟨s, -, heq⟩ := Option.map_eq_some_iff.mp h
    cases heq
    exact hmem
  | skip _ _ _ ih => exact ih
  | terminal _ _ h => exact mem_of_matchTerminal h
  | atEnd hend => exact hend

namespace Pattern

variable {source : List Char} {p : Pattern} {after after' : TerminalSet}
  {parts parts' : List Tree} {s s' : Parser} {a b : Ahead}

theorem Reads.mem_of_needs (h : p.Reads after parts s parts' s') (hp : p.needs .rightBracket)
    (ha : s.Sees source a) (hfits : Fits a.terminal a.word) : ']' ∈ a.word ++ a.rest := by
  induction h generalizing a with
  | token htake =>
    obtain ⟨-, hterminal, -⟩ := ha.of_take htake
    rw [beq_iff_eq.mp hp] at hterminal
    have hword : a.word = [']'] := by
      have hspelled := hfits.word "]" (by rw [hterminal]; rfl)
      rw [← String.toList_ofList (l := a.word), hspelled]
      rfl
    simp [hword]
  | @seq p q after parts s parts₁ s₁ parts₂ s₂ hreads hreads' ih ih' =>
    rcases (Bool.or_eq_true _ _).mp hp with hp | hq
    · exact ih hp ha hfits
    · obtain ⟨m, hm, hleads⟩ := hreads.leads ha
      exact hleads.mem_of_mem (ih' hq hm (hleads.fits hfits))
  | once _ _ _ ih => exact ih hp ha hfits
  | more _ _ _ _ ih _ => exact ih hp ha hfits
  | resume _ _ ih => exact ih hp ha hfits
  | rule | left | right | none | some => cases hp

/-! ## The ends of tokens -/

/-- The signs that can end a chunk. -/
def chunkEnds : TerminalSet := .ofList [.leftBrace, .rightBrace, .leftParen, .rightParen,
  .leftBracket, .rightBracket, .comma, .semicolon]

/-- What comes after a chunk is such a sign, and after an operator a parenthesis; after an opening
bracket a closing one is needed. -/
def settles : Pattern → TerminalSet → Bool
  | token t, after => t != .leftBracket && t != .endOfInput &&
      (!(chunkTerminals.any fun e => e.1 == t) || after.isWithin (chunkEnds ∪ .single t)) &&
      (t != .operatorSymbol || after.isWithin (.single .leftParen))
  | rule _, _ => true
  | seq p q, after => (p.settles (q.admits after) || isBracket p && q.needs .rightBracket) &&
      q.settles after
  | alt p q, after => p.settles after && q.settles after
  | opt p, after => p.settles after
  | plus repeated p, _ => p.settles repeated
  | resume r _ p, _ => p.settles r.follow
where
  /-- The pattern is an opening bracket. -/
  isBracket : Pattern → Bool
    | token t => t == .leftBracket
    | _ => false

theorem ne_endOfInput_of_settles {t : Terminal} {after : TerminalSet}
    (h : (token t).settles after) : t ≠ .endOfInput := by
  simp only [settles, Bool.and_eq_true, bne_iff_ne, ne_eq] at h
  exact h.1.1.2

/-- The first one of two patterns settles, or it is an opening bracket that the second one closes. -/
theorem settles_seq {p q : Pattern} {after : TerminalSet} (h : (seq p q).settles after) :
    (p.settles (q.admits after) ∨ settles.isBracket p ∧ q.needs .rightBracket) ∧ q.settles after := by
  simpa only [settles, Bool.and_eq_true, Bool.or_eq_true] using h

/-- **The grammar lets every token end.** -/
theorem settles_body (r : Rule) : r.body.settles r.follow := by
  cases r <;> decide

theorem stops_of_lexes {t : Terminal} {k : Chunk} (hk : (t, k) ∈ chunkTerminals)
    (hafter : after.isWithin (chunkEnds ∪ .single t)) {rest : List Char} (hb : Lexes after rest b)
    (hitem : scanItem k rest = none) : rest.head?.any k.stops = true := by
  have hends : ∀ {u}, u ∈ after → u ∉ chunkEnds → u = t := fun hu hnot =>
    TerminalSet.mem_single.mp ((TerminalSet.mem_union.mp
      (TerminalSet.mem_of_isWithin hafter hu)).resolve_left hnot)
  have hno : ∀ e ∈ chunkTerminals, e.1 ∉ chunkEnds ∧ e.1 ≠ .operatorSymbol ∧
      e.1 ≠ .endOfInput := by decide
  cases hb with
  | chunk h =>
    obtain ⟨e, he, h⟩ := List.exists_of_findSome?_eq_some h
    split_ifs at h with hmem
    obtain rfl := chunkTerminals_unique e he _ hk (hends hmem (hno e he).1)
    rw [scanChunk_eq_none_iff.mpr (Or.inr hitem)] at h
    cases h
  | skip _ hignored _ => exact stops_of_scanIgnored hignored hitem
  | @terminal _ u s hchunk hignored h =>
    cases rest with
    | nil =>
      have hne := Cursor.Stands.ne_nil (c := ⟨[], .start⟩) (Or.inr ⟨hchunk, hignored, h⟩)
      exact absurd (List.append_eq_nil_iff.mp (divides_matchTerminal h).symm).1 hne
    | cons c z =>
      refine stops_of_matchTerminal h (fun hc _ => ?_) hitem
      subst hc
      have hslash : u = .operatorSymbol := congrArg Prod.fst (eq_of_matchTerminal_slash h)
      have hmem := mem_of_matchTerminal h
      rw [hslash] at hmem
      exact (hno _ hk).2.1 (hends hmem (by decide)).symm
  | atEnd hmem => exact absurd (hends hmem (by decide)).symm (hno _ hk).2.2

theorem ne_star_of_lexes (hafter : after.isWithin (.single .leftParen)) {rest : List Char}
    (hb : Lexes after rest b) : rest.head? ≠ some '*' := by
  intro hstar
  obtain ⟨z, rfl⟩ := List.head?_eq_some_iff.mp hstar
  have hterminal := TerminalSet.mem_single.mp (TerminalSet.mem_of_isWithin hafter hb.mem)
  cases hb with
  | chunk h =>
    obtain ⟨e, he, h⟩ := List.exists_of_findSome?_eq_some h
    split_ifs at h
    obtain ⟨s, -, heq⟩ := Option.map_eq_some_iff.mp h
    have hno : ∀ e ∈ chunkTerminals, e.1 ≠ .leftParen := by decide
    exact hno e he ((congrArg Prod.fst heq).trans hterminal)
  | skip _ hignored _ => simp [scanIgnored, isLayout] at hignored
  | @terminal _ t s _ _ h =>
    obtain rfl : t = .leftParen := hterminal
    have hspelled : s.1 = ['('] := by
      rw [← String.toList_ofList (l := s.1), (fits_of_matchTerminal h).word "(" rfl]
      rfl
    have hdivides := divides_matchTerminal h
    rw [hspelled] at hdivides
    cases hdivides

theorem isFirm_of_lexes {t : Terminal} (hsettles : (token t).settles after) (ha : a.terminal = t)
    (hb : Lexes after a.rest b) : a.IsFirm := by
  simp only [settles, Bool.and_eq_true, Bool.or_eq_true, Bool.not_eq_true', bne_iff_ne, ne_eq,
    ← ha] at hsettles
  obtain ⟨⟨⟨hbracket, -⟩, hchunk⟩, hoperator⟩ := hsettles
  refine ⟨fun k hk hitem => stops_of_lexes hk (hchunk.resolve_left fun hno => ?_) hb hitem,
    fun hslash _ => ne_star_of_lexes (hoperator.resolve_left fun hno => hno hslash) hb,
    fun hleft => absurd hleft hbracket⟩
  have hany := List.any_eq_false.mp hno _ hk
  simp at hany

theorem isFirm_bracket {q : Pattern} {s₁ : Parser} {parts₁ : List Tree} {found : Token}
    (htake : s.take .leftBracket after = .ok (found, s₁)) (ha : s.Sees source a)
    (h : q.Reads after' parts₁ s₁ parts' s') (hneeds : q.needs .rightBracket) : a.IsFirm := by
  obtain ⟨-, hterminal, m, hlexes, hm⟩ := ha.of_take htake
  have hclosed := h.mem_of_needs hneeds hm hlexes.fits
  obtain ⟨gap, hgap⟩ := hlexes.divides
  refine ⟨fun k hk => ?_, fun hslash => ?_, fun _ => ?_⟩
  · have hno : ∀ e ∈ chunkTerminals, e.1 ≠ .leftBracket := by decide
    exact absurd hterminal (hno _ hk)
  · rw [hterminal] at hslash
    cases hslash
  · rw [hgap]
    exact List.mem_append_right _ hclosed

/-- **What follows the tokens of a pattern ends them**, if what comes next behind it is ended. -/
theorem Reads.isFirm (h : p.Reads after parts s parts' s') (hp : p.settles after)
    (ha : s.Sees source a) (hb : s'.Sees source b) (hfirm : b.IsFirm) : a.IsFirm := by
  induction h generalizing a b with
  | token htake =>
    obtain ⟨-, hterminal, b', hlexes, -⟩ := ha.of_take htake
    exact isFirm_of_lexes hp hterminal hlexes
  | @rule r _ _ _ _ _ _ _ ih => exact ih (settles_body r) ha hb hfirm
  | @seq p q after parts s parts₁ s₁ parts₂ s₂ hreads hreads' ih ih' =>
    obtain ⟨hp, hq⟩ := settles_seq hp
    obtain ⟨m, hm, -⟩ := hreads.leads ha
    rcases hp with hp | ⟨hbracket, hneeds⟩
    · exact ih hp ha hm (ih' hq hm hb hfirm)
    · cases hreads with
      | token htake =>
        rw [beq_iff_eq.mp hbracket] at htake
        exact isFirm_bracket htake ha hreads' hneeds
      | _ => cases hbracket
  | left _ _ ih =>
    simp only [settles, Bool.and_eq_true] at hp
    exact ih hp.1 ha hb hfirm
  | right _ _ ih =>
    simp only [settles, Bool.and_eq_true] at hp
    exact ih hp.2 ha hb hfirm
  | none => exact ha.unique hb ▸ hfirm
  | some _ _ ih => exact ih hp ha hb hfirm
  | once _ _ _ ih => exact ih hp ha hb hfirm
  | more hreads _ _ _ ih ih' =>
    obtain ⟨m, hm, -⟩ := hreads.leads ha
    exact ih hp ha hm (ih' hp hm hb hfirm)
  | resume _ _ ih => exact ih hp ha hb hfirm

/-- The tokens of the pattern are ended by what is read behind it: by the grammar, or because the pattern
is an opening bracket and a closing one is needed further on. -/
def Settled (p : Pattern) (after : TerminalSet) (parts : List Tree) (s : Parser) : Prop :=
  p.settles after ∨ settles.isBracket p ∧
    ∃ q after' parts' s', Reads q after' parts s parts' s' ∧ q.needs .rightBracket

theorem Settled.settles (h : p.Settled after parts s) (hp : settles.isBracket p = false) :
    p.settles after :=
  h.resolve_right fun h => by simp [hp] at h

theorem settled_body (r : Rule) {parts : List Tree} {s : Parser} :
    r.body.Settled r.follow parts s := Or.inl (settles_body r)

/-- What is read of a sequence settles its first pattern. -/
theorem Settled.first {q : Pattern} (h : (seq p q).Settled after parts' s')
    {parts₁ : List Tree} {s₁ : Parser} (hq : q.Reads after parts₁ s₁ parts' s') :
    p.Settled (q.admits after) parts₁ s₁ ∧ q.settles after := by
  obtain ⟨hp, hq'⟩ := settles_seq (h.settles rfl)
  exact ⟨hp.imp_right fun ⟨hbracket, hneeds⟩ => ⟨hbracket, q, after, parts', s', hq, hneeds⟩, hq'⟩

theorem isFirm_of_take {t : Terminal} {found : Token} (htake : s.take t after = .ok (found, s'))
    (hp : (token t).Settled after parts' s') (ha : s.Sees source a) : a.IsFirm := by
  obtain ⟨-, hterminal, b, hlexes, -⟩ := ha.of_take htake
  rcases hp with hp | ⟨hbracket, q, after', parts'', s'', hq, hneeds⟩
  · exact isFirm_of_lexes hp hterminal hlexes
  · rw [beq_iff_eq.mp hbracket] at htake
    exact isFirm_bracket htake ha hq hneeds

theorem Reads.firm (h : p.Reads after parts s parts' s') (hp : p.Settled after parts' s')
    (ha : s.Sees source a) (hb : s'.Sees source b) (hfirm : b.IsFirm) : a.IsFirm := by
  rcases hp with hsettles | hbracket
  · exact h.isFirm hsettles ha hb hfirm
  · cases h with
    | token htake => exact isFirm_of_take htake (Or.inr hbracket) ha
    | _ => cases hbracket.1

end Pattern

end Facade
