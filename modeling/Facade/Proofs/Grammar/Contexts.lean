import Facade.Proofs.Grammar.Ahead
import Facade.Proofs.Grammar.Growth

/-!
# What is admitted where a token is read

A token is read knowing what may stand at its place. A phrase does not know where it stands in a
source, so its last token admits whatever may follow such a phrase anywhere.

* `Pattern.fits`, **`Pattern.fits_body`**: the sets of the grammar that name what may follow name all
  of it;
* `Parser.Admits`: the token that comes next was read where these terminals are admitted;
* **`Pattern.Reads.admits`**, `Rule.admits_of_reads`: behind a phrase all is admitted that may follow;
* **`Pattern.Reads.forall_parts`**: what passes from the parts to the phrases is true of all of them;
* `Parser.IsAt.readsAsName`: a name that was read is read as a name.
-/

namespace Facade

open Scan

namespace Pattern

/-- What may stand after the phrases and repetitions of a pattern contains what comes after them
where one of `after` stands behind the pattern. -/
def fits : Pattern → TerminalSet → Bool
  | token _, _ => true
  | rule r, after => r != .source && after.isWithin r.follow
  | seq p q, after => p.fits (q.admits after) && q.fits after
  | alt p q, after => p.fits after && q.fits after
  | opt p, after => p.fits after
  | plus repeated p, after =>
    !p.isNullable && p.first.isWithin repeated && after.isWithin repeated && p.fits repeated
  | resume r _ p, after => after.isWithin r.follow && p.fits r.follow

/-- **The grammar says what may follow its phrases and repetitions.** -/
theorem fits_body (r : Rule) : r.body.fits r.follow := by
  cases r <;> decide

theorem mem_first_of_admits_body {r : Rule} (hr : r ≠ .source) {t : Terminal}
    (ht : t ∈ r.body.admits r.follow) : t ∈ r.first := by
  have hwithin : r = .source ∨ (r.body.admits r.follow).isWithin r.first := by
    cases r <;> decide
  exact TerminalSet.mem_of_isWithin (hwithin.resolve_left hr) ht

theorem mem_admits {p : Pattern} {after : TerminalSet} {t : Terminal} :
    t ∈ p.admits after ↔ t ∈ p.first ∨ p.isNullable = true ∧ t ∈ after := by
  unfold admits
  split_ifs with h
  · simp [TerminalSet.mem_union, h]
  · simp [h]

theorem mem_first_of_admits {p : Pattern} (hp : p.isNullable = false) {after : TerminalSet}
    {t : Terminal} (ht : t ∈ p.admits after) : t ∈ p.first :=
  (mem_admits.mp ht).resolve_right fun h => by simp [hp] at h

theorem mem_admits_seq {p q : Pattern} {after : TerminalSet} {t : Terminal} :
    t ∈ (seq p q).admits after ↔ t ∈ p.admits (q.admits after) := by
  simp only [mem_admits, first, isNullable]
  cases hp : p.isNullable <;> simp [TerminalSet.mem_union, or_assoc]

theorem mem_admits_left {p q : Pattern} {after : TerminalSet} {t : Terminal}
    (ht : t ∈ p.admits after) : t ∈ (alt p q).admits after := by
  rcases mem_admits.mp ht with ht | ⟨hnull, ht⟩
  · exact mem_admits.mpr (Or.inl (TerminalSet.mem_union.mpr (Or.inl ht)))
  · exact mem_admits.mpr (Or.inr ⟨by simp [isNullable, hnull], ht⟩)

theorem mem_admits_right {p q : Pattern} {after : TerminalSet} {t : Terminal}
    (ht : t ∈ q.admits after) : t ∈ (alt p q).admits after := by
  rcases mem_admits.mp ht with ht | ⟨hnull, ht⟩
  · exact mem_admits.mpr (Or.inl (TerminalSet.mem_union.mpr (Or.inr ht)))
  · exact mem_admits.mpr (Or.inr ⟨by simp [isNullable, hnull], ht⟩)

theorem mem_admits_opt {p : Pattern} {after : TerminalSet} {t : Terminal}
    (ht : t ∈ p.admits after) : t ∈ (opt p).admits after :=
  mem_admits.mpr ((mem_admits.mp ht).imp_right fun h => ⟨rfl, h.2⟩)

end Pattern

/-- The token that comes next was read where all these terminals are admitted. -/
def Parser.Admits (s : Parser) (X : TerminalSet) : Prop :=
  ∃ c A, s.IsAt c A ∧ ∀ t ∈ X, t ∈ A

theorem Parser.Admits.mono {s : Parser} {X Y : TerminalSet} (h : s.Admits X)
    (hY : ∀ t ∈ Y, t ∈ X) : s.Admits Y := by
  obtain ⟨c, A, hat, hX⟩ := h
  exact ⟨c, A, hat, fun t ht => hX t (hY t ht)⟩

namespace Pattern

/-- **Behind a pattern all is admitted that may follow it**: if of what may stand after it `within`
is admitted before it, then so it is behind it. -/
theorem Reads.admits {p : Pattern} {after within : TerminalSet} {parts parts' : List Tree}
    {s s' : Parser} (h : p.Reads after parts s parts' s') (hp : p.fits after)
    (hwithin : ∀ t ∈ within, t ∈ after) (hs : s.Admits (p.admits within)) : s'.Admits within := by
  induction h generalizing within with
  | @token t after parts s found s' htake =>
    obtain ⟨-, -, hat⟩ := Parser.take_eq_ok htake
    exact ⟨_, _, hat, hwithin⟩
  | @rule r after parts s inner s' _ _ ih =>
    simp only [fits, Bool.and_eq_true, bne_iff_ne, ne_eq] at hp
    have hinner : s'.Admits r.follow := ih (fits_body r) (fun _ ht => ht) (hs.mono fun t ht =>
      mem_admits.mpr (Or.inl (mem_first_of_admits_body hp.1 ht)))
    exact hinner.mono fun t ht => TerminalSet.mem_of_isWithin hp.2 (hwithin t ht)
  | @seq p q after parts s parts₁ s₁ parts₂ s₂ _ _ ih ih' =>
    simp only [fits, Bool.and_eq_true] at hp
    refine ih' hp.2 hwithin (ih hp.1 (fun t ht => ?_) (hs.mono fun t ht => mem_admits_seq.mpr ht))
    exact mem_admits.mpr ((mem_admits.mp ht).imp_right fun h => ⟨h.1, hwithin t h.2⟩)
  | left _ _ ih =>
    simp only [fits, Bool.and_eq_true] at hp
    exact ih hp.1 hwithin (hs.mono fun t ht => mem_admits_left ht)
  | right _ _ ih =>
    simp only [fits, Bool.and_eq_true] at hp
    exact ih hp.2 hwithin (hs.mono fun t ht => mem_admits_right ht)
  | none => exact hs.mono fun t ht => mem_admits.mpr (Or.inr ⟨rfl, ht⟩)
  | some _ _ ih => exact ih hp hwithin (hs.mono fun t ht => mem_admits_opt ht)
  | once _ _ _ ih =>
    simp only [fits, Bool.and_eq_true, Bool.not_eq_true'] at hp
    obtain ⟨⟨⟨hnull, -⟩, hafter⟩, hp⟩ := hp
    exact (ih hp (fun _ ht => ht) (hs.mono fun t ht =>
      mem_admits.mpr (Or.inl (mem_first_of_admits hnull ht)))).mono fun t ht =>
        TerminalSet.mem_of_isWithin hafter (hwithin t ht)
  | @more p repeated after _ _ _ _ _ _ _ _ _ _ ih ih' =>
    have hplus := hp
    simp only [fits, Bool.and_eq_true, Bool.not_eq_true'] at hp
    obtain ⟨⟨⟨hnull, hfirst⟩, -⟩, hp⟩ := hp
    exact ih' hplus hwithin ((ih hp (fun _ ht => ht) (hs.mono fun t ht =>
      mem_admits.mpr (Or.inl (mem_first_of_admits hnull ht)))).mono fun t ht =>
        TerminalSet.mem_of_isWithin hfirst (mem_first_of_admits (p := plus repeated p) rfl ht))
  | resume _ _ ih =>
    simp only [fits, Bool.and_eq_true] at hp
    exact ih hp.2 (fun t ht => TerminalSet.mem_of_isWithin hp.1 (hwithin t ht)) hs

end Pattern

/-- Behind the pattern of a phrase all is admitted that may follow the phrase. -/
theorem Rule.admits_of_reads {r : Rule} (hr : r ≠ .source) {inner : List Tree} {s s' : Parser}
    (h : r.body.Reads r.follow [] s inner s') (hs : s.Admits r.first) : s'.Admits r.follow :=
  h.admits (Pattern.fits_body r) (fun _ ht => ht)
    (hs.mono fun _ ht => Pattern.mem_first_of_admits_body hr ht)

/-! ## Trees that were read -/

namespace Pattern

/-- Only these phrases occur in the pattern, and only these are resumed by it. -/
def uses (occurs resumed : Rule → Bool) : Pattern → Bool
  | token _ => true
  | rule r => occurs r
  | seq p q | alt p q => p.uses occurs resumed && q.uses occurs resumed
  | opt p | plus _ p => p.uses occurs resumed
  | resume r _ p => resumed r && p.uses occurs resumed

theorem isOf_of_reads {source : List Char} {p : Pattern} {after : TerminalSet}
    {parts parts' : List Tree} {s s' : Parser} (h : p.Reads after parts s parts' s')
    (hs : s.IsOf source) : s'.IsOf source :=
  have hyields : p.Yields (fun _ => True) parts parts' ∧ s'.IsOf source :=
    h.yields (fun _ _ => trivial) hs
  hyields.2

/-- **What is true of the tokens, and of a phrase where it is of its parts, is true of all that is
read.** A phrase that is not resumed is read where all is admitted that it can begin with. -/
theorem Reads.forall_parts {source : List Char} {occurs resumed : Rule → Bool} {Q : Tree → Prop}
    (huses : ∀ r, occurs r → r.body.uses occurs resumed) (hleaf : ∀ t, Q (.leaf t))
    (hrule : ∀ {r inner s s'}, occurs r → r.body.Reads r.follow [] s inner s' →
      s.Admits r.first → s.IsOf source → (∀ t ∈ inner, Q t) → Q (r.node inner.reverse))
    (hresume : ∀ {r : Rule} {inner : List Tree}, resumed r → (∀ t ∈ inner, Q t) →
      Q (r.node inner.reverse))
    {p : Pattern} {after within : TerminalSet} {parts parts' : List Tree} {s s' : Parser}
    (h : p.Reads after parts s parts' s') (hp : p.uses occurs resumed) (hfits : p.fits after)
    (hwithin : ∀ t ∈ within, t ∈ after) (hs : s.Admits (p.admits within)) (hof : s.IsOf source)
    (hparts : ∀ t ∈ parts, Q t) : ∀ t ∈ parts', Q t := by
  induction h generalizing within with
  | token => exact List.forall_mem_cons.mpr ⟨hleaf _, hparts⟩
  | @rule r after parts s inner s' hinner _ ih =>
    simp only [fits, Bool.and_eq_true, bne_iff_ne, ne_eq] at hfits
    have hfirst : s.Admits r.first := hs
    have hchildren : ∀ t ∈ inner, Q t := ih (huses r hp) (fits_body r) (fun _ ht => ht)
      (hfirst.mono fun _ ht => mem_first_of_admits_body hfits.1 ht) hof (by simp)
    exact List.forall_mem_cons.mpr ⟨hrule hp hinner hfirst hof hchildren, hparts⟩
  | @seq p q after parts s parts₁ s₁ parts₂ s₂ hfirst _ ih ih' =>
    simp only [uses, fits, Bool.and_eq_true] at hp hfits
    have hbetween : ∀ t ∈ q.admits within, t ∈ q.admits after := fun t ht =>
      mem_admits.mpr ((mem_admits.mp ht).imp_right fun h => ⟨h.1, hwithin t h.2⟩)
    have hs' : s.Admits (p.admits (q.admits within)) :=
      hs.mono fun t ht => mem_admits_seq.mpr ht
    exact ih' hp.2 hfits.2 hwithin (hfirst.admits hfits.1 hbetween hs') (isOf_of_reads hfirst hof)
      (ih hp.1 hfits.1 hbetween hs' hof hparts)
  | left _ _ ih =>
    simp only [uses, fits, Bool.and_eq_true] at hp hfits
    exact ih hp.1 hfits.1 hwithin (hs.mono fun t ht => mem_admits_left ht) hof hparts
  | right _ _ ih =>
    simp only [uses, fits, Bool.and_eq_true] at hp hfits
    exact ih hp.2 hfits.2 hwithin (hs.mono fun t ht => mem_admits_right ht) hof hparts
  | none => exact hparts
  | some _ _ ih => exact ih hp hfits hwithin (hs.mono fun t ht => mem_admits_opt ht) hof hparts
  | once _ _ _ ih =>
    simp only [fits, Bool.and_eq_true, Bool.not_eq_true'] at hfits
    exact ih hp hfits.2 (fun _ ht => ht) (hs.mono fun t ht =>
      mem_admits.mpr (Or.inl (mem_first_of_admits hfits.1.1.1 ht))) hof hparts
  | @more p repeated after parts s parts₁ s₁ parts₂ s₂ hfirst _ _ _ ih ih' =>
    have hplus := hfits
    simp only [fits, Bool.and_eq_true, Bool.not_eq_true'] at hfits
    obtain ⟨⟨⟨hnull, hagain⟩, -⟩, hinner⟩ := hfits
    have hs' : s.Admits (p.admits repeated) := hs.mono fun t ht =>
      mem_admits.mpr (Or.inl (mem_first_of_admits hnull ht))
    have hs₁ : s₁.Admits repeated := hfirst.admits hinner (fun _ ht => ht) hs'
    refine ih' hp hplus hwithin (hs₁.mono fun t ht => ?_) (isOf_of_reads hfirst hof)
      (ih hp hinner (fun _ ht => ht) hs' hof hparts)
    exact TerminalSet.mem_of_isWithin hagain
      (mem_first_of_admits (p := plus repeated p) rfl ht)
  | @resume r n p after parts s inner s' _ _ ih =>
    simp only [uses, fits, Bool.and_eq_true] at hp hfits
    have hchildren : ∀ t ∈ inner, Q t := ih hp.2 hfits.2
      (fun t ht => TerminalSet.mem_of_isWithin hfits.1 (hwithin t ht)) hs hof
      fun t ht => hparts t (List.mem_of_mem_take ht)
    exact List.forall_mem_cons.mpr
      ⟨hresume hp.1 hchildren, fun t ht => hparts t (List.mem_of_mem_drop ht)⟩

end Pattern

/-! ## Names -/

/-- A token that was read as a name is read as a name there. -/
theorem Parser.IsAt.readsAsName {s : Parser} {c : Cursor} {A : TerminalSet} (h : s.IsAt c A)
    {t : Token} (ht : s.lookahead = some t) (hname : t.terminal = .name) :
    classifyName A t.text.toList = .name := by
  obtain ⟨c', kind, split, -, hstands, rfl, -⟩ := Cursor.exists_gap (h.next ht)
  obtain rfl : kind = .name := hname
  rcases hstands with hchunk | ⟨-, -, hterminal⟩
  · obtain ⟨e, he, hchunk⟩ := List.exists_of_findSome?_eq_some hchunk
    split_ifs at hchunk
    obtain ⟨s', -, heq⟩ := Option.map_eq_some_iff.mp hchunk
    have hno : ∀ e ∈ chunkTerminals, e.1 ≠ .name := by decide
    exact absurd (congrArg Prod.fst heq) (hno e he)
  · unfold matchTerminal at hterminal
    rw [Option.orElse_eq_some, Option.orElse_eq_some] at hterminal
    rcases hterminal with hread | ⟨-, hread | ⟨-, hread⟩⟩
    · unfold matchName at hread
      split_ifs at hread
      obtain ⟨s', -, heq⟩ := Option.map_eq_some_iff.mp hread
      obtain ⟨hclass, rfl⟩ := Prod.mk.inj heq
      simpa [Cursor.token] using hclass
    · unfold matchOperator at hread
      split_ifs at hread
      obtain ⟨s', -, heq⟩ := Option.map_eq_some_iff.mp hread
      have hclass : classifyOperator A s'.1 = .name := congrArg Prod.fst heq
      unfold classifyOperator at hclass
      split at hclass
      · next e he =>
        have hmem := List.mem_append_right Terminal.words (List.mem_of_find?_eq_some he)
        exact absurd hclass (spelling?_of_mem e hmem).1
      · cases hclass
    · obtain ⟨e, he, hread⟩ := List.exists_of_findSome?_eq_some hread
      split_ifs at hread
      obtain ⟨s', -, heq⟩ := Option.map_eq_some_iff.mp hread
      exact absurd (congrArg Prod.fst heq) (spelling?_of_mem e he).1

end Facade
