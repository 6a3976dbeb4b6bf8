import Facade.Proofs.Grammar.Bare
import Facade.Proofs.Grammar.Progress

/-!
# Reading the same in two sources

Where the tokens of two sources correspond to each other, what is read of one is read of the other.

* `Corresponds`: tokens that come next in two sources, each step from one to the next alike;
* **`Pattern.Reads.transfer`**: a pattern that is read in one source is read in the other.
-/

namespace Facade

open Scan

namespace Pattern

/-- Neither blocks nor phrases whose text counts are resumed. -/
def mayResume (r : Rule) : Bool := !r.keepsText && r != .block

theorem uses_body (r : Rule) : r.body.uses (fun _ => true) mayResume := by
  cases r <;> decide

variable {source : List Char} {p : Pattern} {after : TerminalSet} {parts parts' : List Tree}
  {s s' : Parser} {a b : Ahead}

/-! ## Parts that are kept -/

theorem Reads.rebase (h : p.Reads after parts s parts' s') (hp : p.isPlain) :
    ∃ new, parts' = new ++ parts ∧ ∀ others, p.Reads after others s (new ++ others) s' := by
  induction h with
  | token htake => exact ⟨[_], rfl, fun _ => .token htake⟩
  | rule hreads hcheck => exact ⟨[_], rfl, fun _ => .rule hreads hcheck⟩
  | seq _ _ ih ih' =>
    have hp := (Bool.and_eq_true _ _).mp hp
    obtain ⟨new, rfl, hnew⟩ := ih hp.1
    obtain ⟨new', rfl, hnew'⟩ := ih' hp.2
    refine ⟨new' ++ new, (List.append_assoc ..).symm, fun others => ?_⟩
    rw [List.append_assoc]
    exact .seq (hnew others) (hnew' _)
  | left hfirst _ ih =>
    obtain ⟨new, rfl, hnew⟩ := ih ((Bool.and_eq_true _ _).mp hp).1
    exact ⟨new, rfl, fun others => .left hfirst (hnew others)⟩
  | right hfirst _ ih =>
    obtain ⟨new, rfl, hnew⟩ := ih ((Bool.and_eq_true _ _).mp hp).2
    exact ⟨new, rfl, fun others => .right hfirst (hnew others)⟩
  | none hfirst => exact ⟨[], rfl, fun _ => .none hfirst⟩
  | some hfirst _ ih =>
    obtain ⟨new, rfl, hnew⟩ := ih hp
    exact ⟨new, rfl, fun others => .some hfirst (hnew others)⟩
  | once _ hcheck hfirst ih =>
    obtain ⟨new, rfl, hnew⟩ := ih hp
    exact ⟨new, rfl, fun others => .once (hnew others) hcheck hfirst⟩
  | more _ hcheck hfirst _ ih ih' =>
    obtain ⟨new, rfl, hnew⟩ := ih hp
    obtain ⟨new', rfl, hnew'⟩ := ih' hp
    refine ⟨new' ++ new, (List.append_assoc ..).symm, fun others => ?_⟩
    rw [List.append_assoc]
    exact .more (hnew others) hcheck hfirst (hnew' _)
  | resume => cases hp

theorem Reads.appends (h : p.Reads after parts s parts' s') (hp : p.isPlain) :
    ∃ new, parts' = new ++ parts :=
  (h.rebase hp).imp fun _ => And.left

/-! ## Named tokens -/

theorem Reads.mem_tokens (h : p.Reads after parts s parts' s') {t : Token}
    (hnamed : t.terminal.isNamed) (ht : t ∈ Tree.tokensAll parts) : t ∈ Tree.tokensAll parts' := by
  have hcons : ∀ {u : Tree} {us : List Tree}, t ∈ Tree.tokensAll (u :: us) ↔
      t ∈ u.tokens ∨ t ∈ Tree.tokensAll us := by simp [Tree.tokensAll]
  have hreverse : ∀ {us : List Tree}, t ∈ Tree.tokensAll us → t ∈ Tree.tokensAll us.reverse := by
    simp [Tree.mem_tokensAll]
  induction h with
  | token => exact hcons.mpr (Or.inr ht)
  | rule => exact hcons.mpr (Or.inr ht)
  | seq _ _ ih ih' => exact ih' (ih ht)
  | left _ _ ih => exact ih ht
  | right _ _ ih => exact ih ht
  | none => exact ht
  | some _ _ ih => exact ih ht
  | once _ _ _ ih => exact ih ht
  | more _ _ _ _ ih ih' => exact ih' (ih ht)
  | @resume r n p after parts s inner s' _ _ ih =>
    rw [← List.take_append_drop n parts, Tree.mem_tokensAll] at ht
    obtain ⟨u, hu, ht⟩ := ht
    rcases List.mem_append.mp hu with hu | hu
    · have hinner := ih (Tree.mem_tokensAll.mpr ⟨u, hu, ht⟩)
      exact hcons.mpr (Or.inl (Tree.mem_tokens_node (hreverse hinner) hnamed r))
    · exact hcons.mpr (Or.inr (Tree.mem_tokensAll.mpr ⟨u, hu, ht⟩))

theorem Reads.mem_tokens_inner {r : Rule} {inner : List Tree} {t : Token}
    (ht : t ∈ Tree.tokensAll inner) (hnamed : t.terminal.isNamed) :
    t ∈ Tree.tokensAll (r.node inner.reverse :: parts) := by
  have hreverse : t ∈ Tree.tokensAll inner.reverse := by
    simpa [Tree.mem_tokensAll] using ht
  exact List.mem_append_left _ (Tree.mem_tokens_node hreverse hnamed r)

theorem Reads.keeps_next (h : p.Reads after parts s parts' s') (ha : s.Sees source a)
    (hb : s'.Sees source b) (hnamed : a.terminal.isNamed) :
    b = a ∨ a.token source ∈ Tree.tokensAll parts' := by
  induction h generalizing a b with
  | token htake =>
    obtain ⟨rfl, -⟩ := ha.of_take htake
    exact Or.inr (List.mem_append_left _ (List.mem_singleton_self _))
  | rule _ _ ih => exact (ih ha hb hnamed).imp_right fun h => Reads.mem_tokens_inner h hnamed
  | seq hreads hreads' ih ih' =>
    obtain ⟨m, hm, -⟩ := hreads.leads ha
    rcases ih ha hm hnamed with rfl | hmem
    · exact ih' hm hb hnamed
    · exact Or.inr (hreads'.mem_tokens hnamed hmem)
  | left _ _ ih => exact ih ha hb hnamed
  | right _ _ ih => exact ih ha hb hnamed
  | none => exact Or.inl (hb.unique ha)
  | some _ _ ih => exact ih ha hb hnamed
  | once _ _ _ ih => exact ih ha hb hnamed
  | more hreads _ _ hreads' ih ih' =>
    obtain ⟨m, hm, -⟩ := hreads.leads ha
    rcases ih ha hm hnamed with rfl | hmem
    · exact ih' hm hb hnamed
    · exact Or.inr (hreads'.mem_tokens hnamed hmem)
  | resume _ _ ih => exact (ih ha hb hnamed).imp_right fun h => Reads.mem_tokens_inner h hnamed

end Pattern

/-! ## Tokens that correspond -/

variable (common source source' : List Char)

/-- Tokens that come next in two sources correspond by `R`, and places by `D`: as long as `Good` holds
of the tokens of the first source, each is followed by one in the second. `Known` is what is asked of
the named tokens that are taken. -/
structure Corresponds (Good : Ahead → Prop) (Known : Token → Prop) (R : Ahead → Ahead → Prop)
    (D : Position → Position → Prop) : Prop where
  terminal : ∀ {a a'}, R a a' → a'.terminal = a.terminal
  step : ∀ {A a a' b}, R a a' → Lexes A a.rest b → Good b → (∃ b', R b b' ∧ Lexes A a'.rest b') ∧
    D (.ofRest source (a.word ++ a.rest)) (.ofRest source' (a'.word ++ a'.rest)) ∧
    D (.ofRest source a.rest) (.ofRest source' a'.rest) ∧ a'.word = a.word
  text : ∀ {p p' q q'}, D p p' → D q q' → (Extent.mk p q).text source = (Extent.mk p' q').text source'
  back : ∀ {p : Pattern} {after parts s parts' s' a b}, p.Reads after parts s parts' s' →
    (b.IsFirm → a.IsFirm) → s.Sees source a → s'.Sees source b →
    (∀ t ∈ Tree.tokensAll parts', t.terminal.isNamed → Known t) → Good b → Good a

variable {common source source'} {Good : Ahead → Prop} {Known : Token → Prop}
  {R : Ahead → Ahead → Prop} {D : Position → Position → Prop}

theorem Parser.Sees.terminal_mem {s : Parser} {a : Ahead} (h : s.Sees source a)
    {expected : TerminalSet} (hcheck : s.check expected = .ok ()) : a.terminal ∈ expected := by
  unfold Parser.check at hcheck
  split_ifs at hcheck with hmem
  exact h.terminal_eq ▸ hmem

/-- From here on the pattern is read in the other source, with parts that match, up to a token that
corresponds. -/
def Pattern.ReadsAlike (common source source' : List Char) (R : Ahead → Ahead → Prop)
    (P : Position → Position → Prop) (p : Pattern) (after : TerminalSet) (parts' : List Tree)
    (s' : Parser) (parts₂ : List Tree) (b : Ahead) : Prop :=
  ∃ parts₂' s₂' b', p.Reads after parts' s' parts₂' s₂' ∧ s₂'.Sees source' b' ∧ R b b' ∧
    List.Forall₂ (Tree.Matches common source source' P) parts₂ parts₂'

namespace Corresponds

variable (hc : Corresponds source source' Good Known R D) {s s' : Parser} {a a' : Ahead}
  (ha : s.Sees source a) (ha' : s'.Sees source' a') (hR : R a a')

include hc ha ha' hR

theorem terminal_eq : s'.terminal = s.terminal := by
  rw [ha.terminal_eq, ha'.terminal_eq, hc.terminal hR]

theorem check {expected : TerminalSet} (h : s.check expected = .ok ()) :
    s'.check expected = .ok () :=
  ha'.check (hc.terminal hR ▸ ha.terminal_mem h)

end Corresponds

namespace Pattern

theorem ReadsAlike.imp {P : Position → Position → Prop} {p q : Pattern}
    {after after' : TerminalSet} {parts₁ parts' parts₂ : List Tree} {s₁ s' : Parser} {b : Ahead}
    (h : p.ReadsAlike common source source' R P after parts₁ s₁ parts₂ b)
    (hq : ∀ {parts₂' s₂' b'}, s₂'.Sees source' b' → R b b' → p.Reads after parts₁ s₁ parts₂' s₂' →
      q.Reads after' parts' s' parts₂' s₂') :
    q.ReadsAlike common source source' R P after' parts' s' parts₂ b := by
  obtain ⟨parts₂', s₂', b', hreads, hb', hR, hparts⟩ := h
  exact ⟨parts₂', s₂', b', hq hb' hR hreads, hb', hR, hparts⟩

theorem transfer_take (hc : Corresponds source source' Good Known R D) {t : Terminal}
    (ht : t ≠ .endOfInput) {after : TerminalSet} {parts parts' : List Tree} {s s₂ s' : Parser}
    {found : Token} (htake : s.take t after = .ok (found, s₂)) {a b a' : Ahead}
    (ha : s.Sees source a) (hb : s₂.Sees source b) (hgood : Good b) (ha' : s'.Sees source' a')
    (hR : R a a') {P : Position → Position → Prop} (hP : ∀ p p', D p p' → P p p')
    (hparts : List.Forall₂ (Tree.Matches common source source' P) parts parts') :
    (token t).ReadsAlike common source source' R P after parts' s' (.leaf found :: parts) b := by
  obtain ⟨rfl, rfl, m, hlexes, hm⟩ := ha.of_take htake
  obtain rfl := hb.unique hm
  obtain ⟨⟨b', hR', hlexes'⟩, hstart, hstop, hword⟩ := hc.step hR hlexes hgood
  have hterminal := hc.terminal hR
  obtain ⟨s₂', htake', hb'⟩ := ha'.take (hterminal ▸ ht) hlexes'
  rw [hterminal] at htake'
  refine ⟨_, s₂', b', .token htake', hb', hR', .cons ⟨?_, .some ⟨hP _ _ hstart, hP _ _ hstop⟩⟩
    hparts⟩
  simp [hterminal, hword]

/-- **A pattern that is read in one source is read in the other**, with parts that match. -/
theorem Reads.transfer (hc : Corresponds source source' Good Known R D) {p : Pattern}
    {after : TerminalSet} {parts parts₂ : List Tree} {s s₂ : Parser}
    (h : p.Reads after parts s parts₂ s₂) (hp : p.settles after ∨ settles.isBracket p)
    (huses : p.uses (fun _ => true) mayResume) {a b : Ahead} (ha : s.Sees source a)
    (hb : s₂.Sees source b) (hknown : ∀ t ∈ Tree.tokensAll parts₂, t.terminal.isNamed → Known t)
    (hgood : Good b) {parts' : List Tree} {s' : Parser} {a' : Ahead} (ha' : s'.Sees source' a')
    (hR : R a a') {P : Position → Position → Prop} (hP : ∀ p p', D p p' → P p p')
    (hparts : List.Forall₂ (Tree.Matches common source source' P) parts parts') :
    p.ReadsAlike common source source' R P after parts' s' parts₂ b := by
  induction h generalizing a b parts' s' a' P with
  | @token t after parts s found s₂ htake =>
    have ht : t ≠ .endOfInput := by
      rcases hp with hp | hp
      · exact ne_endOfInput_of_settles hp
      · rw [beq_iff_eq.mp hp]
        decide
    exact transfer_take hc ht htake ha hb hgood ha' hR hP hparts
  | @rule r after parts s inner s₂ hreads hcheck ih =>
    obtain ⟨inner', s₂', b', hreads', hb', hR', hinner⟩ := ih (Or.inl (settles_body r))
      (uses_body r) ha hb (fun t ht hnamed => hknown t (Reads.mem_tokens_inner ht hnamed) hnamed)
      hgood ha' hR (fun _ _ h => h) .nil
    have hreverse := List.rel_reverse hinner
    refine ⟨_, s₂', b', .rule hreads' (hc.check hb hb' hR' hcheck), hb', hR', .cons ?_ hparts⟩
    refine (Tree.Matches.node hreverse fun _ => ?_).mono hP
    have hends := Tree.rel_cover hreverse
    simp only [Tree.text, Rule.node, Tree.extent?]
    generalize Tree.cover inner.reverse = o, Tree.cover inner'.reverse = o' at hends
    cases hends with
    | none => rfl
    | some he => exact hc.text he.1 he.2
  | @seq p q after parts s parts₁ s₁ parts₂ s₂ hreads hreads' ih ih' =>
    obtain ⟨hp, hq⟩ := settles_seq (hp.resolve_right Bool.false_ne_true)
    have huses := (Bool.and_eq_true _ _).mp huses
    obtain ⟨m, hm, -⟩ := hreads.leads ha
    obtain ⟨parts₁', s₁', m', hreads₁, hm', hR₁, hparts₁⟩ := ih (hp.imp_right And.left) huses.1 ha hm
      (fun t ht hnamed => hknown t (hreads'.mem_tokens hnamed ht) hnamed)
      (hc.back hreads' (hreads'.isFirm hq hm hb) hm hb hknown hgood) ha' hR hP hparts
    exact (ih' (Or.inl hq) huses.2 hm hb hknown hgood hm' hR₁ hP hparts₁).imp fun _ _ hreads =>
      .seq hreads₁ hreads
  | left hfirst _ ih =>
    have hp := (Bool.and_eq_true _ _).mp (hp.resolve_right Bool.false_ne_true)
    have huses := (Bool.and_eq_true _ _).mp huses
    exact (ih (Or.inl hp.1) huses.1 ha hb hknown hgood ha' hR hP hparts).imp fun _ _ hreads =>
      .left (hc.terminal_eq ha ha' hR ▸ hfirst) hreads
  | right hfirst _ ih =>
    have hp := (Bool.and_eq_true _ _).mp (hp.resolve_right Bool.false_ne_true)
    have huses := (Bool.and_eq_true _ _).mp huses
    exact (ih (Or.inl hp.2) huses.2 ha hb hknown hgood ha' hR hP hparts).imp fun _ _ hreads =>
      .right (hc.terminal_eq ha ha' hR ▸ hfirst) hreads
  | none hfirst =>
    obtain rfl := ha.unique hb
    exact ⟨_, s', a', .none (hc.terminal_eq ha ha' hR ▸ hfirst), ha', hR, hparts⟩
  | some hfirst _ ih =>
    have hp := hp.resolve_right Bool.false_ne_true
    exact (ih (Or.inl hp) huses ha hb hknown hgood ha' hR hP hparts).imp fun _ _ hreads =>
      .some (hc.terminal_eq ha ha' hR ▸ hfirst) hreads
  | once hreads hcheck hfirst ih =>
    have hp := hp.resolve_right Bool.false_ne_true
    exact (ih (Or.inl hp) huses ha hb hknown hgood ha' hR hP hparts).imp fun hb' hR' hreads =>
      .once hreads (hc.check hb hb' hR' hcheck) (hc.terminal_eq hb hb' hR' ▸ hfirst)
  | more hreads hcheck hfirst hreads' ih ih' =>
    have hp₁ := hp.resolve_right Bool.false_ne_true
    obtain ⟨m, hm, -⟩ := hreads.leads ha
    obtain ⟨parts₁', s₁', m', hreads₁, hm', hR₁, hparts₁⟩ := ih (Or.inl hp₁) huses ha hm
      (fun t ht hnamed => hknown t (hreads'.mem_tokens hnamed ht) hnamed)
      (hc.back hreads' (hreads'.isFirm hp₁ hm hb) hm hb hknown hgood) ha' hR hP hparts
    exact (ih' hp huses hm hb hknown hgood hm' hR₁ hP hparts₁).imp fun _ _ hreads =>
      .more hreads₁ (hc.check hm hm' hR₁ hcheck) (hc.terminal_eq hm hm' hR₁ ▸ hfirst) hreads
  | @resume r n p after parts s inner s₂ hreads hcheck ih =>
    have hp := hp.resolve_right Bool.false_ne_true
    simp only [uses, mayResume, Bool.and_eq_true, Bool.not_eq_true'] at huses
    obtain ⟨inner', s₂', b', hreads', hb', hR', hinner⟩ := ih (Or.inl hp) huses.2 ha hb
      (fun t ht hnamed => hknown t (Reads.mem_tokens_inner ht hnamed) hnamed) hgood ha' hR hP
      (List.forall₂_take n hparts)
    refine ⟨_, s₂', b', .resume hreads' (hc.check hb hb' hR' hcheck), hb', hR',
      .cons ?_ (List.forall₂_drop n hparts)⟩
    exact Tree.Matches.node (List.rel_reverse hinner) fun hr => by rw [huses.1.1] at hr; cases hr

end Pattern

end Facade
