import Facade.Proofs.Grammar.Refill

/-!
# Reading through a place

Where two sources differ in one place only, what is read there is read within one pattern, and within the
phrases around it. What is said of this pattern is said of the phrases.

* `Pattern.Through`: reading in the course of which one pattern is read in a certain way;
* `Pattern.Crosses`: what is read of this pattern in one source is read in the other;
* `Pattern.Through.good`: the tokens before it are such as correspond;
* **`Pattern.Through.transfer`**: all that is read in the one source is read in the other.
-/

namespace Facade

open Scan

/-- What comes next was read somewhere. -/
def Ahead.IsRead (a : Ahead) : Prop := ∃ A cs, Lexes A cs a

theorem Ahead.Leads.isRead {a b : Ahead} (h : a.Leads b) (ha : a.IsRead) : b.IsRead := by
  cases h with
  | refl => exact ha
  | tail _ hlexes => exact ⟨_, _, hlexes⟩

theorem Ahead.IsRead.fits {a : Ahead} (h : a.IsRead) : Fits a.terminal a.word := by
  obtain ⟨A, cs, hlexes⟩ := h
  exact hlexes.fits

namespace Pattern

/-- Reading in the course of which a pattern is read as `Here` says, within phrases of which `inside` is
true. -/
inductive Through (inside : Rule → Bool)
    (Here : Pattern → TerminalSet → List Tree → Parser → List Tree → Parser → Prop) :
    Pattern → TerminalSet → List Tree → Parser → List Tree → Parser → Prop
  | here {p after parts s parts' s'} : p.Reads after parts s parts' s' →
      Here p after parts s parts' s' → Through inside Here p after parts s parts' s'
  | rule {r after parts s inner s'} : inside r → Through inside Here r.body r.follow [] s inner s' →
      s'.check after = .ok () →
      Through inside Here (.rule r) after parts s (r.node inner.reverse :: parts) s'
  | first {p q after parts s parts' s' parts'' s''} :
      Through inside Here p (q.admits after) parts s parts' s' → Reads q after parts' s' parts'' s'' →
      Through inside Here (.seq p q) after parts s parts'' s''
  | second {p q after parts s parts' s' parts'' s''} : Reads p (q.admits after) parts s parts' s' →
      Through inside Here q after parts' s' parts'' s'' →
      Through inside Here (.seq p q) after parts s parts'' s''
  | left {p q after parts s parts' s'} : s.terminal ∈ p.first →
      Through inside Here p after parts s parts' s' →
      Through inside Here (.alt p q) after parts s parts' s'
  | right {p q after parts s parts' s'} : s.terminal ∉ p.first →
      Through inside Here q after parts s parts' s' →
      Through inside Here (.alt p q) after parts s parts' s'
  | some {p after parts s parts' s'} : s.terminal ∈ p.first →
      Through inside Here p after parts s parts' s' →
      Through inside Here (.opt p) after parts s parts' s'
  | once {p repeated after parts s parts' s'} :
      Through inside Here p repeated parts s parts' s' → s'.check (p.first ∪ after) = .ok () →
      s'.terminal ∉ p.first → Through inside Here (.plus repeated p) after parts s parts' s'
  | now {p repeated after parts s parts' s' parts'' s''} :
      Through inside Here p repeated parts s parts' s' → s'.check (p.first ∪ after) = .ok () →
      s'.terminal ∈ p.first → Reads (.plus repeated p) after parts' s' parts'' s'' →
      Through inside Here (.plus repeated p) after parts s parts'' s''
  | later {p repeated after parts s parts' s' parts'' s''} : Reads p repeated parts s parts' s' →
      s'.check (p.first ∪ after) = .ok () → s'.terminal ∈ p.first →
      Through inside Here (.plus repeated p) after parts' s' parts'' s'' →
      Through inside Here (.plus repeated p) after parts s parts'' s''
  | resume {r n p after parts s inner s'} :
      Through inside Here p r.follow (parts.take n) s inner s' → s'.check after = .ok () →
      Through inside Here (.resume r n p) after parts s (r.node inner.reverse :: parts.drop n) s'

variable {inside : Rule → Bool}
  {Here : Pattern → TerminalSet → List Tree → Parser → List Tree → Parser → Prop}
  {common source source' : List Char} {p : Pattern} {after : TerminalSet} {parts parts' : List Tree}
  {s s' : Parser} {a b : Ahead}

theorem Through.reads (h : Through inside Here p after parts s parts' s') :
    p.Reads after parts s parts' s' := by
  induction h with
  | here hreads _ => exact hreads
  | rule _ _ hcheck ih => exact .rule ih hcheck
  | first _ hreads ih => exact .seq ih hreads
  | second hreads _ ih => exact .seq hreads ih
  | left hfirst _ ih => exact .left hfirst ih
  | right hfirst _ ih => exact .right hfirst ih
  | some hfirst _ ih => exact .some hfirst ih
  | once _ hcheck hfirst ih => exact .once ih hcheck hfirst
  | now _ hcheck hfirst hreads ih => exact .more ih hcheck hfirst hreads
  | later hreads hcheck hfirst _ ih => exact .more hreads hcheck hfirst ih
  | resume _ hcheck ih => exact .resume ih hcheck

theorem Through.exists_here (h : Through inside Here p after parts s parts' s')
    (ha : s.Sees source a) (hread : a.IsRead) : ∃ p after parts s parts' s' a,
      Here p after parts s parts' s' ∧ p.Reads after parts s parts' s' ∧ s.Sees source a ∧
        a.IsRead := by
  induction h generalizing a with
  | here hreads hhere => exact ⟨_, _, _, _, _, _, a, hhere, hreads, ha, hread⟩
  | rule _ _ _ ih => exact ih ha hread
  | first _ _ ih => exact ih ha hread
  | second hreads _ ih =>
    obtain ⟨m, hm, hleads⟩ := hreads.leads ha
    exact ih hm (hleads.isRead hread)
  | left _ _ ih => exact ih ha hread
  | right _ _ ih => exact ih ha hread
  | some _ _ ih => exact ih ha hread
  | once _ _ _ ih => exact ih ha hread
  | now _ _ _ _ ih => exact ih ha hread
  | later hreads _ _ _ ih =>
    obtain ⟨m, hm, hleads⟩ := hreads.leads ha
    exact ih hm (hleads.isRead hread)
  | resume _ _ ih => exact ih ha hread

/-! ## Two sources -/

variable (Here common source source') in
/-- What is read as `Here` says begins with a token that corresponds by `R` to one of the other source,
and from there on it is read in the other source, up to tokens that correspond by `R'`. -/
structure Crosses (Good : Ahead → Prop) (R R' : Ahead → Ahead → Prop) : Prop where
  good : ∀ {p after parts s parts' s' a}, Here p after parts s parts' s' →
    p.Reads after parts s parts' s' → p.Settled after parts' s' → s.Sees source a → a.IsRead → Good a
  transfer : ∀ {p after parts s parts' s' a b parts₁ s₁ a'}, Here p after parts s parts' s' →
    p.Reads after parts s parts' s' → p.Settled after parts' s' → p.uses (fun _ => true) mayResume →
    s.Sees source a → a.IsRead → s'.Sees source b → s₁.Sees source' a' → R a a' →
    List.Forall₂ (Tree.Matches common source source' fun _ _ => True) parts parts₁ →
    p.ReadsAlike common source source' R' (fun _ _ => True) after parts₁ s₁ parts' b

variable {Good : Ahead → Prop} {Known : Token → Prop} {R R' : Ahead → Ahead → Prop}
  {D D' : Position → Position → Prop}

theorem known_inner {r : Rule} {inner : List Tree}
    (h : ∀ t ∈ Tree.tokensAll (r.node inner.reverse :: parts), t.terminal.isNamed → Known t) :
    ∀ t ∈ Tree.tokensAll inner, t.terminal.isNamed → Known t := fun t ht hnamed =>
  h t (Reads.mem_tokens_inner ht hnamed) hnamed

/-- **The tokens before the pattern are such as correspond.** -/
theorem Through.good (hcrosses : Crosses Here common source source' Good R R')
    (hc : Corresponds source source' Good Known R D) (h : Through inside Here p after parts s parts' s')
    (hp : p.Settled after parts' s') (ha : s.Sees source a) (hread : a.IsRead)
    (hknown : ∀ t ∈ Tree.tokensAll parts', t.terminal.isNamed → Known t) : Good a := by
  induction h generalizing a with
  | here hreads hhere => exact hcrosses.good hhere hreads hp ha hread
  | @rule r _ _ _ _ _ _ _ _ ih => exact ih (settled_body r) ha hread (known_inner hknown)
  | first _ hreads ih =>
    exact ih (hp.first hreads).1 ha hread fun t ht hnamed =>
      hknown t (hreads.mem_tokens hnamed ht) hnamed
  | second hreads hthrough ih =>
    obtain ⟨hp, hq⟩ := hp.first hthrough.reads
    obtain ⟨m, hm, hleads⟩ := hreads.leads ha
    exact hc.back hreads (hreads.firm hp ha hm) ha hm
      (fun t ht hnamed => hknown t (hthrough.reads.mem_tokens hnamed ht) hnamed)
      (ih (Or.inl hq) hm (hleads.isRead hread) hknown)
  | left _ _ ih => exact ih (Or.inl ((Bool.and_eq_true _ _).mp (hp.settles rfl)).1) ha hread hknown
  | right _ _ ih => exact ih (Or.inl ((Bool.and_eq_true _ _).mp (hp.settles rfl)).2) ha hread hknown
  | some _ _ ih => exact ih (Or.inl (hp.settles rfl)) ha hread hknown
  | once _ _ _ ih => exact ih (Or.inl (hp.settles rfl)) ha hread hknown
  | now _ _ _ hreads ih =>
    exact ih (Or.inl (hp.settles rfl)) ha hread fun t ht hnamed =>
      hknown t (hreads.mem_tokens hnamed ht) hnamed
  | later hreads _ _ hthrough ih =>
    obtain ⟨m, hm, hleads⟩ := hreads.leads ha
    exact hc.back hreads (hreads.isFirm (hp.settles rfl) ha hm) ha hm
      (fun t ht hnamed => hknown t (hthrough.reads.mem_tokens hnamed ht) hnamed)
      (ih (Or.inl (hp.settles rfl)) hm (hleads.isRead hread) hknown)
  | resume _ _ ih => exact ih (Or.inl (hp.settles rfl)) ha hread (known_inner hknown)

theorem Through.transfer_before {q : Pattern} {after' : TerminalSet} {parts₂ : List Tree}
    {s₂ : Parser} (hcrosses : Crosses Here common source source' Good R R')
    (hc : Corresponds source source' Good Known R D)
    (hthrough : Through inside Here q after' parts' s' parts₂ s₂) (hq : q.settles after')
    (h : p.Reads after parts s parts' s') (hp : p.Settled after parts' s')
    (huses : p.uses (fun _ => true) mayResume) (ha : s.Sees source a) (hb : s'.Sees source b)
    (hread : b.IsRead) (hknown : ∀ t ∈ Tree.tokensAll parts₂, t.terminal.isNamed → Known t)
    {parts₁ : List Tree} {s₁ : Parser} {a' : Ahead} (ha' : s₁.Sees source' a') (hR : R a a')
    (hparts : List.Forall₂ (Tree.Matches common source source' fun _ _ => True) parts parts₁) :
    p.ReadsAlike common source source' R (fun _ _ => True) after parts₁ s₁ parts' b :=
  h.transfer hc (hp.imp_right And.left) huses ha hb
    (fun t ht hnamed => hknown t (hthrough.reads.mem_tokens hnamed ht) hnamed)
    (hthrough.good hcrosses hc (Or.inl hq) hb hread hknown) ha' hR (fun _ _ _ => trivial) hparts

/-- **All that is read in the one source is read in the other**, with parts that say the same. -/
theorem Through.transfer (hcrosses : Crosses Here common source source' Good R R')
    (hbefore : Corresponds source source' Good Known R D)
    (hbehind : Corresponds source source' (fun _ => True) (fun _ => True) R' D')
    (hinside : ∀ r, inside r → r.keepsText = false)
    (h : Through inside Here p after parts s parts' s') (hp : p.Settled after parts' s')
    (huses : p.uses (fun _ => true) mayResume) (ha : s.Sees source a) (hread : a.IsRead)
    (hb : s'.Sees source b) (hknown : ∀ t ∈ Tree.tokensAll parts', t.terminal.isNamed → Known t)
    {parts₁ : List Tree} {s₁ : Parser} {a' : Ahead} (ha' : s₁.Sees source' a') (hR : R a a')
    (hparts : List.Forall₂ (Tree.Matches common source source' fun _ _ => True) parts parts₁) :
    p.ReadsAlike common source source' R' (fun _ _ => True) after parts₁ s₁ parts' b := by
  induction h generalizing a b parts₁ s₁ a' with
  | here hreads hhere =>
    exact hcrosses.transfer hhere hreads hp huses ha hread hb ha' hR hparts
  | @rule r after parts s inner s' hr hthrough hcheck ih =>
    obtain ⟨inner', s₂', b', hreads', hb', hR', hinner'⟩ := ih (settled_body r) (uses_body r) ha hread
      hb (known_inner hknown) ha' hR .nil
    refine ⟨_, s₂', b', .rule hreads' (hbehind.check hb hb' hR' hcheck), hb', hR', .cons ?_ hparts⟩
    exact Tree.Matches.node (List.rel_reverse hinner') fun htext => by
      rw [hinside r hr] at htext
      cases htext
  | first hthrough hreads ih =>
    obtain ⟨hp, hq⟩ := hp.first hreads
    have huses := (Bool.and_eq_true _ _).mp huses
    obtain ⟨m, hm, -⟩ := hthrough.reads.leads ha
    obtain ⟨parts₂, s₂, m', hreads₂, hm', hR₂, hparts₂⟩ := ih hp huses.1 ha hread hm
      (fun t ht hnamed => hknown t (hreads.mem_tokens hnamed ht) hnamed) ha' hR hparts
    exact (hreads.transfer hbehind (Or.inl hq) huses.2 hm hb (fun _ _ _ => trivial) trivial hm' hR₂
      (fun _ _ _ => trivial) hparts₂).imp fun _ _ hreads => .seq hreads₂ hreads
  | second hreads hthrough ih =>
    obtain ⟨hp, hq⟩ := hp.first hthrough.reads
    have huses := (Bool.and_eq_true _ _).mp huses
    obtain ⟨m, hm, hleads⟩ := hreads.leads ha
    have hread' := hleads.isRead hread
    obtain ⟨parts₂, s₂, m', hreads₂, hm', hR₂, hparts₂⟩ := hthrough.transfer_before hcrosses hbefore
      hq hreads hp huses.1 ha hm hread' hknown ha' hR hparts
    exact (ih (Or.inl hq) huses.2 hm hread' hb hknown hm' hR₂ hparts₂).imp fun _ _ hreads =>
      .seq hreads₂ hreads
  | left hfirst _ ih =>
    have hp := (Bool.and_eq_true _ _).mp (hp.settles rfl)
    have huses := (Bool.and_eq_true _ _).mp huses
    exact (ih (Or.inl hp.1) huses.1 ha hread hb hknown ha' hR hparts).imp fun _ _ hreads =>
      .left (hbefore.terminal_eq ha ha' hR ▸ hfirst) hreads
  | right hfirst _ ih =>
    have hp := (Bool.and_eq_true _ _).mp (hp.settles rfl)
    have huses := (Bool.and_eq_true _ _).mp huses
    exact (ih (Or.inl hp.2) huses.2 ha hread hb hknown ha' hR hparts).imp fun _ _ hreads =>
      .right (hbefore.terminal_eq ha ha' hR ▸ hfirst) hreads
  | some hfirst _ ih =>
    exact (ih (Or.inl (hp.settles rfl)) huses ha hread hb hknown ha' hR hparts).imp
      fun _ _ hreads => .some (hbefore.terminal_eq ha ha' hR ▸ hfirst) hreads
  | once _ hcheck hfirst ih =>
    exact (ih (Or.inl (hp.settles rfl)) huses ha hread hb hknown ha' hR hparts).imp
      fun hb' hR' hreads => .once hreads (hbehind.check hb hb' hR' hcheck)
        (hbehind.terminal_eq hb hb' hR' ▸ hfirst)
  | now hthrough hcheck hfirst hreads ih =>
    have hp := hp.settles rfl
    obtain ⟨m, hm, -⟩ := hthrough.reads.leads ha
    obtain ⟨parts₂, s₂, m', hreads₂, hm', hR₂, hparts₂⟩ := ih (Or.inl hp) huses ha hread hm
      (fun t ht hnamed => hknown t (hreads.mem_tokens hnamed ht) hnamed) ha' hR hparts
    exact (hreads.transfer hbehind (Or.inl hp) huses hm hb (fun _ _ _ => trivial) trivial hm' hR₂
      (fun _ _ _ => trivial) hparts₂).imp fun _ _ hreads =>
        .more hreads₂ (hbehind.check hm hm' hR₂ hcheck) (hbehind.terminal_eq hm hm' hR₂ ▸ hfirst)
          hreads
  | later hreads hcheck hfirst hthrough ih =>
    have hp := hp.settles rfl
    obtain ⟨m, hm, hleads⟩ := hreads.leads ha
    have hread' := hleads.isRead hread
    obtain ⟨parts₂, s₂, m', hreads₂, hm', hR₂, hparts₂⟩ := hthrough.transfer_before hcrosses hbefore
      hp hreads (Or.inl hp) huses ha hm hread' hknown ha' hR hparts
    exact (ih (Or.inl hp) huses hm hread' hb hknown hm' hR₂ hparts₂).imp fun _ _ hreads =>
      .more hreads₂ (hbefore.check hm hm' hR₂ hcheck) (hbefore.terminal_eq hm hm' hR₂ ▸ hfirst)
        hreads
  | @resume r n p after parts s inner s' _ hcheck ih =>
    simp only [uses, mayResume, Bool.and_eq_true, Bool.not_eq_true'] at huses
    obtain ⟨inner', s₂', b', hreads', hb', hR', hinner'⟩ := ih (Or.inl (hp.settles rfl)) huses.2 ha
      hread hb (known_inner hknown) ha' hR (List.forall₂_take n hparts)
    refine ⟨_, s₂', b', .resume hreads' (hbehind.check hb hb' hR' hcheck), hb', hR',
      .cons ?_ (List.forall₂_drop n hparts)⟩
    exact Tree.Matches.node (List.rel_reverse hinner') fun hr => by rw [huses.1.1] at hr; cases hr

end Pattern

/-- **A source is parsed if it is read like one that was**, and the trees say the same. -/
theorem Tree.parse_of_readsAlike {common source source' : List Char} {R : Ahead → Ahead → Prop}
    {parts : List Tree} {a' b : Ahead}
    (hlexes : Lexes (Rule.source.body.admits Rule.source.follow) source' a')
    (h : ∀ s', s'.Sees source' a' → Rule.source.body.ReadsAlike common source source' R
      (fun _ _ => True) Rule.source.follow [] s' parts b) :
    ∃ t', Tree.parse source' = .ok t' ∧
      (Rule.source.node parts.reverse).bare common source = t'.bare common source' := by
  obtain ⟨s', hread, hs'⟩ := hlexes.read (List.suffix_refl _) .start
  obtain ⟨parts', s₂', -, hreads, -, -, hparts⟩ := h s' hs'
  rw [← Cursor.ofSource_eq] at hread
  refine ⟨_, Tree.parse_of_reads hread hreads, ?_⟩
  exact (Tree.Matches.node (List.rel_reverse hparts) fun h => by cases h).bare

end Facade
