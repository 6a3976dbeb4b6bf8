import Facade.Proofs.Grammar.Transfer

/-!
# Around other text

Two sources that differ in one stretch of text only. Before the brace that opens it their tokens
correspond, and behind the brace that closes it they are the same.

* `Position.text_ofRest`: the text between two places of a source;
* **`corresponds_before`**: tokens before the brace, as long as no literal is open there;
* **`corresponds_behind`**: tokens behind the text in which the sources differ.
-/

namespace Facade

open Scan

/-! ## Places -/

theorem Position.offset_ofRest (source rest : List Char) :
    (Position.ofRest source rest).offset = source.length - rest.length := by
  simp [ofRest, Position.start]

theorem Position.rest_unique {source u v : List Char} (hu : u <:+ source) (hv : v <:+ source)
    (h : (ofRest source u).offset = (ofRest source v).offset) : u = v := by
  have hule := hu.length_le
  have hvle := hv.length_le
  rw [offset_ofRest, offset_ofRest] at h
  exact (List.suffix_of_suffix_length_le hu hv (by omega)).eq_of_length (by omega)

@[simp] theorem Position.ofRest_self (source : List Char) : Position.ofRest source source = .start := by
  simp [ofRest, after]

theorem Cursor.ofSource_eq (source : List Char) :
    Cursor.ofSource source = ⟨source, .ofRest source source⟩ := by
  rw [Position.ofRest_self]
  rfl

/-- The text between two places, told from what is left of the source there. -/
theorem Position.text_ofRest {source u : List Char} (h : u <:+ source) (v : List Char) :
    (Extent.mk (.ofRest source u) (.ofRest source v)).text source =
      String.ofList (u.take (u.length - v.length)) := by
  obtain ⟨before, rfl⟩ := h
  have hdrop : (before ++ u).length - u.length = before.length := by simp
  have hlength : (before ++ u).length - v.length - before.length = u.length - v.length := by
    rw [List.length_append]
    omega
  rw [Extent.text, offset_ofRest, offset_ofRest, hdrop, hlength, List.drop_left]

/-! ## Before the text -/

section

variable {before y y' : List Char}

/-- What is asked of chunks that end before a place: none of their items is open. -/
def Token.IsShutBefore (source : List Char) (offset : Nat) (t : Token) : Prop :=
  ∀ k, (t.terminal, k) ∈ chunkTerminals → t.extent.stop.offset ≤ offset →
    ∀ s ∈ itemsOf k (source.drop t.extent.start.offset) (source.drop t.extent.start.offset),
      ¬ IsOpen (source.length - offset) s

/-- No string, character or verbatim literal is open in front of this place. -/
def Tree.IsShutBefore (source : List Char) (offset : Nat) (t : Tree) : Prop :=
  ∀ u ∈ t.tokens, u.IsShutBefore source offset

instance (source : List Char) (offset : Nat) (u : Token) : Decidable (u.IsShutBefore source offset) :=
  decidable_of_iff (∀ e ∈ chunkTerminals, u.terminal = e.1 → u.extent.stop.offset ≤ offset →
    ∀ s ∈ itemsOf e.2 (source.drop u.extent.start.offset) (source.drop u.extent.start.offset),
      ¬ IsOpen (source.length - offset) s)
    ⟨fun h k hk => h (u.terminal, k) hk rfl, fun h e he hu => h e.2 (by rwa [hu])⟩

instance (source : List Char) (offset : Nat) (t : Tree) : Decidable (t.IsShutBefore source offset) :=
  inferInstanceAs (Decidable (∀ u ∈ t.tokens, u.IsShutBefore source offset))

/-- Places in the text that two sources begin with. -/
def PlacedBefore (before z z' : List Char) (p p' : Position) : Prop :=
  ∃ u, u <:+ before ∧ p = .ofRest (before ++ z) (u ++ z) ∧ p' = .ofRest (before ++ z') (u ++ z')

theorem PlacedBefore.text {z z' : List Char} {p p' q q' : Position} (hp : PlacedBefore before z z' p p')
    (hq : PlacedBefore before z z' q q') :
    (Extent.mk p q).text (before ++ z) = (Extent.mk p' q').text (before ++ z') := by
  obtain ⟨u, hu, rfl, rfl⟩ := hp
  obtain ⟨v, -, rfl, rfl⟩ := hq
  have htake : ∀ z : List Char, (u ++ z).take ((u ++ z).length - (v ++ z).length) =
      u.take (u.length - v.length) := by
    intro z
    have hlength : (u ++ z).length - (v ++ z).length = u.length - v.length := by
      rw [List.length_append, List.length_append]
      omega
    rw [hlength, List.take_append_of_le_length (Nat.sub_le _ _)]
  have hsuffix : ∀ z : List Char, u ++ z <:+ before ++ z := fun z => by
    obtain ⟨w, rfl⟩ := hu
    exact ⟨w, by rw [List.append_assoc]⟩
  rw [Position.text_ofRest (hsuffix z), Position.text_ofRest (hsuffix z'), htake, htake]

/-- Tokens that come next before the brace. -/
structure ComesBefore (before y y' : List Char) (a a' : Ahead) : Prop where
  refilled : a.Refilled y y' a'
  suffix : a.word ++ a.rest <:+ before ++ '\x7b' :: y

/-- A token before the brace, or the brace, which is read whatever stands behind the brace. -/
structure Ahead.IsBefore (y : List Char) (a : Ahead) : Prop where
  firm : a.IsFirm
  shut : a.IsShut (y.length + 1)
  refilled : ∀ y', ∃ a', a.Refilled y y' a'

theorem Ahead.Leads.refilled {a b : Ahead} (h : a.Leads b)
    (hb : ∀ y', ∃ b', b.Refilled y y' b') : ∀ y', ∃ a', a.Refilled y y' a' := by
  rcases h.divides with rfl | ⟨gap, hgap⟩
  · exact hb
  · intro y'
    obtain ⟨t, w, r⟩ := a
    obtain rfl : r = gap ++ (b.word ++ b.rest) := hgap
    obtain ⟨b', hb'⟩ := hb y'
    cases hb' with
    | before => rw [← List.append_assoc, ← List.append_assoc]; exact ⟨_, .before⟩
    | brace => exact ⟨_, .before⟩

theorem ComesBefore.next {A : TerminalSet} {a a' b b' : Ahead} (h : ComesBefore before y y' a a')
    (hlexes : Lexes A a.rest b) (hb : b.Refilled y y' b') : ComesBefore before y y' b b' := by
  obtain ⟨gap, hgap⟩ := hlexes.divides
  refine ⟨hb, List.IsSuffix.trans ⟨a.word ++ gap, ?_⟩ h.suffix⟩
  rw [hgap, List.append_assoc]

theorem not_refilled_behind {A : TerminalSet} {b b' : Ahead} (hlexes : Lexes A y b) :
    ¬ b.Refilled y y' b' := by
  obtain ⟨gap, hgap⟩ := hlexes.divides
  intro hb
  have hlength := congrArg List.length hgap
  cases hb <;> simp only [List.length_append, List.length_cons] at hlength <;> omega

theorem ComesBefore.placed {t : Terminal} {w u : List Char} {a' : Ahead}
    (h : ComesBefore before y y' ⟨t, w, u ++ '\x7b' :: y⟩ a') : w ++ u <:+ before := by
  obtain ⟨z, hz⟩ := h.suffix
  refine ⟨z, ?_⟩
  simp only [← List.append_assoc] at hz ⊢
  exact List.append_cancel_right hz

theorem Token.IsShutBefore.isShut {source z : List Char} {a : Ahead} (ha : a.word ++ a.rest <:+ source)
    (hz : ∀ k, (a.terminal, k) ∈ chunkTerminals → z <:+ a.rest)
    (h : (a.token source).IsShutBefore source (source.length - z.length)) : a.IsShut z.length := by
  intro k hk
  have hle := (hz k hk).length_le
  have hsource := ha.length_le
  rw [List.length_append] at hsource
  have hstart : source.drop (Position.ofRest source (a.word ++ a.rest)).offset = a.word ++ a.rest := by
    obtain ⟨z, rfl⟩ := ha
    have hlength : (z ++ (a.word ++ a.rest)).length - (a.word ++ a.rest).length = z.length := by
      rw [List.length_append, Nat.add_sub_cancel]
    rw [Position.offset_ofRest, hlength, List.drop_left]
  have hleft : source.length - (source.length - z.length) = z.length := by omega
  have hshut := h k hk
  simp only [Ahead.token, hstart, hleft] at hshut
  exact hshut (by rw [Position.offset_ofRest]; omega)

/-- What comes next before a pattern has no open item if neither what comes next behind it has one nor any
token of the tree. -/
theorem Pattern.Reads.isShut {source z : List Char} {p : Pattern} {after : TerminalSet}
    {parts parts' : List Tree} {s s' : Parser} {a b : Ahead} (h : p.Reads after parts s parts' s')
    (ha : s.Sees source a) (hb : s'.Sees source b)
    (hz : ∀ k, (a.terminal, k) ∈ chunkTerminals → z <:+ a.rest)
    (hknown : ∀ t ∈ Tree.tokensAll parts', t.terminal.isNamed →
      t.IsShutBefore source (source.length - z.length)) (hshut : b.IsShut z.length) :
    a.IsShut z.length := by
  intro k hk
  have hchunks : ∀ e ∈ chunkTerminals, e.1.isNamed := by decide
  have hnamed : a.terminal.isNamed := hchunks _ hk
  rcases h.keeps_next ha hb hnamed with rfl | hmem
  · exact hshut k hk
  · rcases ha with ⟨rfl, -⟩ | ⟨hsuffix, -, -⟩
    · cases hnamed
    · exact Token.IsShutBefore.isShut hsuffix hz (hknown _ hmem hnamed) k hk

/-- **Before the brace the tokens of both sources correspond**, as long as no chunk has an open item. -/
theorem corresponds_before : Corresponds (before ++ '\x7b' :: y) (before ++ '\x7b' :: y')
    (Ahead.IsBefore y) (Token.IsShutBefore (before ++ '\x7b' :: y) before.length)
    (ComesBefore before y y') (PlacedBefore before ('\x7b' :: y) ('\x7b' :: y')) where
  terminal h := by cases h.refilled <;> rfl
  step {A a a' b} h hlexes hgood := by
    obtain ⟨b', hb'⟩ := hgood.refilled y'
    have hnext := h.next hlexes hb'
    cases h.refilled with
    | brace => exact absurd hb' (not_refilled_behind hlexes)
    | @before t w u =>
      have hplaced := h.placed
      refine ⟨⟨b', hnext, hlexes.refill rfl hb' hgood.firm hgood.shut⟩, ?_, ?_, rfl⟩
      · exact ⟨w ++ u, hplaced, by rw [List.append_assoc], by rw [List.append_assoc]⟩
      · exact ⟨u, List.IsSuffix.trans (List.suffix_append w u) hplaced, rfl, rfl⟩
  text := PlacedBefore.text
  back {p after parts s parts' s' a b} h hfirm ha hb hknown hgood := by
    have hrefilled := (h.leads_to ha hb).refilled hgood.refilled
    have hlength : (before ++ '\x7b' :: y).length - ('\x7b' :: y).length = before.length := by simp
    refine ⟨hfirm hgood.firm, h.isShut ha hb (z := '\x7b' :: y) (fun k hk => ?_)
      (by rwa [hlength]) hgood.shut, hrefilled⟩
    obtain ⟨a', ha'⟩ := hrefilled y
    cases ha' with
    | @before t w u => exact List.suffix_append u _
    | brace =>
      have hno : ∀ e ∈ chunkTerminals, e.1 ≠ .leftBrace := by decide
      exact absurd rfl (hno _ hk)

end

/-! ## Behind the text -/

/-- Places behind the text. -/
def PlacedBehind (source source' behind : List Char) (p p' : Position) : Prop :=
  ∃ u, u <:+ behind ∧ p = .ofRest source u ∧ p' = .ofRest source' u

/-- Tokens that come next behind the text. -/
def ComesBehind (behind : List Char) (a a' : Ahead) : Prop := a = a' ∧ a.word ++ a.rest <:+ behind

/-- **Behind the text in which the sources differ the tokens are the same.** -/
theorem corresponds_behind {source source' behind : List Char} (h : behind <:+ source)
    (h' : behind <:+ source') : Corresponds source source' (fun _ => True) (fun _ => True)
    (ComesBehind behind) (PlacedBehind source source' behind) where
  terminal h := by rw [h.1]
  step {A a a' b} h hlexes _ := by
    obtain ⟨rfl, hsuffix⟩ := h
    have hrest : a.rest <:+ behind := List.IsSuffix.trans (List.suffix_append _ _) hsuffix
    obtain ⟨gap, hgap⟩ := hlexes.divides
    refine ⟨⟨b, ⟨rfl, List.IsSuffix.trans ⟨gap, hgap.symm⟩ hrest⟩, hlexes⟩,
      ⟨_, hsuffix, rfl, rfl⟩, ⟨_, hrest, rfl, rfl⟩, rfl⟩
  text {p p' q q'} hp hq := by
    obtain ⟨u, hu, rfl, rfl⟩ := hp
    obtain ⟨v, -, rfl, rfl⟩ := hq
    rw [Position.text_ofRest (List.IsSuffix.trans hu h),
      Position.text_ofRest (List.IsSuffix.trans hu h')]
  back _ _ _ _ _ _ := trivial

end Facade
