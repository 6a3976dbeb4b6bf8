import Facade.Proofs.Grammar.Contexts
import Facade.Proofs.Grammar.Nesting
import Facade.Proofs.Text.Rows
import Facade.Syntax.OfTree

/-!
# Where phrases stand

The tokens of a source are read one behind the other. So the parts of a phrase stand in a row, and the
phrase covers them.

* `Tree.stretch`, `Tree.Laid`: the stretch of a tree, and trees that cover a row of parts each;
* `Tree.laid_node`: a phrase with parts in a row;
* `Pattern.isFed`, `Pattern.isFed_body`: no phrase is taken up again before it has a part;
* `Parser.IsBehind`: what a parser has not taken lies behind a place;
* **`Pattern.Reads.row`**: reading a pattern leaves parts in a row;
* **`Tree.laid_of_parse`**: so the tree of a source that is not empty is laid.
-/

namespace Facade

namespace Tree

/-- The lines and columns of a tree that covers any. -/
def stretch (t : Tree) : Span := t.span.getD default

/-- The tree covers a stretch, and the parts of each phrase stand in a row in the stretch of it. -/
inductive Laid : Tree → Prop
  | leaf {t : Token} : t.extent.span.start < t.extent.span.stop → Laid (.leaf t)
  | node {r children} {e : Extent} : (∀ c ∈ children, Laid c) → e.span.start < e.span.stop →
      Row e.span.start e.span.stop (children.map stretch) → Laid (.node r children (some e))

theorem Laid.exists_extent {t : Tree} (h : t.Laid) :
    ∃ e, t.extent? = some e ∧ t.stretch = e.span ∧ e.span.start < e.span.stop := by
  cases h with
  | leaf hproper => exact ⟨_, rfl, rfl, hproper⟩
  | node _ hproper _ => exact ⟨_, rfl, rfl, hproper⟩

theorem Laid.span_eq {t : Tree} (h : t.Laid) : t.span = some t.stretch := by
  obtain ⟨e, he, hstretch, -⟩ := h.exists_extent
  rw [span, he, hstretch]
  rfl

theorem Laid.proper {t : Tree} (h : t.Laid) : t.stretch.start < t.stretch.stop := by
  obtain ⟨e, -, hstretch, hproper⟩ := h.exists_extent
  rwa [hstretch]

theorem exists_cover {parts : List Tree} {lo hi : Place} (hparts : ∀ t ∈ parts, t.Laid)
    (hrow : Row lo hi (parts.map stretch)) (hne : parts ≠ []) : ∃ e, cover parts = some e ∧
      lo ≤ e.span.start ∧ e.span.stop ≤ hi ∧ e.span.start < e.span.stop ∧
        Row e.span.start e.span.stop (parts.map stretch) := by
  obtain ⟨first, hfirst⟩ := Option.isSome_iff_exists.mp (List.isSome_head?.mpr hne)
  obtain ⟨last, hlast⟩ := Option.isSome_iff_exists.mp (List.getLast?_isSome.mpr hne)
  obtain ⟨e, he, hstart, hproper⟩ := (hparts first (List.mem_of_head? hfirst)).exists_extent
  obtain ⟨e', he', hstop, -⟩ := (hparts last (List.mem_of_getLast? hlast)).exists_extent
  have hcover : cover parts = some (e.join e') := by
    rw [cover, hfirst, hlast]
    simp only [Option.bind_eq_bind, Option.bind_some, he, he']
    rfl
  have hfirst' : (parts.map stretch).head? = some first.stretch := by
    rw [List.head?_map, hfirst]
    rfl
  have hlast' : (parts.map stretch).getLast? = some last.stretch := by
    rw [List.getLast?_map, hlast]
    rfl
  obtain ⟨hlo, hhi, hinner⟩ := hrow.around hfirst' hlast'
  rw [hstart] at hlo hinner
  rw [hstop] at hhi hinner
  have hmem : first.stretch ∈ parts.map stretch := List.mem_map_of_mem (List.mem_of_head? hfirst)
  rw [hstart] at hmem
  exact ⟨_, hcover, hlo, hhi, hproper.trans_le (hinner.bounds hmem).2.2, hinner⟩

/-- **A phrase with parts in a row covers them**, the dropped ones among them. -/
theorem laid_node {r : Rule} {parts : List Tree} {lo hi : Place} (hparts : ∀ t ∈ parts, t.Laid)
    (hrow : Row lo hi (parts.map stretch)) (hne : parts ≠ []) :
    (r.node parts).Laid ∧ lo ≤ (r.node parts).stretch.start ∧ (r.node parts).stretch.stop ≤ hi := by
  obtain ⟨e, hcover, hlo, hhi, hproper, hinner⟩ := exists_cover hparts hrow hne
  rw [Rule.node, hcover]
  refine ⟨.node (fun c hc => hparts c (List.mem_filter.mp hc).1) hproper ?_, hlo, hhi⟩
  exact hinner.sublist (List.filter_sublist.map stretch)

end Tree

/-! ## Taking a phrase up again -/

namespace Pattern

/-- Whenever a phrase is taken up again it gets a part: one that is there before the pattern if `fed`, or
one of the pattern. -/
def isFed (fed : Bool) : Pattern → Bool
  | token _ | rule _ => true
  | seq p q => p.isFed fed && q.isFed (fed || !p.isNullable)
  | alt p q => p.isFed fed && q.isFed fed
  | opt p | plus _ p => p.isFed fed
  | resume _ n p => (fed && n != 0 || !p.isNullable) && p.isFed (fed && n != 0)

/-- **The grammar takes up only phrases with a part.** -/
theorem isFed_body (r : Rule) : r.body.isFed false := by
  cases r <;> decide

theorem isNullable_body {r : Rule} (hr : r ≠ .source) : r.body.isNullable = false := by
  revert hr
  cases r <;> decide

theorem Reads.ne_nil {p : Pattern} {after : TerminalSet} {parts parts' : List Tree} {s s' : Parser}
    (h : p.Reads after parts s parts' s') (hfits : p.fits after)
    (hp : parts ≠ [] ∨ p.isNullable = false) : parts' ≠ [] := by
  induction h with
  | token | rule | resume => exact List.cons_ne_nil _ _
  | @seq p q after parts s parts₁ s₁ parts₂ s₂ _ _ ih ih' =>
    simp only [fits, Bool.and_eq_true] at hfits
    by_cases hleft : parts ≠ [] ∨ p.isNullable = false
    · exact ih' hfits.2 (Or.inl (ih hfits.1 hleft))
    · refine ih' hfits.2 (Or.inr ?_)
      simp only [isNullable, Bool.and_eq_false_iff] at hp
      rw [not_or] at hleft
      exact (hp.resolve_left hleft.1).resolve_left hleft.2
  | left _ _ ih =>
    simp only [fits, Bool.and_eq_true] at hfits
    refine ih hfits.1 (hp.imp_right fun h => ?_)
    simp only [isNullable, Bool.or_eq_false_iff] at h
    exact h.1
  | right _ _ ih =>
    simp only [fits, Bool.and_eq_true] at hfits
    refine ih hfits.2 (hp.imp_right fun h => ?_)
    simp only [isNullable, Bool.or_eq_false_iff] at h
    exact h.2
  | none => exact hp.resolve_right (by simp [isNullable])
  | some _ _ ih => exact ih hfits (Or.inl (hp.resolve_right (by simp [isNullable])))
  | once _ _ _ ih =>
    simp only [fits, Bool.and_eq_true, Bool.not_eq_true'] at hfits
    exact ih hfits.2 (Or.inr hfits.1.1.1)
  | more _ _ _ _ ih ih' =>
    refine ih' hfits (Or.inl (ih ?_ ?_))
    · simp only [fits, Bool.and_eq_true] at hfits
      exact hfits.2
    · simp only [fits, Bool.and_eq_true, Bool.not_eq_true'] at hfits
      exact Or.inr hfits.1.1.1

end Pattern

/-! ## Parts in a row -/

/-- What the parser has not taken lies behind this place. -/
def Parser.IsBehind (s : Parser) (p : Place) : Prop :=
  ∃ c admitted, s.IsAt c admitted ∧ p ≤ c.position.place

theorem Cursor.Gap.place_le {admitted : TerminalSet} {c c' : Cursor} (h : Gap admitted c c') :
    c.position.place ≤ c'.position.place := by
  induction h with
  | none => exact le_refl _
  | @some c s _ _ _ _ ih => exact (Position.place_le_after c.position s.1).trans ih

theorem Parser.IsAt.extent_lookahead {s : Parser} {c : Cursor} {admitted : TerminalSet}
    (h : s.IsAt c admitted) {t : Token} (ht : s.lookahead = some t) :
    c.position.place ≤ t.extent.span.start ∧ t.extent.span.start < t.extent.span.stop ∧
      s.cursor.position.place = t.extent.span.stop := by
  obtain ⟨c', kind, split, hgap, hstands, rfl, hcursor⟩ := Cursor.exists_gap (h.next ht)
  rw [hcursor]
  exact ⟨hgap.place_le, Position.place_lt_after _ hstands.ne_nil, rfl⟩

namespace Pattern

/-- **Reading a pattern leaves parts in a row** if the parts before it stand in one. -/
theorem Reads.row {p : Pattern} {after : TerminalSet} {parts parts' : List Tree} {s s' : Parser}
    (h : p.Reads after parts s parts' s') (hfits : p.fits after) {fed : Bool} (hp : p.isFed fed)
    (hfed : fed = true → parts ≠ []) {lo hi : Place} (hparts : ∀ t ∈ parts, t.Laid)
    (hrow : Row lo hi (parts.reverse.map Tree.stretch)) (hs : s.IsBehind hi) :
    (∀ t ∈ parts', t.Laid) ∧
      ∃ hi', Row lo hi' (parts'.reverse.map Tree.stretch) ∧ s'.IsBehind hi' := by
  -- a phrase is put behind the parts before it
  have hphrase {r : Rule} {front inner : List Tree} {lo mid hi : Place} {s' : Parser}
      (hfront : ∀ t ∈ front, t.Laid) (hbefore : Row lo mid (front.reverse.map Tree.stretch))
      (hinner : ∀ t ∈ inner, t.Laid) (hbehind : Row mid hi (inner.reverse.map Tree.stretch))
      (hne : inner ≠ []) (hs' : s'.IsBehind hi) :
      (∀ t ∈ r.node inner.reverse :: front, t.Laid) ∧
        ∃ hi', Row lo hi' ((r.node inner.reverse :: front).reverse.map Tree.stretch) ∧
          s'.IsBehind hi' := by
    obtain ⟨hnode, hlo, hhi⟩ := Tree.laid_node (r := r)
      (fun t ht => hinner t (List.mem_reverse.mp ht)) hbehind (by simpa using hne)
    refine ⟨List.forall_mem_cons.mpr ⟨hnode, hfront⟩, hi, ?_, hs'⟩
    rw [List.reverse_cons, List.map_append]
    exact hbefore.append (.singleton hlo hnode.proper hhi)
  induction h generalizing fed lo hi with
  | @token t after parts s found s' htake =>
    obtain ⟨hlookahead, -, hat⟩ := Parser.take_eq_ok htake
    obtain ⟨c, admitted, hat', hle⟩ := hs
    obtain ⟨hstart, hproper, hstop⟩ := hat'.extent_lookahead hlookahead
    refine ⟨List.forall_mem_cons.mpr ⟨.leaf hproper, hparts⟩, found.extent.span.stop, ?_, ?_⟩
    · rw [List.reverse_cons, List.map_append]
      exact hrow.append (.singleton (hle.trans hstart) hproper (le_refl _))
    · exact ⟨_, _, hat, hstop.ge⟩
  | @rule r after parts s inner s' hinner _ ih =>
    simp only [fits, Bool.and_eq_true, bne_iff_ne, ne_eq] at hfits
    obtain ⟨hlaid, hi', hrow', hs'⟩ := ih (fits_body r) (isFed_body r) (fun h => by cases h)
      (fun t ht => absurd ht List.not_mem_nil) (.nil (le_refl hi)) hs
    exact hphrase hparts hrow hlaid hrow'
      (hinner.ne_nil (fits_body r) (Or.inr (isNullable_body hfits.1))) hs'
  | @seq p q after parts s parts₁ s₁ parts₂ s₂ hreads _ ih ih' =>
    simp only [fits, Bool.and_eq_true] at hfits
    simp only [isFed, Bool.and_eq_true] at hp
    obtain ⟨hlaid, hi₁, hrow₁, hs₁⟩ := ih hfits.1 hp.1 hfed hparts hrow hs
    refine ih' hfits.2 hp.2 (fun h => hreads.ne_nil hfits.1 ?_) hlaid hrow₁ hs₁
    rw [Bool.or_eq_true, Bool.not_eq_true'] at h
    exact h.imp_left hfed
  | left _ _ ih =>
    simp only [fits, Bool.and_eq_true] at hfits
    simp only [isFed, Bool.and_eq_true] at hp
    exact ih hfits.1 hp.1 hfed hparts hrow hs
  | right _ _ ih =>
    simp only [fits, Bool.and_eq_true] at hfits
    simp only [isFed, Bool.and_eq_true] at hp
    exact ih hfits.2 hp.2 hfed hparts hrow hs
  | none => exact ⟨hparts, hi, hrow, hs⟩
  | some _ _ ih => exact ih hfits hp hfed hparts hrow hs
  | once _ _ _ ih =>
    simp only [fits, Bool.and_eq_true] at hfits
    exact ih hfits.2 hp hfed hparts hrow hs
  | @more p repeated after parts s parts₁ s₁ parts₂ s₂ hreads _ _ _ ih ih' =>
    have hrepeated : p.isNullable = false ∧ p.fits repeated := by
      simp only [fits, Bool.and_eq_true, Bool.not_eq_true'] at hfits
      exact ⟨hfits.1.1.1, hfits.2⟩
    obtain ⟨hlaid, hi₁, hrow₁, hs₁⟩ := ih hrepeated.2 hp hfed hparts hrow hs
    exact ih' hfits hp (fun _ => hreads.ne_nil hrepeated.2 (Or.inr hrepeated.1)) hlaid hrow₁ hs₁
  | @resume r n p after parts s inner s' hreads _ ih =>
    simp only [fits, Bool.and_eq_true] at hfits
    simp only [isFed, Bool.and_eq_true] at hp
    -- the parts that are taken up stand behind the other ones
    have hsplit : parts.reverse = (parts.drop n).reverse ++ (parts.take n).reverse := by
      rw [← List.reverse_append, List.take_append_drop]
    rw [hsplit, List.map_append] at hrow
    obtain ⟨mid, hbefore, hbehind⟩ := hrow.split
    have htaken : (fed && n != 0) = true → parts.take n ≠ [] := fun h => by
      simp only [Bool.and_eq_true, bne_iff_ne, ne_eq] at h
      simp [hfed h.1, h.2]
    obtain ⟨hlaid, hi', hrow', hs'⟩ := ih hfits.2 hp.2 htaken
      (fun t ht => hparts t (List.mem_of_mem_take ht)) hbehind hs
    refine hphrase (fun t ht => hparts t (List.mem_of_mem_drop ht)) hbefore hlaid hrow'
      (hreads.ne_nil hfits.2 ?_) hs'
    rw [Bool.or_eq_true, Bool.not_eq_true'] at hp
    exact hp.1.imp_left htaken

end Pattern

/-- **The tree of a source is laid**, unless nothing is declared in the source. -/
theorem Tree.laid_of_parse {source : List Char} {t : Tree} (h : Tree.parse source = .ok t) :
    t.Laid ∨ t = .node .source [] none := by
  simp only [Tree.parse, Pattern.bind_eq_ok] at h
  obtain ⟨s, hread, ⟨parts, s'⟩, hparse, h⟩ := h
  cases h
  have hs : s.IsBehind Position.start.place := ⟨_, _, ⟨_, hread⟩, le_refl _⟩
  obtain ⟨hlaid, hi, hrow, -⟩ := (Pattern.reads_of_parse hparse).row (Pattern.fits_body .source)
    (Pattern.isFed_body .source) (fun h => by cases h) (fun t ht => absurd ht List.not_mem_nil)
    (.nil (le_refl _)) hs
  cases parts with
  | nil => exact Or.inr rfl
  | cons t parts =>
    exact Or.inl (laid_node (fun t ht => hlaid t (List.mem_reverse.mp ht)) hrow (by simp)).1

end Facade
