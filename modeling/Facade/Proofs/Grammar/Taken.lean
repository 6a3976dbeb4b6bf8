import Facade.Proofs.Grammar.Filler
import Facade.Proofs.Grammar.Laid
import Facade.Proofs.Grammar.Through

/-!
# The tokens of a source

A tree drops tokens that have one spelling. All tokens of a source are those that its parse takes, and each
of them is taken on a way through the phrases of the tree.

* `Pattern.taken`, `parsedTokens`: the tokens that a parse takes;
* **`Pattern.through_of_parse`**: the way to such a token;
* `Rule.isOpaque`, `Tree.places`: the opaque regions, and where they are in a tree;
* `Pattern.clears`, `Pattern.clears_body`: behind a token outside of them no chunk is admitted, unless an
  expression comes;
* **`Pattern.Through.outside`**, `Tree.through_of_parse`: the way to a token that is in none of them.
-/

namespace Facade

open Scan

namespace Pattern

/-- The tokens that are taken where a pattern is read after which one of `after` must come. -/
def taken : Nat → Pattern → TerminalSet → Parser → Except SyntaxError (List Token × Parser)
  | 0, _, _, s => .error ⟨.tooDeep, s.last.line, s.last.column⟩
  | fuel + 1, p, after, s =>
    match p with
    | token t => do
      let (found, s) ← s.take t after
      return ([found], s)
    | rule r => do
      let (ts, s) ← taken fuel r.body r.follow s
      s.check after
      return (ts, s)
    | seq p q => do
      let (ts, s) ← taken fuel p (q.admits after) s
      let (us, s) ← taken fuel q after s
      return (ts ++ us, s)
    | alt p q => if s.terminal ∈ p.first then taken fuel p after s else taken fuel q after s
    | opt p => if s.terminal ∈ p.first then taken fuel p after s else .ok ([], s)
    | plus repeated p => do
      let (ts, s) ← taken fuel p repeated s
      s.check (p.first ∪ after)
      if s.terminal ∈ p.first then
        let (us, s) ← taken fuel (plus repeated p) after s
        return (ts ++ us, s)
      else return (ts, s)
    | resume r _ p => do
      let (ts, s) ← taken fuel p r.follow s
      s.check after
      return (ts, s)

/-- What is read is a token, and it is this one. -/
def TakesToken (c : Token) (p : Pattern) (_ : TerminalSet) (_ : List Tree) (s : Parser) (_ : List Tree)
    (_ : Parser) : Prop :=
  (∃ t, p = token t) ∧ s.lookahead = some c

variable {source : List Char} {p : Pattern} {after : TerminalSet} {parts parts' : List Tree}
  {s s' : Parser} {c : Token}

/-- **Each token that is taken is read on a way through phrases.** -/
theorem through_of_parse {depth : Nat} (h : p.parse depth after parts s = .ok (parts', s')) :
    ∃ ts, p.taken depth after s = .ok (ts, s') ∧
      ∀ c ∈ ts, Through (fun _ => true) (TakesToken c) p after parts s parts' s' := by
  induction depth generalizing p after parts s parts' s' with
  | zero => simp [parse] at h
  | succ depth ih =>
    cases p with
    | token t =>
      simp only [parse, bind_eq_ok] at h
      obtain ⟨⟨found, s₁⟩, htake, h⟩ := h
      cases h
      refine ⟨[found], by simp [taken, htake, Bind.bind, Except.bind, pure, Except.pure], ?_⟩
      intro c hc
      obtain rfl := List.mem_singleton.mp hc
      exact .here (.token htake) ⟨⟨t, rfl⟩, (Parser.take_eq_ok htake).1⟩
    | rule r =>
      simp only [parse, bind_eq_ok] at h
      obtain ⟨⟨inner, s₁⟩, hinner, ⟨⟩, hcheck, h⟩ := h
      cases h
      obtain ⟨ts, hts, hthrough⟩ := ih hinner
      refine ⟨ts, ?_, fun c hc => .rule rfl (hthrough c hc) hcheck⟩
      simp only [taken, bind_eq_ok]
      exact ⟨_, hts, _, hcheck, rfl⟩
    | seq p q =>
      simp only [parse, bind_eq_ok] at h
      obtain ⟨⟨parts₁, s₁⟩, hp, hq⟩ := h
      obtain ⟨ts, hts, hthrough⟩ := ih hp
      obtain ⟨us, hus, hthrough'⟩ := ih hq
      refine ⟨ts ++ us, ?_, fun c hc => ?_⟩
      · simp only [taken, bind_eq_ok]
        exact ⟨_, hts, _, hus, rfl⟩
      · rcases List.mem_append.mp hc with hc | hc
        · exact .first (hthrough c hc) (reads_of_parse hq)
        · exact .second (reads_of_parse hp) (hthrough' c hc)
    | alt p q =>
      simp only [parse] at h
      split_ifs at h with hfirst
      · obtain ⟨ts, hts, hthrough⟩ := ih h
        exact ⟨ts, by rw [taken, if_pos hfirst, hts], fun c hc => .left hfirst (hthrough c hc)⟩
      · obtain ⟨ts, hts, hthrough⟩ := ih h
        exact ⟨ts, by rw [taken, if_neg hfirst, hts], fun c hc => .right hfirst (hthrough c hc)⟩
    | opt p =>
      simp only [parse] at h
      split_ifs at h with hfirst
      · obtain ⟨ts, hts, hthrough⟩ := ih h
        exact ⟨ts, by rw [taken, if_pos hfirst, hts], fun c hc => .some hfirst (hthrough c hc)⟩
      · cases h
        exact ⟨[], by rw [taken, if_neg hfirst], fun c hc => absurd hc List.not_mem_nil⟩
    | plus repeated p =>
      simp only [parse, bind_eq_ok] at h
      obtain ⟨⟨parts₁, s₁⟩, hp, ⟨⟩, hcheck, h⟩ := h
      obtain ⟨ts, hts, hthrough⟩ := ih hp
      split_ifs at h with hfirst
      · obtain ⟨us, hus, hthrough'⟩ := ih h
        refine ⟨ts ++ us, ?_, fun c hc => ?_⟩
        · simp only [taken, bind_eq_ok]
          refine ⟨_, hts, _, hcheck, ?_⟩
          rw [if_pos hfirst]
          exact bind_eq_ok.mpr ⟨_, hus, rfl⟩
        · rcases List.mem_append.mp hc with hc | hc
          · exact .now (hthrough c hc) hcheck hfirst (reads_of_parse h)
          · exact .later (reads_of_parse hp) hcheck hfirst (hthrough' c hc)
      · cases h
        refine ⟨ts, ?_, fun c hc => .once (hthrough c hc) hcheck hfirst⟩
        simp only [taken, bind_eq_ok]
        exact ⟨_, hts, _, hcheck, by rw [if_neg hfirst]; rfl⟩
    | resume r n p =>
      simp only [parse, bind_eq_ok] at h
      obtain ⟨⟨inner, s₁⟩, hinner, ⟨⟩, hcheck, h⟩ := h
      cases h
      obtain ⟨ts, hts, hthrough⟩ := ih hinner
      refine ⟨ts, ?_, fun c hc => .resume (hthrough c hc) hcheck⟩
      simp only [taken, bind_eq_ok]
      exact ⟨_, hts, _, hcheck, rfl⟩

end Pattern

/-- The tokens of a source, those that its tree drops among them. -/
def parsedTokens (source : List Char) : Except SyntaxError (List Token) := do
  let expected := Rule.source.body.admits Rule.source.follow
  let s ← Parser.read (Cursor.ofSource source) .start expected
  let (ts, _) ← Pattern.taken (Tree.nestingBound source.length) Rule.source.body Rule.source.follow s
  return ts

/-! ## Opaque regions -/

/-- The phrases in which text is taken as it stands. -/
def Rule.isOpaque : Rule → Bool
  | attributeSection | attributeBrackets | argumentGroup | nestedArguments | defaultValue
  | defaultArguments | expression | expressionBlock | block | nestedBlock => true
  | _ => false

namespace Tree

variable (which : Rule → Bool)

mutual

/-- The places of certain phrases in a tree. -/
def places : Tree → List Extent
  | leaf _ => []
  | node r children extent => (if which r then extent.toList else []) ++ placesAll children

/-- The places of certain phrases in trees. -/
def placesAll : List Tree → List Extent
  | [] => []
  | t :: ts => places t ++ placesAll ts

end

variable {which} {e : Extent} {r : Rule} {parts : List Tree}

theorem mem_placesAll : e ∈ placesAll which parts ↔ ∃ u ∈ parts, e ∈ u.places which := by
  induction parts with
  | nil => simp [placesAll]
  | cons u parts ih => simp [placesAll, ih]

theorem mem_placesAll_cons {u : Tree} :
    e ∈ placesAll which (u :: parts) ↔ e ∈ u.places which ∨ e ∈ placesAll which parts :=
  List.mem_append

theorem mem_places_node (h : e ∈ placesAll which parts) (r : Rule) :
    e ∈ (r.node parts.reverse).places which := by
  obtain ⟨u, hu, he⟩ := mem_placesAll.mp h
  refine List.mem_append_right _ (mem_placesAll.mpr ⟨u, ?_, he⟩)
  refine List.mem_filter.mpr ⟨List.mem_reverse.mpr hu, ?_⟩
  cases u with
  | leaf => cases he
  | node => rfl

theorem mem_places_self (hr : which r) (he : cover parts = some e) : e ∈ (r.node parts).places which := by
  refine List.mem_append_left _ ?_
  rw [if_pos hr, he]
  exact List.mem_singleton_self e

end Tree

namespace Pattern

variable {which inside : Rule → Bool} {e : Extent} {p : Pattern} {after : TerminalSet}
  {parts parts' : List Tree} {s s' : Parser} {c : Token}

theorem Reads.mem_places (h : p.Reads after parts s parts' s') (he : e ∈ Tree.placesAll which parts) :
    e ∈ Tree.placesAll which parts' := by
  induction h with
  | token => exact Tree.mem_placesAll_cons.mpr (Or.inr he)
  | rule => exact Tree.mem_placesAll_cons.mpr (Or.inr he)
  | seq _ _ ih ih' => exact ih' (ih he)
  | left _ _ ih => exact ih he
  | right _ _ ih => exact ih he
  | none => exact he
  | some _ _ ih => exact ih he
  | once _ _ _ ih => exact ih he
  | more _ _ _ _ ih ih' => exact ih' (ih he)
  | @resume r n p after parts s inner s' _ _ ih =>
    rw [← List.take_append_drop n parts, Tree.mem_placesAll] at he
    obtain ⟨u, hu, he⟩ := he
    rcases List.mem_append.mp hu with hu | hu
    · exact Tree.mem_placesAll_cons.mpr
        (Or.inl (Tree.mem_places_node (ih (Tree.mem_placesAll.mpr ⟨u, hu, he⟩)) r))
    · exact Tree.mem_placesAll_cons.mpr (Or.inr (Tree.mem_placesAll.mpr ⟨u, hu, he⟩))

theorem isPlain_of_uses {occurs : Rule → Bool} (h : p.uses occurs fun _ => false) : p.isPlain := by
  induction p with
  | token | rule => rfl
  | seq p q ih ih' | alt p q ih ih' =>
    have h := (Bool.and_eq_true _ _).mp h
    exact (Bool.and_eq_true _ _).mpr ⟨ih h.1, ih' h.2⟩
  | opt p ih | plus _ p ih => exact ih h
  | resume => cases h

theorem isOpaque_uses : ∀ r : Rule, r.isOpaque → r.body.uses Rule.isOpaque fun _ => false := by
  intro r
  cases r <;> decide

theorem Reads.exists_isAt (h : p.Reads after parts s parts' s') (hs : ∃ c A, s.IsAt c A) :
    ∃ c A, s'.IsAt c A := by
  induction h with
  | token htake =>
    obtain ⟨-, -, hat⟩ := Parser.take_eq_ok htake
    exact ⟨_, _, hat⟩
  | rule _ _ ih => exact ih hs
  | seq _ _ ih ih' => exact ih' (ih hs)
  | left _ _ ih => exact ih hs
  | right _ _ ih => exact ih hs
  | none => exact hs
  | some _ _ ih => exact ih hs
  | once _ _ _ ih => exact ih hs
  | more _ _ _ _ ih ih' => exact ih' (ih hs)
  | resume _ _ ih => exact ih hs

theorem Reads.exists_cover {r : Rule} {inner : List Tree} (h : r.body.Reads r.follow [] s inner s')
    (hs : ∃ c A, s.IsAt c A) (hne : inner ≠ []) :
    ∃ e, Tree.cover inner.reverse = .some e ∧ ∀ u ∈ inner, u.stretch.Within e.span := by
  obtain ⟨c, A, hat⟩ := hs
  obtain ⟨hlaid, hi, hrow, -⟩ := h.row (fits_body r) (isFed_body r) (fun h => by cases h)
    (fun t ht => absurd ht List.not_mem_nil) (.nil (le_refl _)) ⟨c, A, hat, le_refl _⟩
  obtain ⟨e, he, -, -, -, hinner⟩ := Tree.exists_cover (fun t ht => hlaid t (List.mem_reverse.mp ht))
    hrow (List.reverse_ne_nil_iff.mpr hne)
  refine ⟨e, he, fun u hu => ?_⟩
  have hbounds := hinner.bounds (List.mem_map_of_mem (List.mem_reverse.mpr hu))
  exact ⟨hbounds.1, hbounds.2.2⟩

theorem Through.exists_part (h : Through inside (TakesToken c) p after parts s parts' s')
    (huses : p.uses Rule.isOpaque fun _ => false) (hs : ∃ c A, s.IsAt c A) :
    c.extent.span.start < c.extent.span.stop ∧
      ∃ new u, parts' = new ++ parts ∧ u ∈ new ∧ c.extent.span.Within u.stretch := by
  induction h with
  | here hreads hhere =>
    obtain ⟨⟨t, rfl⟩, hlookahead⟩ := hhere
    obtain ⟨_, _, hat⟩ := hs
    obtain ⟨-, hproper, -⟩ := hat.extent_lookahead hlookahead
    cases hreads with
    | token htake =>
      obtain rfl := Option.some.inj (hlookahead.symm.trans (Parser.take_eq_ok htake).1)
      exact ⟨hproper, [.leaf c], _, rfl, List.mem_singleton_self _, le_refl _, le_refl _⟩
  | @rule r after parts s inner s' _ hthrough _ ih =>
    obtain ⟨hproper, new, u, hnew, hu, hwithin⟩ := ih (isOpaque_uses r huses) hs
    rw [List.append_nil] at hnew
    obtain ⟨e, he, hcover⟩ := hthrough.reads.exists_cover hs (List.ne_nil_of_mem (hnew ▸ hu))
    replace hcover := hcover u (hnew ▸ hu)
    have hstretch : (r.node inner.reverse).stretch = e.span := by
      simp only [Tree.stretch, Tree.span, Rule.node, Tree.extent?, he]
      rfl
    refine ⟨hproper, [r.node inner.reverse], _, rfl, List.mem_singleton_self _, ?_⟩
    rw [hstretch]
    exact ⟨hcover.1.trans hwithin.1, hwithin.2.trans hcover.2⟩
  | first _ hreads ih =>
    have huses := (Bool.and_eq_true _ _).mp huses
    obtain ⟨hproper, new, u, rfl, hu, hwithin⟩ := ih huses.1 hs
    obtain ⟨new', rfl⟩ := hreads.appends (isPlain_of_uses huses.2)
    exact ⟨hproper, new' ++ new, u, (List.append_assoc ..).symm, List.mem_append_right _ hu, hwithin⟩
  | second hreads _ ih =>
    have huses := (Bool.and_eq_true _ _).mp huses
    obtain ⟨new, rfl⟩ := hreads.appends (isPlain_of_uses huses.1)
    obtain ⟨hproper, new', u, rfl, hu, hwithin⟩ := ih huses.2 (hreads.exists_isAt hs)
    exact ⟨hproper, new' ++ new, u, (List.append_assoc ..).symm, List.mem_append_left _ hu, hwithin⟩
  | left _ _ ih => exact ih ((Bool.and_eq_true _ _).mp huses).1 hs
  | right _ _ ih => exact ih ((Bool.and_eq_true _ _).mp huses).2 hs
  | some _ _ ih => exact ih huses hs
  | once _ _ _ ih => exact ih huses hs
  | now _ _ _ hreads ih =>
    obtain ⟨hproper, new, u, rfl, hu, hwithin⟩ := ih huses hs
    obtain ⟨new', rfl⟩ := hreads.appends (isPlain_of_uses huses)
    exact ⟨hproper, new' ++ new, u, (List.append_assoc ..).symm, List.mem_append_right _ hu, hwithin⟩
  | later hreads _ _ _ ih =>
    obtain ⟨new, rfl⟩ := hreads.appends (isPlain_of_uses huses)
    obtain ⟨hproper, new', u, rfl, hu, hwithin⟩ := ih huses (hreads.exists_isAt hs)
    exact ⟨hproper, new' ++ new, u, (List.append_assoc ..).symm, List.mem_append_left _ hu, hwithin⟩
  | resume => cases huses

end Pattern

/-! ## Outside of the opaque regions -/

/-- The terminal is neither a chunk nor the end of the source. -/
def Terminal.isOrdinary (t : Terminal) : Bool :=
  t != .endOfInput && !(chunkTerminals.any fun e => e.1 == t)

theorem Terminal.isOrdinary_iff {t : Terminal} :
    t.isOrdinary ↔ t ≠ .endOfInput ∧ ∀ k, (t, k) ∉ chunkTerminals := by
  simp only [isOrdinary, Bool.and_eq_true, bne_iff_ne, Bool.not_eq_true', List.any_eq_false,
    beq_iff_eq]
  refine and_congr_right fun _ => ⟨fun h k hk => h _ hk rfl, fun h e he ht => h e.2 ?_⟩
  rwa [← ht]

namespace Pattern

variable {inside : Rule → Bool} {p : Pattern} {after : TerminalSet} {parts parts' : List Tree}
  {s s' : Parser} {c : Token}

/-- The pattern begins with an expression. -/
def opensExpression : Pattern → Bool
  | rule r => r == .expression
  | seq p _ => p.opensExpression
  | _ => false

/-- The pattern is a token behind which no chunk is admitted, or a token with an expression behind it. -/
def isClear : Pattern → TerminalSet → Bool
  | token t, after => t.isOrdinary && after.isChunkless
  | seq (token t) q, after =>
    t.isOrdinary && q.opensExpression && (q.admits after).isOfExpression
  | _, _ => false

/-- All tokens of the pattern are such ones. -/
def clears : Pattern → TerminalSet → Bool
  | token t, after => (token t).isClear after
  | rule _, _ => true
  | seq p q, after => ((seq p q).isClear after || p.clears (q.admits after)) && q.clears after
  | alt p q, after => p.clears after && q.clears after
  | opt p, after => p.clears after
  | plus repeated p, _ => p.clears repeated
  | resume r _ p, _ => p.clears r.follow

/-- **Outside of the opaque regions no chunk is admitted behind a token**, unless an expression comes. -/
theorem clears_body {r : Rule} (hr : r.isOpaque = false) : r.body.clears r.follow := by
  revert hr
  cases r <;> decide

/-- What is read begins with this token, and behind the token no chunk is admitted, unless an expression
comes. -/
def TakesClear (c : Token) (p : Pattern) (after : TerminalSet) (_ : List Tree) (s : Parser)
    (_ : List Tree) (_ : Parser) : Prop :=
  s.lookahead = some c ∧ p.isClear after

end Pattern

/-- A place outside of a stretch, and not at its end. -/
def Extent.IsApart (e : Extent) (p : Position) : Prop :=
  p.place ≤ e.start.place ∨ e.stop.place < p.place

namespace Pattern

/-- **The way to a token behind which no opaque region is, nor around it**, goes through none of them. -/
theorem Through.outside (h : Through inside (TakesToken c) p after parts s parts' s')
    (hp : p.clears after) (hs : ∃ c A, s.IsAt c A)
    (hapart : ∀ e ∈ Tree.placesAll Rule.isOpaque parts', e.IsApart c.extent.stop) :
    Through (fun r => !r.isOpaque) (TakesClear c) p after parts s parts' s' := by
  have hinner : ∀ {r : Rule} {inner parts : List Tree},
      (∀ e ∈ Tree.placesAll Rule.isOpaque (r.node inner.reverse :: parts), e.IsApart c.extent.stop) →
      ∀ e ∈ Tree.placesAll Rule.isOpaque inner, e.IsApart c.extent.stop := fun h e he =>
    h e (Tree.mem_placesAll_cons.mpr (Or.inl (Tree.mem_places_node he _)))
  induction h with
  | here hreads hhere =>
    obtain ⟨⟨t, rfl⟩, hlookahead⟩ := hhere
    exact .here hreads ⟨hlookahead, hp⟩
  | @rule r after parts s inner s' _ hthrough hcheck ih =>
    cases hr : r.isOpaque with
    | false => exact .rule (by rw [hr]; rfl) (ih (clears_body hr) hs (hinner hapart)) hcheck
    | true =>
      obtain ⟨hproper, new, u, hnew, hu, hwithin⟩ := hthrough.exists_part (isOpaque_uses r hr) hs
      rw [List.append_nil] at hnew
      obtain ⟨e, he, hcover⟩ := hthrough.reads.exists_cover hs (List.ne_nil_of_mem (hnew ▸ hu))
      replace hcover := hcover u (hnew ▸ hu)
      have hplace : e ∈ (r.node inner.reverse).places Rule.isOpaque := Tree.mem_places_self hr he
      have hbehind : e.start.place < c.extent.stop.place :=
        (hcover.1.trans hwithin.1).trans_lt hproper
      have hwithin : c.extent.stop.place ≤ e.stop.place := hwithin.2.trans hcover.2
      rcases hapart e (Tree.mem_placesAll_cons.mpr (Or.inl hplace)) with hle | hlt
      · exact absurd hle (not_le_of_gt hbehind)
      · exact absurd hlt (not_lt_of_ge hwithin)
  | @first p q after parts s parts₁ s₁ parts₂ s₂ hthrough hreads ih =>
    have hp := (Bool.and_eq_true _ _).mp hp
    rcases (Bool.or_eq_true _ _).mp hp.1 with hclear | hclears
    · cases p with
      | token t =>
        cases hthrough with
        | here htakes hhere => exact .here (.seq htakes hreads) ⟨hhere.2, hclear⟩
      | _ => cases hclear
    · exact .first (ih hclears hs fun e he => hapart e (hreads.mem_places he)) hreads
  | second hreads _ ih =>
    exact .second hreads (ih ((Bool.and_eq_true _ _).mp hp).2 (hreads.exists_isAt hs) hapart)
  | left hfirst _ ih => exact .left hfirst (ih ((Bool.and_eq_true _ _).mp hp).1 hs hapart)
  | right hfirst _ ih => exact .right hfirst (ih ((Bool.and_eq_true _ _).mp hp).2 hs hapart)
  | some hfirst _ ih => exact .some hfirst (ih hp hs hapart)
  | once _ hcheck hfirst ih => exact .once (ih hp hs hapart) hcheck hfirst
  | now _ hcheck hfirst hreads ih =>
    exact .now (ih hp hs fun e he => hapart e (hreads.mem_places he)) hcheck hfirst hreads
  | later hreads hcheck hfirst _ ih =>
    exact .later hreads hcheck hfirst (ih hp (hreads.exists_isAt hs) hapart)
  | resume _ hcheck ih => exact .resume (ih hp hs (hinner hapart)) hcheck

end Pattern

/-- **Each token of a source** was taken on a way through the phrases of its tree. -/
theorem Tree.through_of_parse {source : List Char} {t : Tree} (h : Tree.parse source = .ok t) :
    ∃ s a parts s', (∃ c A, s.IsAt c A) ∧
      Lexes (Rule.source.body.admits Rule.source.follow) source a ∧ s.Sees source a ∧
      t = Rule.source.node parts.reverse ∧ ∃ ts, parsedTokens source = .ok ts ∧ ∀ c ∈ ts,
        Pattern.Through (fun _ => true) (Pattern.TakesToken c) Rule.source.body Rule.source.follow []
          s parts s' := by
  simp only [Tree.parse, Pattern.bind_eq_ok] at h
  obtain ⟨s, hread, ⟨parts, s'⟩, hparse, h⟩ := h
  cases h
  obtain ⟨ts, hts, hthrough⟩ := Pattern.through_of_parse hparse
  have htokens : parsedTokens source = .ok ts := by
    simp only [parsedTokens, Pattern.bind_eq_ok]
    exact ⟨s, hread, _, hts, rfl⟩
  have hs : ∃ c A, s.IsAt c A := ⟨_, _, _, hread⟩
  rw [Cursor.ofSource_eq] at hread
  obtain ⟨a, hlexes, ha⟩ := exists_lexes_of_read (List.suffix_refl _) hread
  exact ⟨s, a, parts, s', hs, hlexes, ha, rfl, ts, htokens, hthrough⟩

end Facade
