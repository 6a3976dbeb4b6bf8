import Facade.Proofs.Grammar.Following
import Facade.Proofs.Grammar.Refill

/-!
# Default values are read as they are written

A text that ends before what can follow a default value is read as one: chunks, and parentheses with
chunks between them.

* `Scan.DefaultState.Steps`: what one more piece of a default value can be;
* `Scan.Passes.items`: the pieces of a chunk, up to its end;
* `Pattern.exists_readsArguments`: the text up to a closing parenthesis is read as arguments;
* **`accepts_defaultValue`**: the text of a default value is read as that default value.
-/

namespace Facade

open Text

namespace Scan

/-! ## Pieces -/

/-- What one more piece of a default value can be. -/
inductive DefaultState.Steps : DefaultState → DefaultState → Prop
  | blank {depth last c rest} : last ≠ .item → isLayout c →
      Steps ⟨depth, last, c :: rest⟩ ⟨depth, .ignored, rest⟩
  | item {depth last cs s} : scanItem (chunkAt depth) cs = some s →
      (last ≠ .item → cs.head?.any isBlank = false) → Steps ⟨depth, last, cs⟩ ⟨depth, .item, s.2⟩
  | opening {depth last rest} : scanItem (chunkAt depth) ('(' :: rest) = none →
      Steps ⟨depth, last, '(' :: rest⟩ ⟨depth + 1, .paren, rest⟩
  | closing {depth last rest} : scanItem (chunkAt (depth + 1)) (')' :: rest) = none →
      Steps ⟨depth + 1, last, ')' :: rest⟩ ⟨depth, .paren, rest⟩
  | ignored {depth last cs s} : scanItem (chunkAt depth) cs = none →
      scanProgramAttribute cs = some s → Steps ⟨depth, last, cs⟩ ⟨depth, .ignored, s.2⟩

theorem DefaultState.steps_of_step {q q' : DefaultState} (h : q.step = some q') : q.Steps q' := by
  obtain ⟨depth, last, cs⟩ := q
  unfold step at h
  split_ifs at h with hbetween hlayout
  · cases cs with
    | nil => cases hlayout
    | cons c rest =>
      cases h
      simp only [isBetween, Bool.and_eq_true, bne_iff_ne, ne_eq] at hbetween
      exact .blank hbetween.1 (by simpa using hlayout)
  · split at h
    · next s hs =>
      cases h
      refine .item hs fun hlast => ?_
      simpa [isBetween, hlast] using hbetween
    · next hnone =>
      unfold stepSign at h
      simp only at h hnone
      split at h
      · cases h
        exact .opening hnone
      · split_ifs at h with hdepth
        cases h
        obtain ⟨depth, rfl⟩ := Nat.exists_eq_succ_of_ne_zero hdepth
        exact .closing hnone
      · obtain ⟨s, hs, rfl⟩ := Option.map_eq_some_iff.mp h
        exact .ignored hnone hs
      · cases h

theorem length_of_scanProgramAttribute {cs : List Char} {s : Split}
    (h : scanProgramAttribute cs = some s) : s.2.length < cs.length := by
  have hlength := congrArg List.length (divides_scanProgramAttribute _ _ h)
  have hne : s.1 ≠ [] := by
    unfold scanProgramAttribute at h
    split at h
    · simp only [Option.bind_eq_bind, Option.bind_eq_some_iff, Option.some.injEq] at h
      obtain ⟨_, _, _, _, _, _, rfl⟩ := h
      simp
    · cases h
  have hpos := List.length_pos_iff.mpr hne
  rw [List.length_append] at hlength
  omega

theorem EndsDefault.scanItem_eq_none {x : List Char} (h : EndsDefault x) :
    scanItem (chunkAt 0) x = none := by
  obtain ⟨c, y, rfl, rfl | rfl⟩ := h <;> exact scanItem_of_stops rfl y

/-- Where a chunk has begun its items are read up to its end. -/
theorem Passes.items {depth : Nat} {cs x : List Char} {last : Scan.Piece}
    (h : Passes ⟨depth, .item, cs⟩ last x) (hx : EndsDefault x) :
    ∃ s, Items (chunkAt depth) cs s ∧ Passes ⟨depth, .item, s.2⟩ last x := by
  induction hn : cs.length using Nat.strong_induction_on generalizing cs with
  | _ n ih =>
    subst hn
    cases hitem : scanItem (chunkAt depth) cs with
    | none => exact ⟨([], cs), .nil hitem, h⟩
    | some s =>
      have hstep : (DefaultState.mk depth .item cs).step = some ⟨depth, .item, s.2⟩ := by
        simp [DefaultState.step, DefaultState.isBetween, hitem]
      cases h with
      | done => rw [hx.scanItem_eq_none] at hitem; cases hitem
      | step hstep' hrest =>
        rw [hstep] at hstep'
        cases hstep'
        obtain ⟨s', hitems, hpasses⟩ := ih _ (length_of_scanItem hitem) hrest rfl
        exact ⟨prepend s.1 s', .cons hitem hitems, hpasses⟩

theorem head_of_scanItem_eq_none {k : Chunk} {cs : List Char} (h : scanItem k cs = none) :
    cs.head?.any isBlank = false := by
  cases cs with
  | nil => rfl
  | cons c cs =>
    have hstops : ∀ d, k.stops d = true → isBlank d = false := by
      cases k <;> simp only [Chunk.stops, Bool.or_eq_true, beq_iff_eq, or_imp, forall_and, forall_eq] <;>
        decide
    change isBlank c = false
    rcases scanItem_eq_none h with ⟨rfl, -⟩ | ⟨rfl, -⟩ | rfl | rfl | hc
    · decide
    · decide
    · decide
    · decide
    · exact hstops c hc

theorem Passes.of_items {depth : Nat} {cs x : List Char} {last : Scan.Piece}
    (h : Passes ⟨depth, .item, cs⟩ last x) (hnone : scanItem (chunkAt depth) cs = none) :
    ∃ last', Passes ⟨depth, .paren, cs⟩ last' x ∧ (last ≠ .ignored → last' ≠ .ignored) := by
  cases h with
  | done => exact ⟨.paren, .done, by simp⟩
  | step hstep hrest =>
    refine ⟨last, .step ?_ hrest, id⟩
    rw [← hstep]
    simp [DefaultState.step, DefaultState.isBetween, head_of_scanItem_eq_none hnone,
      DefaultState.stepSign]

/-! ## Tokens in a default value -/

/-- The terminal of the chunks at this depth of parentheses. -/
def chunkTerminal (depth : Nat) : Terminal := if depth = 0 then .parameterChunk else .argumentChunk

/-- Of opaque text chunks of this depth are admitted alone. -/
structure AdmitsAt (depth : Nat) (admitted : TerminalSet) : Prop where
  chunk : ∀ cs, matchChunk admitted cs =
    (scanChunk (chunkAt depth) cs).map fun s => (chunkTerminal depth, s)
  name : .name ∉ admitted
  operator : .operatorSymbol ∉ admitted

section

variable {depth : Nat} {admitted : TerminalSet} (h : AdmitsAt depth admitted)

include h

theorem AdmitsAt.lexes_chunk {cs : List Char} {s : Split} (hblank : cs.head?.any isBlank = false)
    (hitems : Items (chunkAt depth) cs s) (hne : s.1 ≠ []) :
    Lexes admitted cs ⟨chunkTerminal depth, s.1, s.2⟩ := by
  refine .chunk (t := chunkTerminal depth) (s := s) ?_
  rw [h.chunk, scanChunk_eq_some_iff.mpr ⟨hblank, hitems, hne⟩]
  rfl

theorem AdmitsAt.matchChunk_eq_none {cs : List Char} (hnone : scanItem (chunkAt depth) cs = none) :
    matchChunk admitted cs = none := by
  rw [h.chunk, scanChunk_eq_none_iff.mpr (Or.inr hnone)]
  rfl

theorem AdmitsAt.lexes_sign {t : Terminal} {c : Char} (hmem : (t, c) ∈ plainSigns)
    (ht : t ∈ admitted) {cs : List Char} (hnone : scanItem (chunkAt depth) (c :: cs) = none) :
    Lexes admitted (c :: cs) ⟨t, [c], cs⟩ :=
  lexes_stop hmem ht h.name h.operator (h.matchChunk_eq_none hnone)

theorem AdmitsAt.lexes_attribute {cs : List Char} {s : Split} {a : Ahead}
    (hnone : scanItem (chunkAt depth) cs = none) (hs : scanProgramAttribute cs = some s)
    (ha : Lexes admitted s.2 a) : Lexes admitted cs a := by
  refine .skip (h.matchChunk_eq_none hnone) ?_ ha
  unfold scanProgramAttribute at hs
  split at hs
  · next cs =>
    rw [scanIgnored]
    exact hs
  · cases hs

end

end Scan

namespace Pattern

open Scan

/-- What may come next between the parentheses of a default value. -/
def inArguments : TerminalSet := .ofList [.argumentChunk, .leftParen, .rightParen]

/-- One thing that stands between the parentheses of a default value. -/
def argumentItem : Pattern := alt (token .argumentChunk) (rule .nestedArguments)

theorem admitsAt_inArguments (depth : Nat) : AdmitsAt (depth + 1) inArguments where
  chunk := matchChunk_of_only (t := .argumentChunk) (k := .inArguments) (by decide) (by decide)
    (by decide)
  name := by decide
  operator := by decide

/-- The parenthesis that ends arguments. -/
def closingParen (rest : List Char) : Ahead := ⟨.rightParen, [')'], rest⟩

/-- What stands between parentheses from here on is read up to the one that ends it. -/
def ReadsArguments (source : List Char) (a : Ahead) (rest : List Char) : Prop :=
  a = closingParen rest ∨ a.terminal ∈ argumentItem.first ∧ (plus inArguments argumentItem).Takes
    source (.single .rightParen) a (closingParen rest) [] fun _ => True

theorem mem_argumentItem : Terminal.argumentChunk ∈ argumentItem.first ∧
    .leftParen ∈ argumentItem.first ∧ .rightParen ∉ argumentItem.first := by
  decide

variable {source : List Char}

theorem ReadsArguments.mem {a : Ahead} {rest : List Char} (h : ReadsArguments source a rest) :
    a.terminal ∈ inArguments := by
  have hclosing : Terminal.rightParen ∈ inArguments := by decide
  rcases h with rfl | ⟨ha, -⟩
  · exact hclosing
  · exact TerminalSet.mem_of_isWithin (a := argumentItem.first) (by decide) ha

theorem ReadsArguments.cons {a b : Ahead} {rest : List Char} (ha : a.terminal ∈ argumentItem.first)
    (h : argumentItem.Takes source inArguments a b [] fun _ => True)
    (hb : ReadsArguments source b rest) : ReadsArguments source a rest := by
  refine Or.inr ⟨ha, ?_⟩
  rcases hb with rfl | ⟨hb, hmore⟩
  · exact .once h (TerminalSet.mem_single.mpr rfl) mem_argumentItem.2.2
  · exact .more h hb fun _ _ => hmore.behind.weaken fun _ _ => trivial

theorem ReadsArguments.parens {a b : Ahead} {text rest : List Char} {after : TerminalSet}
    (h : ReadsArguments source a rest) (hlexes : Lexes inArguments text a)
    (hb : Lexes after rest b) :
    (seq (token .leftParen) (seq argumentItems (token .rightParen))).Takes source after
      ⟨.leftParen, ['('], text⟩ b [] fun inner =>
        ∃ extent, Tree.cover inner = some extent ∧ extent.stop = .ofRest source rest := by
  have hadmits : (seq argumentItems (token .rightParen)).admits after = inArguments := rfl
  have hitems : argumentItems.Takes source (.single .rightParen) a (closingParen rest) []
      fun _ => True := by
    rcases h with rfl | ⟨ha, htakes⟩
    · exact .none mem_argumentItem.2.2 trivial
    · exact .some ha htakes
  refine .cons rfl (hadmits ▸ hlexes) (.andThen hitems fun news _ => .token rfl hb ?_)
  refine ⟨⟨.ofRest source ('(' :: text), .ofRest source rest⟩, ?_, rfl⟩
  simp only [Tree.cover, List.getLast?_concat]
  rfl

/-- **Text up to a closing parenthesis is read as arguments.** -/
theorem exists_readsArguments (source : List Char) {x : List Char} (hx : EndsDefault x)
    {depth : Nat} {l last : Scan.Piece} {cs : List Char} (hl : l ≠ .item)
    (h : Passes ⟨depth + 1, l, cs⟩ last x) : ∃ a rest last', Lexes inArguments cs a ∧
      ReadsArguments source a rest ∧ rest.length < cs.length ∧
      Passes ⟨depth, .paren, rest⟩ last' x ∧ (last ≠ .ignored → last' ≠ .ignored) := by
  induction hn : cs.length using Nat.strong_induction_on generalizing depth l cs last with
  | _ n ih =>
    subst hn
    have hadmits := admitsAt_inArguments depth
    cases h with
    | step hstep hrest =>
      cases DefaultState.steps_of_step hstep with
      | @blank _ _ c cs _ hc =>
        obtain ⟨a, rest, last', hlexes, hreads, hlength, hpasses⟩ :=
          ih cs.length (by simp) (by decide) hrest rfl
        exact ⟨a, rest, last', hlexes.blank hc, hreads, by simp; omega, hpasses⟩
      | @item _ _ _ s hitem hblank =>
        obtain ⟨s', hitems, hpasses⟩ := hrest.items hx
        obtain ⟨last₁, hpasses₁, hlast₁⟩ := hpasses.of_items hitems.ends
        have hlength : s'.2.length < cs.length := by
          have := length_of_scanItem hitem
          have := congrArg List.length hitems.divides
          rw [List.length_append] at this
          omega
        obtain ⟨a, rest, last', hlexes, hreads, hshorter, hpasses', hlast⟩ :=
          ih s'.2.length hlength (by decide) hpasses₁ rfl
        have hchunk := Items.cons hitem hitems
        refine ⟨_, rest, last', hadmits.lexes_chunk (hblank hl) hchunk (hchunk.ne_nil hitem),
          .cons mem_argumentItem.1 (.left (TerminalSet.mem_single.mpr rfl)
            (.token rfl hlexes trivial)) hreads, by omega, hpasses', fun h => hlast (hlast₁ h)⟩
      | @opening _ _ cs hnone =>
        obtain ⟨a₁, rest₁, last₁, hlexes₁, hreads₁, hlength₁, hpasses₁, hlast₁⟩ :=
          ih cs.length (by simp) (by decide) hrest rfl
        obtain ⟨a₂, rest₂, last₂, hlexes₂, hreads₂, hlength₂, hpasses₂, hlast₂⟩ :=
          ih rest₁.length (by simp; omega) (by decide) hpasses₁ rfl
        have hchunk : Terminal.leftParen ∉ (token .argumentChunk).first := by decide
        refine ⟨_, rest₂, last₂, hadmits.lexes_sign (t := .leftParen) (by decide) (by decide) hnone,
          .cons mem_argumentItem.2.1 (.right hchunk (.rule ?_ hreads₂.mem)) hreads₂,
          by simp; omega, hpasses₂, fun h => hlast₂ (hlast₁ h)⟩
        exact (hreads₁.parens hlexes₁ hlexes₂).weaken fun _ _ => trivial
      | @closing _ _ cs hnone =>
        exact ⟨closingParen cs, cs, last,
          hadmits.lexes_sign (t := .rightParen) (by decide) (by decide) hnone, Or.inl rfl, by simp,
          hrest, id⟩
      | @ignored _ _ _ s hnone hs =>
        have hlength := length_of_scanProgramAttribute hs
        obtain ⟨a, rest, last', hlexes, hreads, hlength', hpasses⟩ :=
          ih s.2.length hlength (by decide) hrest rfl
        exact ⟨a, rest, last', hadmits.lexes_attribute hnone hs hlexes, hreads, by omega, hpasses⟩

/-! ## Default values -/

/-- What may come next in a default value that has begun. -/
def inDefault : TerminalSet := .afterParameter ∪ .ofList [.leftParen, .parameterChunk]

/-- One thing that stands in a default value. -/
def defaultItem : Pattern := alt (token .parameterChunk) (rule .defaultArguments)

theorem mem_defaultItem : Terminal.parameterChunk ∈ defaultItem.first ∧
    .leftParen ∈ defaultItem.first ∧ .comma ∉ defaultItem.first ∧ .rightParen ∉ defaultItem.first := by
  decide

theorem admitsAt_inDefault : AdmitsAt 0 inDefault where
  chunk := matchChunk_of_only (t := .parameterChunk) (k := .inDefault) (by decide) (by decide)
    (by decide)
  name := by decide
  operator := by decide

theorem admitsAt_defaultItem : AdmitsAt 0 defaultItem.first where
  chunk := matchChunk_of_only (t := .parameterChunk) (k := .inDefault) (by decide) (by decide)
    (by decide)
  name := by decide
  operator := by decide

end Pattern

open Scan Pattern

/-- What can follow a parameter: a comma or the parenthesis that ends the parameters. -/
inductive ParameterEnds : List Char → Ahead → Prop
  | comma {y} : ParameterEnds (',' :: y) ⟨.comma, [','], y⟩
  | rightParen {y} : ParameterEnds (')' :: y) ⟨.rightParen, [')'], y⟩

namespace ParameterEnds

variable {x : List Char} {b : Ahead}

theorem endsDefault (h : ParameterEnds x b) : EndsDefault x := by
  cases h with
  | comma => exact ⟨',', _, rfl, Or.inl rfl⟩
  | rightParen => exact ⟨')', _, rfl, Or.inr rfl⟩

theorem follows (h : ParameterEnds x b) : Follows (.ofList [.comma, .rightParen]) x b := by
  cases h with
  | comma => exact .sign (by decide) (by decide) _
  | rightParen => exact .sign (by decide) (by decide) _

theorem lexes_inDefault (h : ParameterEnds x b) : Lexes inDefault x b := by
  cases h with
  | comma => exact admitsAt_inDefault.lexes_sign (by decide) (by decide) (scanItem_of_stops rfl _)
  | rightParen =>
    exact admitsAt_inDefault.lexes_sign (by decide) (by decide) (scanItem_of_stops rfl _)

theorem not_mem_defaultItem (h : ParameterEnds x b) : b.terminal ∉ defaultItem.first := by
  cases h with
  | comma => exact mem_defaultItem.2.2.1
  | rightParen => exact mem_defaultItem.2.2.2

end ParameterEnds

/-- The last of the parts ends where this text is left. -/
def EndsAt (source rest : List Char) (parts : List Tree) : Prop :=
  ∃ before last extent, parts = before ++ [last] ∧ last.extent? = some extent ∧
    extent.stop = .ofRest source rest

theorem EndsAt.append {source rest : List Char} {parts : List Tree} (h : EndsAt source rest parts)
    (pre : List Tree) : EndsAt source rest (pre ++ parts) := by
  obtain ⟨before, last, extent, rfl, hextent⟩ := h
  exact ⟨pre ++ before, last, extent, by rw [List.append_assoc], hextent⟩

/-- The things in a default value are read from here to what follows it, the last one ending there. -/
def ReadsDefault (source x : List Char) (a b : Ahead) : Prop :=
  a.terminal ∈ defaultItem.first ∧
    (plus inDefault defaultItem).Takes source .afterParameter a b [] (EndsAt source x)

theorem ReadsDefault.cons {source x cs : List Char} {a b : Ahead} (hb : ParameterEnds x b)
    (ha : a.terminal ∈ defaultItem.first)
    (hmore : cs = x ∨ ∃ m, (∀ admitted, AdmitsAt 0 admitted → m.terminal ∈ admitted →
      Lexes admitted cs m) ∧ ReadsDefault source x m b)
    (h : ∀ m, Lexes inDefault cs m → m.terminal ∈ inDefault →
      defaultItem.Takes source inDefault a m [] (EndsAt source cs)) :
    ReadsDefault source x a b := by
  refine ⟨ha, ?_⟩
  rcases hmore with rfl | ⟨m, hm, hread, htakes⟩
  · have hafter : b.terminal ∈ TerminalSet.afterParameter :=
      TerminalSet.mem_of_isWithin (by decide) hb.follows.mem
    exact .once (h b hb.lexes_inDefault (TerminalSet.mem_of_isWithin (by decide) hafter)) hafter
      hb.not_mem_defaultItem
  · have hin : m.terminal ∈ inDefault := TerminalSet.mem_of_isWithin (by decide) hread
    refine .more (h m (hm _ admitsAt_inDefault hin) hin) hread fun mid _ => ?_
    exact htakes.behind.weaken fun _ ⟨new, hnew, heq⟩ => heq ▸ hnew.append mid

/-- **Text up to the end of a default value is read** as the things in it. -/
theorem exists_readsDefault (source : List Char) {x : List Char} {b : Ahead}
    (hx : ParameterEnds x b) {l last : Scan.Piece} {cs : List Char} (hl : l ≠ .item)
    (h : Passes ⟨0, l, cs⟩ last x) (hlast : last ≠ .ignored) : cs = x ∨ ∃ a,
      (∀ admitted, AdmitsAt 0 admitted → a.terminal ∈ admitted → Lexes admitted cs a) ∧
      ReadsDefault source x a b := by
  induction hn : cs.length using Nat.strong_induction_on generalizing l cs last with
  | _ n ih =>
    subst hn
    -- Only the last piece can be one that is ignored, and it is not.
    have hignored : ∀ rest : List Char, rest.length < cs.length → Passes ⟨0, .ignored, rest⟩ last x →
        ∃ a, (∀ admitted, AdmitsAt 0 admitted → a.terminal ∈ admitted → Lexes admitted rest a) ∧
          ReadsDefault source x a b := by
      intro rest hlength hrest
      refine (ih rest.length hlength (by decide) hrest hlast rfl).resolve_left ?_
      rintro rfl
      cases hrest with
      | done => exact hlast rfl
      | step hstep _ => rw [hx.endsDefault.step] at hstep; cases hstep
    cases h with
    | done => exact Or.inl rfl
    | step hstep hrest =>
      refine Or.inr ?_
      cases DefaultState.steps_of_step hstep with
      | @blank _ _ c cs _ hc =>
        obtain ⟨a, hlexes, hreads⟩ := hignored cs (by simp) hrest
        exact ⟨a, fun admitted hadmits ha => (hlexes admitted hadmits ha).blank hc, hreads⟩
      | @item _ _ _ s hitem hblank =>
        obtain ⟨s', hitems, hpasses⟩ := hrest.items hx.endsDefault
        obtain ⟨last₁, hpasses₁, hlast₁⟩ := hpasses.of_items hitems.ends
        have hlength : s'.2.length < cs.length := by
          have := length_of_scanItem hitem
          have := congrArg List.length hitems.divides
          rw [List.length_append] at this
          omega
        have hchunk := Items.cons hitem hitems
        refine ⟨_, fun admitted hadmits _ => hadmits.lexes_chunk (hblank hl) hchunk
          (hchunk.ne_nil hitem), .cons hx mem_defaultItem.1
            (ih _ hlength (by decide) hpasses₁ (hlast₁ hlast) rfl) fun m hm _ => ?_⟩
        exact .left (TerminalSet.mem_single.mpr rfl) (.token rfl hm ⟨[], _, _, rfl, rfl, rfl⟩)
      | @opening _ _ cs hnone =>
        obtain ⟨a₁, rest₁, last₁, hlexes₁, hreads₁, hlength₁, hpasses₁, hlast₁⟩ :=
          exists_readsArguments source hx.endsDefault (by decide) hrest
        have hparens : Terminal.leftParen ∉ (token .parameterChunk).first := by decide
        have hsign : (Terminal.leftParen, '(') ∈ plainSigns := by decide
        refine ⟨⟨.leftParen, ['('], cs⟩, fun admitted hadmits ha =>
          hadmits.lexes_sign hsign ha hnone, .cons hx mem_defaultItem.2.1
            (ih _ (by simp; omega) (by decide) hpasses₁ (hlast₁ hlast) rfl) fun m hm hmem => ?_⟩
        refine .right hparens (.rule ?_ hmem)
        refine (hreads₁.parens hlexes₁ hm).weaken ?_
        rintro inner ⟨extent, hcover, hstop⟩
        exact ⟨[], _, extent, rfl, hcover, hstop⟩
      | @ignored _ _ _ s hnone hs =>
        obtain ⟨a, hlexes, hreads⟩ := hignored s.2 (length_of_scanProgramAttribute hs) hrest
        exact ⟨a, fun admitted hadmits ha =>
          hadmits.lexes_attribute hnone hs (hlexes admitted hadmits ha), hreads⟩

/-- The text is a default value by itself: nothing of a comma behind it belongs to it, and its last piece
does. -/
structure Scan.IsDefault (d : List Char) : Prop where
  closed : ClosedDefault d
  last : (readDefault d).last ≠ .ignored

instance (d : List Char) : Decidable (IsDefault d) :=
  decidable_of_iff (ClosedDefault d ∧ (readDefault d).last ≠ .ignored)
    ⟨fun h => ⟨h.1, h.2⟩, fun h => ⟨h.closed, h.last⟩⟩

theorem Pattern.Takes.of_suffix {source : List Char} {p : Pattern} {after : TerminalSet} {a b : Ahead}
    {pre : List Tree} {Q : List Tree → Prop} (ha : a ≠ .atEnd)
    (h : a.word ++ a.rest <:+ source → p.Takes source after a b pre Q) :
    p.Takes source after a b pre Q := fun s hs =>
  h (hs.resolve_left fun hend => ha hend.1).1 s hs

theorem defaultOf_of_endsAt {source d x : List Char} {parts : List Tree} {tok : Token}
    (hsuffix : '=' :: ' ' :: (d ++ x) <:+ source)
    (htok : tok.extent.start = .ofRest source ('=' :: ' ' :: (d ++ x)))
    (h : EndsAt source x parts) (htrim : trimBlanks (String.ofList d) = String.ofList d) :
    ParameterSyntax.defaultOf source (Rule.defaultValue.node (.leaf tok :: parts)) =
      String.ofList d := by
  obtain ⟨before, last, extent, hparts, hextent, hstop⟩ := h.append [.leaf tok]
  rw [List.singleton_append] at hparts
  have hcover : Tree.cover (.leaf tok :: parts) = some ⟨tok.extent.start, extent.stop⟩ := by
    have hlast : (Tree.leaf tok :: parts).getLast? = some last := by rw [hparts]; simp
    have hfirst : (Tree.leaf tok).extent? = some tok.extent := rfl
    simp only [Tree.cover, List.head?_cons, hlast, Option.bind_eq_bind, Option.bind_some, hfirst,
      hextent]
    rfl
  have htext : (Rule.defaultValue.node (.leaf tok :: parts)).text source =
      String.ofList ('=' :: ' ' :: d) := by
    rw [Rule.node, Tree.text, Tree.extent?, hcover, htok, hstop]
    simp only
    rw [Position.text_ofRest hsuffix]
    congr 1
    have hlength : ('=' :: ' ' :: (d ++ x)).length - x.length = ('=' :: ' ' :: d).length := by
      simp only [List.length_cons, List.length_append]
      omega
    rw [hlength, ← List.cons_append, ← List.cons_append, List.take_left]
  rw [ParameterSyntax.defaultOf, htext, String.toList_ofList]
  have hdrop : ('=' :: ' ' :: d).dropWhile (· == '=') = ' ' :: d := by simp
  rw [hdrop, ← htrim]
  simp only [trimBlanks, String.toList_ofList]
  rfl

/-- **The text of a default value is read as that default value.** -/
theorem accepts_defaultValue (source : List Char) {d : String} (hd : IsDefault d.toList)
    (htrim : trimBlanks d = d) :
    Rule.defaultValue.Accepts source (fun _ => True) ParameterEnds ('=' :: ' ' :: d.toList)
      fun tree => ParameterSyntax.defaultOf source tree = d := by
  intro x b hx
  obtain ⟨a, hlexes, hread, htakes⟩ := (exists_readsDefault source hx (by decide)
    (hd.closed.passes hx.endsDefault) hd.last).resolve_left (by
      intro heq
      have hpasses := hd.closed.passes hx.endsDefault
      rw [DefaultState.start, heq] at hpasses
      generalize hlast : (readDefault d.toList).last = last at hpasses
      cases hpasses with
      | done => exact hd.last hlast
      | step hstep _ => rw [hx.endsDefault.step] at hstep; cases hstep)
  have hequals : Comes ('=' :: ' ' :: (d.toList ++ x)) ⟨.equals, ['='], ' ' :: (d.toList ++ x)⟩ :=
    comes_blank (t := .equals) (w := "=") (by decide) (by decide) _
  refine ⟨⟨.equals, ['='], ' ' :: (d.toList ++ x)⟩, (show Terminal.equals ∈ _ by decide),
    fun B gap hB hmem _ hgap => (hequals B hB hmem).gap hgap,
    fun after hafter => .one (.of_suffix (by simp [Ahead.atEnd]) fun hsuffix => ?_) hafter⟩
  refine .cons rfl ((hlexes _ admitsAt_defaultItem hread).blank (by decide)) ?_
  refine htakes.behind.weaken ?_
  rintro _ ⟨new, hnew, rfl⟩
  have htok : (Ahead.token source ⟨.equals, ['='], ' ' :: (d.toList ++ x)⟩).extent.start =
      .ofRest source ('=' :: ' ' :: (d.toList ++ x)) := rfl
  have hdefault := defaultOf_of_endsAt hsuffix htok hnew (by simpa using htrim)
  rwa [String.ofList_toList] at hdefault

end Facade
