import Facade.Proofs.Grammar.Through

/-!
# Around a block

Where a block is read in a source, other text in its place changes nothing of what is read before it
and behind it.

* `Tree.blocks`, **`Tree.exists_isBlock`**: the places of the blocks of a tree, which are texts between
  braces;
* `Pattern.Around`, **`Pattern.Reads.around`**: reading in the course of which a block is read;
* **`Pattern.crosses_block`**: another block is read where the block was;
* **`Tree.parse_around`**: so the source with the other block is parsed, and the trees say the same.
-/

namespace Facade

open Scan

namespace Tree

mutual

/-- The places of the blocks in a tree. -/
def blocks : Tree → List Extent
  | leaf _ => []
  | node r children extent => (if r = .block then extent.toList else []) ++ blocksAll children

/-- The places of the blocks in trees. -/
def blocksAll : List Tree → List Extent
  | [] => []
  | t :: ts => blocks t ++ blocksAll ts

end

theorem mem_blocksAll {e : Extent} {parts : List Tree} :
    e ∈ blocksAll parts ↔ ∃ u ∈ parts, e ∈ u.blocks := by
  induction parts with
  | nil => simp [blocksAll]
  | cons u parts ih => simp [blocksAll, ih]

theorem of_mem_blocks_node {e : Extent} {r : Rule} {parts : List Tree}
    (h : e ∈ (r.node parts.reverse).blocks) :
    r = .block ∧ cover parts.reverse = some e ∨ e ∈ blocksAll parts := by
  rcases List.mem_append.mp h with h | h
  · split_ifs at h with hr
    · exact Or.inl ⟨hr, Option.mem_toList.mp h⟩
    · cases h
  · obtain ⟨u, hu, he⟩ := mem_blocksAll.mp h
    exact Or.inr (mem_blocksAll.mpr ⟨u, List.mem_reverse.mp (List.mem_filter.mp hu).1, he⟩)

end Tree

/-- The block at this place begins with the brace before `y`, and `behind` is left behind it. -/
structure Extent.IsBlock (e : Extent) (before y behind : List Char) : Prop where
  start : e.start.offset = before.length
  stop : e.stop.offset = (before ++ '\x7b' :: y).length - behind.length
  behind : behind <:+ before ++ '\x7b' :: y

namespace Pattern

/-- What is read is a block that covers this place. -/
def ReadsBlock (e : Extent) (p : Pattern) (_ : TerminalSet) (_ : List Tree) (_ : Parser)
    (parts' : List Tree) (_ : Parser) : Prop :=
  p = .rule .block ∧ parts'.head?.bind Tree.extent? = some e

/-- Reading in the course of which a block is read that covers this place. -/
abbrev Around (e : Extent) :
    Pattern → TerminalSet → List Tree → Parser → List Tree → Parser → Prop :=
  Through (fun r => !r.keepsText) (ReadsBlock e)

variable {source : List Char} {e : Extent} {p : Pattern} {after : TerminalSet}
  {parts parts' : List Tree} {s s' : Parser} {a b : Ahead}

/-- The phrases in which no block can stand. -/
def isClosed : Rule → Bool
  | .attributeSection | .attributeBrackets | .defaultValue | .defaultArguments
  | .nestedArguments => true
  | _ => false

theorem uses_closed : ∀ r, isClosed r → r.body.uses isClosed fun _ => false := by
  intro r
  cases r <;> decide

theorem Around.not_uses_closed (h : Around e p after parts s parts' s') :
    ¬ p.uses isClosed fun _ => false := by
  induction h with
  | here _ hblock =>
    obtain ⟨rfl, -⟩ := hblock
    decide
  | @rule r _ _ _ _ _ _ _ _ ih => exact fun hr => ih (uses_closed r hr)
  | first _ _ ih => exact fun h => ih ((Bool.and_eq_true _ _).mp h).1
  | second _ _ ih => exact fun h => ih ((Bool.and_eq_true _ _).mp h).2
  | left _ _ ih => exact fun h => ih ((Bool.and_eq_true _ _).mp h).1
  | right _ _ ih => exact fun h => ih ((Bool.and_eq_true _ _).mp h).2
  | some _ _ ih => exact ih
  | once _ _ _ ih => exact ih
  | now _ _ _ _ ih => exact ih
  | later _ _ _ _ ih => exact ih
  | resume => exact fun h => by cases h

/-- **A block that is new among the parts was read** in the course of reading the pattern. -/
theorem Reads.around (h : p.Reads after parts s parts' s') (he : e ∈ Tree.blocksAll parts')
    (hnew : e ∉ Tree.blocksAll parts) (huses : p.uses (fun _ => true) mayResume) :
    Around e p after parts s parts' s' := by
  have hcons : ∀ {u : Tree} {us : List Tree}, e ∈ Tree.blocksAll (u :: us) →
      e ∈ u.blocks ∨ e ∈ Tree.blocksAll us := fun h => List.mem_append.mp h
  have hpart : ∀ {us vs : List Tree}, (∀ u ∈ us, u ∈ vs) → e ∈ Tree.blocksAll us →
      e ∈ Tree.blocksAll vs := by
    intro us vs hsub h
    obtain ⟨u, hu, he⟩ := Tree.mem_blocksAll.mp h
    exact Tree.mem_blocksAll.mpr ⟨u, hsub u hu, he⟩
  induction h with
  | token => exact absurd ((hcons he).resolve_left List.not_mem_nil) hnew
  | @rule r after parts s inner s' hreads hcheck ih =>
    rcases Tree.of_mem_blocks_node ((hcons he).resolve_right hnew) with ⟨rfl, hcover⟩ | hinner
    · exact .here (.rule hreads hcheck) ⟨rfl, hcover⟩
    · have haround := ih hinner List.not_mem_nil (uses_body r)
      refine .rule ?_ haround hcheck
      by_contra htext
      have hclosed : isClosed r := by
        revert htext
        cases r <;> decide
      exact haround.not_uses_closed (uses_closed r hclosed)
  | @seq p q after parts s parts₁ s₁ parts₂ s₂ hreads hreads' ih ih' =>
    have huses := (Bool.and_eq_true _ _).mp huses
    by_cases hmiddle : e ∈ Tree.blocksAll parts₁
    · exact .first (ih hmiddle hnew huses.1) hreads'
    · exact .second hreads (ih' he hmiddle huses.2)
  | left hfirst _ ih => exact .left hfirst (ih he hnew ((Bool.and_eq_true _ _).mp huses).1)
  | right hfirst _ ih => exact .right hfirst (ih he hnew ((Bool.and_eq_true _ _).mp huses).2)
  | none => exact absurd he hnew
  | some hfirst _ ih => exact .some hfirst (ih he hnew huses)
  | once _ hcheck hfirst ih => exact .once (ih he hnew huses) hcheck hfirst
  | @more p repeated after parts s parts₁ s₁ parts₂ s₂ hreads hcheck hfirst hreads' ih ih' =>
    by_cases hmiddle : e ∈ Tree.blocksAll parts₁
    · exact .now (ih hmiddle hnew huses) hcheck hfirst hreads'
    · exact .later hreads hcheck hfirst (ih' he hmiddle huses)
  | @resume r n p after parts s inner s' hreads hcheck ih =>
    have huses := (Bool.and_eq_true _ _).mp huses
    have htake : e ∉ Tree.blocksAll (parts.take n) := fun h =>
      hnew (hpart (fun _ => List.mem_of_mem_take) h)
    rcases hcons he with hnode | hdrop
    · rcases Tree.of_mem_blocks_node hnode with ⟨rfl, -⟩ | hinner
      · exact absurd huses.1 (by decide)
      · exact .resume (ih hinner htake huses.2) hcheck
    · exact absurd (hpart (fun _ => List.mem_of_mem_drop) hdrop) hnew

/-! ## The block -/

theorem ends_of_block {inner : List Tree}
    (h : Rule.block.body.Reads Rule.block.follow [] s inner s') (ha : s.Sees source a)
    (hfits : Fits a.terminal a.word) (hcover : Tree.cover inner.reverse = .some e) :
    ∃ body z b, a = ⟨.leftBrace, ['\x7b'], body ++ '\x7d' :: z⟩ ∧
      '\x7b' :: (body ++ '\x7d' :: z) <:+ source ∧
      e.start = .ofRest source ('\x7b' :: (body ++ '\x7d' :: z)) ∧ e.stop = .ofRest source z ∧
      Lexes Rule.block.follow z b ∧ s'.Sees source b := by
  have hbody : (seq (token .leftBrace) (.seq blockItems (token .rightBrace))).Reads
      Rule.block.follow [] s inner s' := h
  have hspelled : ∀ {a : Ahead} {w : String}, Fits a.terminal a.word → a.terminal.spelling? = some w →
      a.word = w.toList := fun hfits hw => by rw [← hfits.word _ hw, String.toList_ofList]
  cases hbody with
  | seq hopen hrest =>
    cases hopen with
    | token htake =>
      obtain ⟨rfl, hterminal, m, hm', hm⟩ := ha.of_take htake
      cases hrest with
      | seq hitems hclose =>
        obtain ⟨n, hn, hleads⟩ := hitems.leads hm
        obtain ⟨new, rfl⟩ := hitems.appends (by decide)
        cases hclose with
        | token htake' =>
          obtain ⟨rfl, hterminal', b, hlexes, hb⟩ := hn.of_take htake'
          have hends : e = (a.token source).extent.join (n.token source).extent := by
            have hparts : (Tree.leaf (n.token source) :: (new ++ [.leaf (a.token source)])).reverse =
                Tree.leaf (a.token source) :: new.reverse ++ [.leaf (n.token source)] := by simp
            rw [hparts, Tree.cover, List.getLast?_concat] at hcover
            exact (Option.some.inj hcover).symm
          subst hends
          obtain ⟨body, hbody⟩ : ∃ body, a.rest = body ++ (n.word ++ n.rest) := by
            obtain ⟨gap, hgap⟩ := hm'.divides
            rcases hleads.divides with rfl | ⟨gap', hgap'⟩
            · exact ⟨gap, hgap⟩
            · exact ⟨gap ++ m.word ++ gap', by rw [hgap, hgap']; simp⟩
          have hopen := hspelled hfits (w := "\x7b") (by rw [hterminal]; rfl)
          have hclose := hspelled (hleads.fits hm'.fits) (w := "\x7d") (by rw [hterminal']; rfl)
          rw [hclose] at hbody
          obtain ⟨t, w, r⟩ := a
          obtain rfl : w = ['\x7b'] := hopen
          obtain rfl : t = .leftBrace := hterminal
          obtain rfl : r = body ++ '\x7d' :: n.rest := hbody
          refine ⟨body, n.rest, b, rfl, ?_, rfl, rfl, hlexes, hb⟩
          rcases ha with ⟨hend, -⟩ | ⟨hsuffix, -, -⟩
          · cases hend
          · exact hsuffix

variable {before y behind : List Char}

theorem next_of_block (hblock : e.IsBlock before y behind) {inner : List Tree}
    (h : Rule.block.body.Reads Rule.block.follow [] s inner s')
    (ha : s.Sees (before ++ '\x7b' :: y) a) (hfits : Fits a.terminal a.word)
    (hcover : Tree.cover inner.reverse = .some e) : a = ⟨.leftBrace, ['\x7b'], y⟩ ∧
      ∃ b, Lexes Rule.block.follow behind b ∧ s'.Sees (before ++ '\x7b' :: y) b := by
  obtain ⟨body, z, b, rfl, hsuffix, hstart, hstop, hlexes, hb⟩ := ends_of_block h ha hfits hcover
  have htext : '\x7b' :: (body ++ '\x7d' :: z) = '\x7b' :: y := by
    refine Position.rest_unique hsuffix (List.suffix_append before _) ?_
    rw [← hstart, hblock.start, Position.offset_ofRest]
    simp
  have hz : z <:+ before ++ '\x7b' :: y :=
    List.IsSuffix.trans ⟨'\x7b' :: body ++ ['\x7d'], by simp⟩ hsuffix
  obtain rfl : z = behind := by
    refine Position.rest_unique hz hblock.behind ?_
    rw [← hstop, hblock.stop, Position.offset_ofRest]
  obtain rfl := (List.cons.inj htext).2
  exact ⟨rfl, b, hlexes, hb⟩

/-- **A block that is read is a text between braces** of the source. -/
theorem Around.exists_isBlock (h : Around e p after parts s parts' s') (ha : s.Sees source a)
    (hread : a.IsRead) : ∃ before body behind,
      source = before ++ '\x7b' :: (body ++ '\x7d' :: behind) ∧
        e.IsBlock before (body ++ '\x7d' :: behind) behind := by
  obtain ⟨_, _, _, _, _, _, a, ⟨rfl, hcover⟩, hreads, ha, hread⟩ := h.exists_here ha hread
  cases hreads with
  | rule hreads _ =>
    obtain ⟨body, z, -, -, ⟨before, rfl⟩, hstart, hstop, -⟩ :=
      ends_of_block hreads ha hread.fits hcover
    refine ⟨before, body, z, rfl, ?_, ?_, ⟨before ++ '\x7b' :: body ++ ['\x7d'], by simp⟩⟩
    · rw [hstart, Position.offset_ofRest]
      simp
    · rw [hstop, Position.offset_ofRest]

theorem isBefore_brace : Ahead.IsBefore y ⟨.leftBrace, ['\x7b'], y⟩ := by
  have hno : ∀ e ∈ chunkTerminals, e.1 ≠ .leftBrace := by decide
  refine ⟨⟨fun k hk => absurd rfl (hno _ hk), fun h => ?_, fun h => ?_⟩,
    fun k hk => absurd rfl (hno _ hk), fun y' => ⟨_, .brace⟩⟩
  · cases h
  · cases h

/-! ## The other block -/

variable {common : List Char} {y' : List Char}

/-- The text behind the brace of the other source is that of a block. -/
def TakesBlock (before y' behind : List Char) : Prop :=
  ∀ b, Lexes Rule.block.follow behind b → Rule.block.body.Takes (before ++ '\x7b' :: y')
    Rule.block.follow ⟨.leftBrace, ['\x7b'], y'⟩ b [] fun inner => (Tree.cover inner).isSome

variable (common) in
/-- **The other block is read where the block was.** -/
theorem crosses_block (hblock : e.IsBlock before y behind) (hother : TakesBlock before y' behind) :
    Crosses (ReadsBlock e) common (before ++ '\x7b' :: y) (before ++ '\x7b' :: y')
      (Ahead.IsBefore y) (ComesBefore before y y') (ComesBehind behind) where
  good := by
    rintro _ _ _ _ _ _ a ⟨rfl, hcover⟩ hreads - ha hread
    cases hreads with
    | rule hreads _ =>
      obtain ⟨rfl, -⟩ := next_of_block hblock hreads ha hread.fits hcover
      exact isBefore_brace
  transfer := by
    rintro _ _ _ _ _ _ a b parts₁ s₁ a' ⟨rfl, hcover⟩ hreads - - ha hread hb ha' hR hparts
    cases hreads with
    | rule hreads hcheck =>
      obtain ⟨rfl, b', hlexes, hb'⟩ := next_of_block hblock hreads ha hread.fits hcover
      obtain rfl := hb.unique hb'
      obtain rfl := Ahead.Refilled.eq_of_append (r := []) hR.refilled
      obtain ⟨inner', s₂', hreads, hs₂', hsome⟩ := hother b hlexes s₁ ha' []
      simp only [List.reverse_nil, List.append_nil] at hreads
      obtain ⟨gap, hgap⟩ := hlexes.divides
      refine ⟨_, s₂', b, .rule hreads (hs₂'.check (hb.terminal_mem hcheck)), hs₂',
        ⟨rfl, gap, hgap.symm⟩, .cons (.silent rfl ?_) hparts⟩
      obtain ⟨e', he'⟩ := Option.isSome_iff_exists.mp hsome
      have hcover : Tree.cover _ = some e := hcover
      rw [hcover, List.reverse_reverse, he']
      exact .some ⟨trivial, trivial⟩

end Pattern

/-! ## Sources -/

theorem Tree.around_of_parse {source : List Char} {e : Extent} {t : Tree}
    (h : Tree.parse source = .ok t) (he : e ∈ t.blocks) : ∃ s a parts s',
      Lexes (Rule.source.body.admits Rule.source.follow) source a ∧ s.Sees source a ∧
        Pattern.Around e Rule.source.body Rule.source.follow [] s parts s' ∧
        t = Rule.source.node parts.reverse := by
  simp only [Tree.parse, Pattern.bind_eq_ok] at h
  obtain ⟨s, hread, ⟨parts, s'⟩, hparse, h⟩ := h
  cases h
  rw [Cursor.ofSource_eq] at hread
  obtain ⟨a, hlexes, ha⟩ := exists_lexes_of_read (List.suffix_refl _) hread
  have hinside := (Tree.of_mem_blocks_node he).resolve_left fun h => by cases h.1
  exact ⟨s, a, parts, s', hlexes, ha, (Pattern.reads_of_parse hparse).around hinside List.not_mem_nil
    (Pattern.uses_body .source), rfl⟩

/-- **A block in the tree of a source is a text between braces** of the source. -/
theorem Tree.exists_isBlock {source : List Char} {e : Extent} {t : Tree}
    (h : Tree.parse source = .ok t) (he : e ∈ t.blocks) : ∃ before body behind,
      source = before ++ '\x7b' :: (body ++ '\x7d' :: behind) ∧
        e.IsBlock before (body ++ '\x7d' :: behind) behind := by
  obtain ⟨s, a, parts, s', hlexes, ha, haround, -⟩ := Tree.around_of_parse h he
  exact haround.exists_isBlock ha ⟨_, _, hlexes⟩

/-- **A source with another block is parsed**, and its tree says the same, if no literal is open before
the block. -/
theorem Tree.parse_around {before y y' behind : List Char} {e : Extent} {t : Tree}
    (common : List Char) (h : Tree.parse (before ++ '\x7b' :: y) = .ok t) (he : e ∈ t.blocks)
    (hblock : e.IsBlock before y behind) (hbehind : behind <:+ y')
    (hshut : ∀ u ∈ t.tokens, u.IsShutBefore (before ++ '\x7b' :: y) before.length)
    (hother : Pattern.TakesBlock before y' behind) :
    ∃ t', Tree.parse (before ++ '\x7b' :: y') = .ok t' ∧
      t.bare common (before ++ '\x7b' :: y) = t'.bare common (before ++ '\x7b' :: y') := by
  obtain ⟨s, a, parts, s₂, hlexes, ha, haround, rfl⟩ := Tree.around_of_parse h he
  have hknown : ∀ u ∈ Tree.tokensAll parts, u.terminal.isNamed →
      u.IsShutBefore (before ++ '\x7b' :: y) before.length := fun u hu hnamed =>
    hshut u (Tree.mem_tokens_node (by simpa [Tree.mem_tokensAll] using hu) hnamed _)
  have hread : a.IsRead := ⟨_, _, hlexes⟩
  have hcrosses := Pattern.crosses_block common hblock hother
  have hbefore := haround.good hcrosses corresponds_before (Pattern.settled_body .source) ha hread hknown
  obtain ⟨a', ha'⟩ := hbefore.refilled y'
  obtain ⟨gap, hgap⟩ := hlexes.divides
  obtain ⟨b, hb, -⟩ := haround.reads.leads ha
  have hsuffix : behind <:+ before ++ '\x7b' :: y' := by
    obtain ⟨z, rfl⟩ := hbehind
    exact ⟨before ++ '\x7b' :: z, by simp⟩
  exact Tree.parse_of_readsAlike (hlexes.refill rfl ha' hbefore.firm hbefore.shut) fun s' hs' =>
    haround.transfer hcrosses corresponds_before (corresponds_behind hblock.behind hsuffix)
      (fun r hr => by simpa using hr) (Pattern.settled_body .source) (Pattern.uses_body .source) ha
      hread hb hknown hs' ⟨ha', gap, hgap.symm⟩ .nil

end Facade
