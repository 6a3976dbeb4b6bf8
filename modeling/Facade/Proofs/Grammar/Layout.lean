import Facade.Proofs.Grammar.Insertion
import Facade.Proofs.Grammar.Taken

/-!
# Layout

Filler behind a token changes nothing of what is read, unless it is in an opaque region or right behind one.
In front of the place the tokens are the same because what follows them ends them as it did, behind it because
they are skipped to; an expression that comes next may take the filler into its first chunk.

* **`corresponds_inFront`**: the tokens in front of the place;
* `Pattern.Reads.transfer_grown`: an expression whose first chunk has grown;
* **`Pattern.crosses_filler`**: what is read at the place;
* **`Tree.parse_insert`**, `Tree.parse_prepend`: so the source with the filler is parsed, and the trees say the
  same.
-/

namespace Facade

open Scan

variable {A : TerminalSet} {front T y : List Char}

/-! ## In front of the place -/

theorem Scan.Lexes.getLast?_ne {cs : List Char} {a : Ahead} (h : Lexes A cs a)
    (hno : ∀ k, (a.terminal, k) ∉ chunkTerminals) : a.word.getLast? ≠ some '\\' := by
  have hspelled : ∀ e ∈ Terminal.spelled, '\\' ∉ e.2.toList := by decide
  have hoperators : ∀ o ∈ longOperators ++ wordOperators, '\\' ∉ o.toList := by decide
  induction h with
  | @chunk cs t s h =>
    obtain ⟨e, he, h⟩ := List.exists_of_findSome?_eq_some h
    split_ifs at h
    obtain ⟨s', -, heq⟩ := Option.map_eq_some_iff.mp h
    cases heq
    exact absurd he (hno e.2)
  | skip _ _ _ ih => exact ih hno
  | @terminal cs t s _ _ h =>
    suffices hnot : '\\' ∉ s.1 from fun hlast => hnot (List.mem_of_getLast? hlast)
    unfold matchTerminal at h
    rw [Option.orElse_eq_some, Option.orElse_eq_some] at h
    rcases h with h | ⟨-, h | ⟨-, h⟩⟩
    · unfold matchName at h
      split_ifs at h
      obtain ⟨s', hs', heq⟩ := Option.map_eq_some_iff.mp h
      cases heq
      exact fun hmem => (isName_of_scan hs').ne_of_mem hmem (by decide) (by decide) rfl
    · unfold matchOperator at h
      split_ifs at h
      obtain ⟨s', hs', heq⟩ := Option.map_eq_some_iff.mp h
      cases heq
      unfold scanOperator at hs'
      rw [Option.orElse_eq_some, Option.orElse_eq_some] at hs'
      rcases hs' with hs' | ⟨-, hs' | ⟨-, hs'⟩⟩
      · obtain ⟨o, ho, hs'⟩ := List.exists_of_findSome?_eq_some hs'
        rw [(scanExact_eq_some hs').1]
        exact hoperators o (List.mem_append_left _ ho)
      · obtain ⟨o, ho, hs'⟩ := List.exists_of_findSome?_eq_some hs'
        rw [(scanExact_eq_some (scanWholeWord_eq_some.mp hs').1).1]
        exact hoperators o (List.mem_append_right _ ho)
      · split at hs'
        · split_ifs at hs' with hshort
          cases hs'
          intro hmem
          rw [← List.mem_singleton.mp hmem] at hshort
          exact absurd hshort (by decide)
        · cases hs'
    · obtain ⟨e, he, h⟩ := List.exists_of_findSome?_eq_some h
      split_ifs at h
      obtain ⟨s', hs', heq⟩ := Option.map_eq_some_iff.mp h
      cases heq
      rw [(scanExact_eq_some hs').1]
      exact hspelled e he
  | atEnd => simp [Ahead.atEnd]

/-- A token that ends before the place or there, and is read with the filler inserted. -/
structure Ahead.IsInFront (T y : List Char) (a : Ahead) : Prop where
  firm : a.IsFirm
  shut : IsQuoteless T ∨ a.IsShut y.length
  rest : ∃ u, a.rest = u ++ y
  apart : a.IsApart y

/-- Tokens that come next in front of the place, without the filler and with it. -/
structure ComesInFront (front T y : List Char) (a a' : Ahead) : Prop where
  extended : a.Extended y (T ++ y) a'
  suffix : a.word ++ a.rest <:+ front ++ y

/-- **In front of the place the tokens of both sources correspond**, as long as no chunk has an open item or
the filler holds no quote. -/
theorem corresponds_inFront (hT : IsFiller T) (hz : BeginsBlank (T ++ y))
    (hlast : front.getLast? ≠ some '\\') : Corresponds (front ++ y) (front ++ (T ++ y))
      (Ahead.IsInFront T y) (fun t => IsQuoteless T ∨ t.IsShutBefore (front ++ y) front.length)
      (ComesInFront front T y) (PlacedBefore front y (T ++ y)) where
  terminal h := by
    obtain ⟨u, -, rfl⟩ := h.extended
    rfl
  step {A a a' b} h hlexes hgood := by
    obtain ⟨u, hu, rfl⟩ := h.extended
    obtain ⟨u', hu'⟩ := hgood.rest
    obtain ⟨gap, hgap⟩ := hlexes.divides
    have hsuffix : a.word ++ u <:+ front := by
      obtain ⟨z, hz⟩ := h.suffix
      refine ⟨z, ?_⟩
      rw [hu] at hz
      simp only [← List.append_assoc] at hz ⊢
      exact List.append_cancel_right hz
    have hlast' : u.getLast? ≠ some '\\' := by
      obtain ⟨z, rfl⟩ := List.IsSuffix.trans (List.suffix_append a.word u) hsuffix
      cases u with
      | nil => simp
      | cons c u => rwa [List.getLast?_append_of_ne_nil _ (by simp)] at hlast
    have hb : b.Extended y (T ++ y) ⟨b.terminal, b.word, u' ++ (T ++ y)⟩ := ⟨u', hu', rfl⟩
    refine ⟨⟨_, ⟨hb, ?_⟩, hlexes.insert hu hT hz hlast' hb hgood.apart hgood.firm hgood.shut⟩,
      ?_, ?_, rfl⟩
    · refine List.IsSuffix.trans ⟨a.word ++ gap, ?_⟩ h.suffix
      rw [hgap, List.append_assoc]
    · exact ⟨a.word ++ u, hsuffix, by rw [hu, List.append_assoc], by rw [List.append_assoc]⟩
    · exact ⟨u, List.IsSuffix.trans (List.suffix_append _ _) hsuffix, by rw [hu], rfl⟩
  text := PlacedBefore.text
  back {p after parts s parts' s' a b} h hfirm ha hb hknown hgood := by
    rcases h.leads_to ha hb with _ | ⟨hleads, hlexes⟩
    · exact hgood
    rcases (hleads.tail hlexes).divides with rfl | ⟨gap, hgap⟩
    · exact hgood
    obtain ⟨u, hu⟩ := hgood.rest
    have hword := hlexes.word_ne_nil hgood.apart.proper
    have hrest : a.rest = gap ++ b.word ++ u ++ y := by rw [hgap, hu]; simp
    have hlong : y.length < a.rest.length := by
      have hpos := List.length_pos_iff.mpr hword
      rw [hrest]
      simp only [List.length_append]
      omega
    refine ⟨hfirm hgood.firm, ?_, ⟨_, hrest⟩, fun hend => ?_, fun _ _ heq => ?_⟩
    · by_cases hquotes : IsQuoteless T
      · exact Or.inl hquotes
      · have hlength : (front ++ y).length - y.length = front.length := by simp
        refine Or.inr (h.isShut ha hb (fun _ _ => ⟨_, hrest.symm⟩) (fun t ht hnamed => ?_)
          (hgood.shut.resolve_left hquotes))
        rw [hlength]
        exact (hknown t ht hnamed).resolve_left hquotes
    · rw [hend] at hlong
      exact absurd hlong (Nat.not_lt_zero _)
    · rw [heq] at hlong
      exact absurd hlong (Nat.lt_irrefl _)

/-! ## An expression with a longer chunk -/

namespace Pattern

variable {common source source' behind : List Char} {p : Pattern} {after : TerminalSet}
  {parts parts' parts₁ : List Tree} {s s' s₁ : Parser} {a a' b : Ahead}

theorem Reads.again (h : p.Reads after parts s parts' s') (hp : p.isPlain) (hsettles : p.settles after)
    (huses : p.uses (fun _ => true) mayResume) (hsource : behind <:+ source)
    (hsource' : behind <:+ source') (ha : s.Sees source a) (hb : s'.Sees source b)
    (ha' : s₁.Sees source' a) (hbehind : a.word ++ a.rest <:+ behind) (others : List Tree) :
    ∃ parts₂ s₂, p.Reads after others s₁ parts₂ s₂ ∧ s₂.Sees source' b ∧
      b.word ++ b.rest <:+ behind := by
  obtain ⟨new, -, hnew⟩ := h.rebase hp
  have htransfer : p.ReadsAlike [] source source' (ComesBehind behind) (fun _ _ => True) after [] s₁
      (new ++ []) b :=
    (hnew []).transfer (corresponds_behind hsource hsource') (Or.inl hsettles) huses ha hb
      (fun _ _ _ => trivial) trivial ha' ⟨rfl, hbehind⟩ (fun _ _ _ => trivial) .nil
  obtain ⟨parts₂, s₂, b', hreads, hb', ⟨rfl, hsuffix⟩, -⟩ := htransfer
  obtain ⟨new', -, hnew'⟩ := hreads.rebase hp
  exact ⟨_, s₂, hnew' others, hb', hsuffix⟩

/-- One of the things that an expression is made of. -/
def expressionItem : Pattern := alt (token .expressionChunk) (rule .expressionBlock)

/-- What may stand after one of them. -/
def afterItem : TerminalSet :=
  .ofList [.comma, .semicolon, .expressionChunk, .leftBrace]

theorem settles_items : (plus afterItem expressionItem).settles after := by
  change expressionItem.settles afterItem
  decide

theorem lexes_brace (cs : List Char) : Lexes afterItem ('\x7b' :: cs) ⟨.leftBrace, ['\x7b'], cs⟩ := by
  refine lexes_stop (by decide) (by decide) (by decide) (by decide) ?_
  rw [matchChunk_expression (by decide),
    scanChunk_eq_none_iff.mpr (Or.inr (scanItem_of_stops (by decide) cs))]
  rfl

theorem opens_of_item {parts' : List Tree} (h : expressionItem.Reads after parts s parts' s')
    (ha : s.Sees source a) : (∃ found, s.take .expressionChunk after = .ok (found, s')) ∨
      a.terminal = .leftBrace := by
  cases h with
  | left _ h =>
    cases h with
    | token htake => exact Or.inl ⟨_, htake⟩
  | right _ h =>
    cases h with
    | rule h _ =>
      have hbody : (seq (token .leftBrace) (seq blockItems (token .rightBrace))).Reads
          Rule.expressionBlock.follow [] s _ s' := h
      cases hbody with
      | seq hopen _ =>
        cases hopen with
        | token htake => exact Or.inr (ha.of_take htake).2.1

theorem Reads.exists_opens (h : p.Reads after parts s parts' s') (hp : p.opensExpression)
    (ha : s.Sees source a) : ∃ rest, OpensExpression a rest := by
  have hitem {after : TerminalSet} {parts parts' : List Tree} {s' : Parser}
      (h : expressionItem.Reads after parts s parts' s') : ∃ rest, OpensExpression a rest := by
    rcases opens_of_item h ha with ⟨found, htake⟩ | ht
    · exact ⟨_, .chunk (ha.of_take htake).2.1⟩
    · exact ⟨_, .brace ht⟩
  induction h with
  | @rule r after parts s inner s' hreads _ _ =>
    obtain rfl : r = .expression := beq_iff_eq.mp hp
    have hreads : (plus afterItem expressionItem).Reads Rule.expression.follow [] s inner s' := hreads
    cases hreads with
    | once h _ _ => exact hitem h
    | more h _ _ _ => exact hitem h
  | seq _ _ ih _ => exact ih hp ha hitem
  | _ => cases hp

theorem take_grown {n : Ahead} (hgrown : Grown a a') (ha' : s₁.Sees source' a')
    (hlexes : Lexes afterItem a'.rest n) : ∃ found s₂, expressionItem.Reads afterItem parts₁ s₁
      (.leaf found :: parts₁) s₂ ∧ s₂.Sees source' n := by
  obtain ⟨s₂, htake, hn⟩ := ha'.take (by rw [hgrown.terminal]; decide) hlexes
  rw [hgrown.terminal] at htake
  refine ⟨_, s₂, .left ?_ (.token htake), hn⟩
  rw [ha'.terminal_eq, hgrown.terminal]
  decide

variable (parts₁) in
/-- **The things an expression is made of are read again if its first chunk has grown.** -/
theorem Reads.items_grown (h : (plus afterItem expressionItem).Reads after parts s parts' s')
    (hsource : behind <:+ source) (hsource' : behind <:+ source') (ha : s.Sees source a)
    (hread : a.IsRead) (hb : s'.Sees source b) (hgrown : Grown a a') (ha' : s₁.Sees source' a')
    (hbehind : a.word ++ a.rest <:+ behind) : ∃ parts₂ s₂,
      (plus afterItem expressionItem).Reads after parts₁ s₁ parts₂ s₂ ∧ s₂.Sees source' b ∧
        b.word ++ b.rest <:+ behind := by
  have hcheck {n : Ahead} {s₁ s₂ : Parser} {expected : TerminalSet} (hn : s₁.Sees source n)
      (hn' : s₂.Sees source' n) (h : s₁.check expected = .ok ()) : s₂.check expected = .ok () :=
    hn'.check (hn.terminal_mem h)
  -- behind the chunk comes what came next
  have hchunk {n : Ahead} (ht : a.terminal = .expressionChunk) (hlexes : Lexes afterItem a.rest n) :
      ∃ found s₂, expressionItem.Reads afterItem parts₁ s₁ (.leaf found :: parts₁) s₂ ∧
        s₂.Sees source' n ∧ n.word ++ n.rest <:+ behind := by
    obtain ⟨t, w, r⟩ := a'
    cases hgrown.opens with
    | chunk =>
      obtain ⟨found, s₂, hitem, hn⟩ := take_grown hgrown ha' hlexes
      obtain ⟨gap, hgap⟩ := hlexes.divides
      exact ⟨found, s₂, hitem, hn, List.IsSuffix.trans ⟨gap, hgap.symm⟩
        (List.IsSuffix.trans (List.suffix_append _ _) hbehind)⟩
    | brace hbrace =>
      rw [ht] at hbrace
      cases hbrace
  -- behind the chunk comes the brace with all that is read from there on
  have hbrace (ht : a.terminal = .leftBrace) : ∃ parts₂ s₂,
      (plus afterItem expressionItem).Reads after parts₁ s₁ parts₂ s₂ ∧ s₂.Sees source' b ∧
        b.word ++ b.rest <:+ behind := by
    have hword : a.word = ['\x7b'] := by
      rw [← String.toList_ofList (l := a.word), hread.fits.word "\x7b" (by rw [ht]; rfl)]
      rfl
    have hlexes : Lexes afterItem a'.rest a := by
      obtain ⟨t, w, r⟩ := a
      obtain ⟨t', w', r'⟩ := a'
      obtain rfl : t = .leftBrace := ht
      obtain rfl : w = ['\x7b'] := hword
      cases hgrown.opens with
      | chunk hterminal => cases hterminal
      | brace => exact lexes_brace r
    obtain ⟨found, s₂, hitem, hs₂⟩ := take_grown hgrown ha' hlexes
    have hfirst : s₂.terminal ∈ expressionItem.first := by
      rw [hs₂.terminal_eq, ht]
      decide
    obtain ⟨parts₂, s₃, hreads, hs₃, hsuffix⟩ := h.again (by decide) settles_items (by decide) hsource
      hsource' ha hb hs₂ hbehind (.leaf found :: parts₁)
    refine ⟨parts₂, s₃, .more hitem (hs₂.check ?_) hfirst hreads, hs₃, hsuffix⟩
    rw [← hs₂.terminal_eq]
    exact TerminalSet.mem_union.mpr (Or.inl hfirst)
  cases h with
  | once hitem hafter hnot =>
    rcases opens_of_item hitem ha with ⟨found, htake⟩ | ht
    · obtain ⟨-, ht, n, hlexes, hn⟩ := ha.of_take htake
      obtain rfl := hb.unique hn
      obtain ⟨found, s₂, hitem, hs₂, hsuffix⟩ := hchunk ht hlexes
      exact ⟨_, s₂, .once hitem (hcheck hb hs₂ hafter)
        (by rwa [hs₂.terminal_eq, ← hb.terminal_eq]), hs₂, hsuffix⟩
    · exact hbrace ht
  | more hitem hafter hfirst hrest =>
    rcases opens_of_item hitem ha with ⟨found, htake⟩ | ht
    · obtain ⟨-, ht, n, hlexes, hn⟩ := ha.of_take htake
      obtain ⟨found, s₂, hitem, hs₂, hsuffix⟩ := hchunk ht hlexes
      obtain ⟨parts₂, s₃, hreads, hs₃, hsuffix⟩ := hrest.again (by decide) settles_items (by decide)
        hsource hsource' hn hb hs₂ hsuffix (.leaf found :: parts₁)
      exact ⟨parts₂, s₃, .more hitem (hcheck hn hs₂ hafter)
        (by rwa [hs₂.terminal_eq, ← hn.terminal_eq]) hreads, hs₃, hsuffix⟩
    · exact hbrace ht

variable (common) in
/-- **A pattern that begins with an expression is read again if the first chunk has grown.** -/
theorem Reads.transfer_grown (h : p.Reads after parts s parts' s') (hp : p.opensExpression)
    (hsettles : p.settles after) (huses : p.uses (fun _ => true) mayResume)
    (hsource : behind <:+ source) (hsource' : behind <:+ source') (ha : s.Sees source a)
    (hread : a.IsRead) (hb : s'.Sees source b) (hgrown : Grown a a') (ha' : s₁.Sees source' a')
    (hbehind : a.word ++ a.rest <:+ behind) (hs : ∃ c A, s.IsAt c A) (hs₁ : ∃ c A, s₁.IsAt c A)
    (hparts : List.Forall₂ (Tree.Matches common source source' fun _ _ => True) parts parts₁) :
    p.ReadsAlike common source source' (ComesBehind behind) (fun _ _ => True) after parts₁ s₁ parts'
      b := by
  induction h generalizing b with
  | @rule r after parts s inner s' hreads hcheck _ =>
    obtain rfl : r = .expression := beq_iff_eq.mp hp
    obtain ⟨inner', s₂, hreads', hb', hsuffix⟩ := Reads.items_grown [] hreads hsource hsource' ha
      hread hb hgrown ha' hbehind
    have hreads' : Rule.expression.body.Reads Rule.expression.follow [] s₁ inner' s₂ := hreads'
    obtain ⟨e, he, -⟩ := hreads.exists_cover hs
      (hreads.ne_nil (fits_body .expression) (Or.inr (isNullable_body (by decide))))
    obtain ⟨e', he', -⟩ := hreads'.exists_cover hs₁
      (hreads'.ne_nil (fits_body .expression) (Or.inr (isNullable_body (by decide))))
    refine ⟨_, s₂, b, .rule hreads' (hb'.check (hb.terminal_mem hcheck)), hb', ⟨rfl, hsuffix⟩,
      .cons (.silent rfl ?_) hparts⟩
    rw [he, he']
    exact .some ⟨trivial, trivial⟩
  | @seq p q after parts s parts₂ s₂ parts₃ s₃ hreads hreads' ih _ =>
    obtain ⟨hp', hq⟩ := settles_seq hsettles
    have huses := (Bool.and_eq_true _ _).mp huses
    obtain ⟨m, hm, -⟩ := hreads.leads ha
    have hsettled : p.settles (q.admits after) := hp'.resolve_right fun hbracket => by
      cases p with
      | token => cases hp
      | _ => cases hbracket.1
    obtain ⟨parts₄, s₄, m', hreads₄, hm', hR, hparts₄⟩ := ih hp hsettled huses.1 ha hm hs hparts
    exact (hreads'.transfer (corresponds_behind hsource hsource') (Or.inl hq) huses.2 hm hb
      (fun _ _ _ => trivial) trivial hm' hR (fun _ _ _ => trivial) hparts₄).imp
        fun _ _ hreads => .seq hreads₄ hreads
  | _ => cases hp

/-! ## At the place -/

variable {c : Token}

theorem rest_of_lookahead (ha : s.Sees (front ++ y) a) (hc : s.lookahead = some c)
    (hstop : c.extent.stop.offset = front.length) : a.rest = y := by
  rcases ha with ⟨-, hnone⟩ | ⟨hsuffix, hsome, -⟩
  · rw [hnone] at hc
    cases hc
  · obtain rfl := Option.some.inj (hsome.symm.trans hc)
    refine Position.rest_unique (List.IsSuffix.trans (List.suffix_append _ _) hsuffix)
      (List.suffix_append front y) ?_
    have hoffset : (Position.ofRest (front ++ y) a.rest).offset = front.length := hstop
    rw [hoffset, Position.offset_ofRest, List.length_append, Nat.add_sub_cancel]

theorem TakesClear.exists_take (h : TakesClear c p after parts s parts' s')
    (hreads : p.Reads after parts s parts' s') : ∃ t A found s₂,
      s.take t A = .ok (found, s₂) ∧ t.isOrdinary ∧
        (p.Settled after parts' s' → (token t).Settled A (.leaf found :: parts) s₂) := by
  have hclear := h.2
  unfold isClear at hclear
  split at hclear
  · simp only [Bool.and_eq_true] at hclear
    cases hreads with
    | token htake => exact ⟨_, _, _, _, htake, hclear.1, id⟩
  · simp only [Bool.and_eq_true] at hclear
    cases hreads with
    | seq htoken hrest =>
      cases htoken with
      | token htake => exact ⟨_, _, _, _, htake, hclear.1.1, fun hp => (hp.first hrest).1⟩
  · cases hclear

/-- **What is read at the place is read with the filler behind the token there.** -/
theorem crosses_filler (common : List Char) (hT : IsFiller T)
    (hstop : c.extent.stop.offset = front.length) :
    Crosses (TakesClear c) common (front ++ y) (front ++ (T ++ y)) (Ahead.IsInFront T y)
      (ComesInFront front T y) (ComesBehind y) where
  good {p after parts s parts' s' a} h hreads hp ha _ := by
    obtain ⟨t, A, found, s₂, htake, hordinary, hsettled⟩ := h.exists_take hreads
    obtain ⟨-, rfl, -⟩ := ha.of_take htake
    obtain ⟨hproper, hno⟩ := Terminal.isOrdinary_iff.mp hordinary
    refine ⟨isFirm_of_take htake (hsettled hp) ha, Or.inr fun k hk => absurd hk (hno k),
      ⟨[], rest_of_lookahead ha h.1 hstop⟩, fun hend => hproper (by rw [hend]; rfl),
      fun k hk => absurd hk (hno k)⟩
  transfer {p after parts s parts' s' a b parts₁ s₁ a'} h hreads hp huses ha hread hb ha' hR hparts := by
    have hrest := rest_of_lookahead ha h.1 hstop
    obtain ⟨u, hu, rfl⟩ := hR.extended
    obtain rfl : u = [] := List.append_left_eq_self.mp (hu.symm.trans hrest)
    have hsource : y <:+ front ++ y := List.suffix_append _ _
    have hsource' : y <:+ front ++ (T ++ y) := ⟨front ++ T, List.append_assoc ..⟩
    -- the token is taken in the other source, whatever comes next there
    have htakes {t : Terminal} {A : TerminalSet} {found : Token} {s₂ : Parser} {n : Ahead}
        (ht : t.isOrdinary) (htake : s.take t A = .ok (found, s₂)) (hlexes : Lexes A (T ++ y) n) : ∃ found' s₃, s₁.take t A = .ok (found', s₃) ∧
          s₃.Sees (front ++ (T ++ y)) n ∧ List.Forall₂
            (Tree.Matches common (front ++ y) (front ++ (T ++ y)) fun _ _ => True)
            (.leaf found :: parts) (.leaf found' :: parts₁) := by
      obtain ⟨rfl, rfl, -⟩ := ha.of_take htake
      obtain ⟨s₃, htake', hs₃⟩ := ha'.take (b := n) (Terminal.isOrdinary_iff.mp ht).1 hlexes
      exact ⟨_, s₃, htake', hs₃, .cons ⟨rfl, .some ⟨trivial, trivial⟩⟩ hparts⟩
    have hclear := h.2
    unfold isClear at hclear
    split at hclear
    · simp only [Bool.and_eq_true] at hclear
      cases hreads with
      | token htake =>
        obtain ⟨-, -, n, hlexes, hn⟩ := ha.of_take htake
        obtain rfl := hb.unique hn
        rw [hrest] at hlexes
        obtain ⟨gap, hgap⟩ := hlexes.divides
        obtain ⟨found', s₃, htake', hs₃, hparts'⟩ := htakes hclear.1 htake (hlexes.filler hT hclear.2)
        exact ⟨_, s₃, b, .token htake', hs₃, ⟨rfl, gap, hgap.symm⟩, hparts'⟩
    · next _ _ t q =>
      simp only [Bool.and_eq_true] at hclear
      obtain ⟨⟨hordinary, hopens⟩, hA⟩ := hclear
      have huses := (Bool.and_eq_true _ _).mp huses
      cases hreads with
      | seq htoken hq =>
        cases htoken with
        | token htake =>
          obtain ⟨-, hsettles⟩ := hp.first hq
          obtain ⟨-, -, n, hlexes, hn⟩ := ha.of_take htake
          rw [hrest] at hlexes
          obtain ⟨gap, hgap⟩ := hlexes.divides
          obtain ⟨-, -, hat⟩ := Parser.take_eq_ok htake
          obtain ⟨rest, hrest⟩ := hq.exists_opens hopens hn
          obtain ⟨n', hlexes', hgrown⟩ := exists_grown hT hA hlexes hrest
          obtain ⟨found', s₃, htake', hs₃, hparts'⟩ := htakes hordinary htake hlexes'
          obtain ⟨-, -, hat'⟩ := Parser.take_eq_ok htake'
          suffices hreads : q.ReadsAlike common (front ++ y) (front ++ (T ++ y)) (ComesBehind y)
              (fun _ _ => True) after (.leaf found' :: parts₁) s₃ parts' b from
            hreads.imp fun _ _ hreads => .seq (.token htake') hreads
          rcases hgrown with rfl | hgrown
          · exact hq.transfer (corresponds_behind hsource hsource') (Or.inl hsettles) huses.2 hn hb
              (fun _ _ _ => trivial) trivial hs₃ ⟨rfl, gap, hgap.symm⟩ (fun _ _ _ => trivial) hparts'
          · exact hq.transfer_grown common hopens hsettles huses.2 hsource hsource' hn ⟨_, _, hlexes⟩ hb
              hgrown hs₃ ⟨gap, hgap.symm⟩ ⟨_, _, hat⟩ ⟨_, _, hat'⟩ hparts'
    · cases hclear

theorem Through.exists_front {inside : Rule → Bool}
    (h : Through inside (TakesClear c) p after parts s parts' s') (ha : s.Sees source a)
    (hread : a.IsRead) : ∃ front y, source = front ++ y ∧ c.extent.stop.offset = front.length ∧
      front.getLast? ≠ .some '\\' := by
  obtain ⟨_, _, _, _, _, _, m, hhere, hreads, hm, A, cs, hlexes⟩ := h.exists_here ha hread
  obtain ⟨_, _, _, _, htake, hordinary, -⟩ := hhere.exists_take hreads
  obtain ⟨-, rfl, -⟩ := hm.of_take htake
  obtain ⟨hproper, hno⟩ := Terminal.isOrdinary_iff.mp hordinary
  have hword := hlexes.word_ne_nil fun hend => hproper (by rw [hend]; rfl)
  rcases hm with ⟨rfl, -⟩ | ⟨⟨z, hz⟩, hlookahead, -⟩
  · exact absurd rfl hproper
  obtain rfl := Option.some.inj (hlookahead.symm.trans hhere.1)
  refine ⟨z ++ m.word, m.rest, by rw [← hz, List.append_assoc], ?_, ?_⟩
  · have hoffset := Position.offset_ofRest source m.rest
    have hlength : source.length - m.rest.length = (z ++ m.word).length := by
      rw [← hz, ← List.append_assoc, List.length_append, Nat.add_sub_cancel]
    exact hoffset.trans hlength
  · rw [List.getLast?_append_of_ne_nil _ hword]
    exact hlexes.getLast?_ne hno

end Pattern

/-! ## Sources -/

/-- A place between two tokens: one of a source ends there, or the source begins. -/
def Position.IsBreak (source : List Char) (p : Position) : Prop :=
  p = .start ∨ ∃ ts, parsedTokens source = .ok ts ∧ ∃ c ∈ ts, c.extent.stop = p

/-- The source with more text at this place. -/
def Position.insert (p : Position) (source text : List Char) : List Char :=
  source.take p.offset ++ text ++ source.drop p.offset

/-- **A source with filler behind a token is parsed**, and its tree says the same. -/
theorem Tree.parse_insert {source : List Char} {c : Token} {t : Tree} {ts : List Token}
    (common : List Char) (hT : IsFiller T) (hblank : BeginsBlank T) (h : Tree.parse source = .ok t)
    (hts : parsedTokens source = .ok ts) (hc : c ∈ ts)
    (hapart : ∀ e ∈ t.places Rule.isOpaque, e.IsApart c.extent.stop)
    (hshut : IsQuoteless T ∨ t.IsShutBefore source c.extent.stop.offset) :
    ∃ t', Tree.parse (c.extent.stop.insert source T) = .ok t' ∧
      t.bare common source = t'.bare common (c.extent.stop.insert source T) := by
  obtain ⟨s, a, parts, s₂, hs, hlexes, ha, rfl, ts', hts', hthrough⟩ := Tree.through_of_parse h
  obtain rfl := Except.ok.inj (hts.symm.trans hts')
  replace hthrough := (hthrough c hc).outside (Pattern.clears_body rfl) hs fun e he =>
    hapart e (Tree.mem_places_node he _)
  have hread : a.IsRead := ⟨_, _, hlexes⟩
  obtain ⟨front, y, rfl, hstop, hlast⟩ := hthrough.exists_front ha hread
  have hinsert : c.extent.stop.insert (front ++ y) T = front ++ (T ++ y) := by
    rw [Position.insert, hstop, List.take_left, List.drop_left, List.append_assoc]
  rw [hstop] at hshut
  have hknown : ∀ u ∈ Tree.tokensAll parts, u.terminal.isNamed →
      IsQuoteless T ∨ u.IsShutBefore (front ++ y) front.length := fun u hu hnamed =>
    hshut.imp_right fun h =>
      h u (Tree.mem_tokens_node (by simpa [Tree.mem_tokensAll] using hu) hnamed _)
  have hz : BeginsBlank (T ++ y) := by
    obtain ⟨d, z, rfl, hd⟩ := hblank
    exact ⟨d, z ++ y, rfl, hd⟩
  have hcrosses := Pattern.crosses_filler common hT (y := y) hstop
  have hbefore := corresponds_inFront hT hz hlast
  have hgood := hthrough.good hcrosses hbefore (Pattern.settled_body .source) ha hread hknown
  obtain ⟨u, hu⟩ := hgood.rest
  obtain ⟨gap, hgap⟩ := hlexes.divides
  obtain ⟨b, hb, -⟩ := hthrough.reads.leads ha
  have hextended : a.Extended y (T ++ y) ⟨a.terminal, a.word, u ++ (T ++ y)⟩ := ⟨u, hu, rfl⟩
  rw [hinsert]
  exact Tree.parse_of_readsAlike
    (hlexes.insert rfl hT hz hlast hextended hgood.apart hgood.firm hgood.shut) fun s' hs' =>
      hthrough.transfer hcrosses hbefore
        (corresponds_behind (List.suffix_append front y) ⟨front ++ T, List.append_assoc ..⟩)
        (fun r hr => by revert hr; cases r <;> decide) (Pattern.settled_body .source)
        (Pattern.uses_body .source) ha hread hb hknown hs' ⟨hextended, gap, hgap.symm⟩ .nil

/-- **A source with filler in front of it is parsed**, and its tree says the same. -/
theorem Tree.parse_prepend {t : Tree} (common : List Char) (hT : IsFiller T)
    (h : Tree.parse y = .ok t) : ∃ t', Tree.parse (T ++ y) = .ok t' ∧
      t.bare common y = t'.bare common (T ++ y) := by
  simp only [Tree.parse, Pattern.bind_eq_ok] at h
  obtain ⟨s, hread, ⟨parts, s'⟩, hparse, h⟩ := h
  cases h
  rw [Cursor.ofSource_eq] at hread
  obtain ⟨a, hlexes, ha⟩ := exists_lexes_of_read (List.suffix_refl _) hread
  have hreads := Pattern.reads_of_parse hparse
  obtain ⟨gap, hgap⟩ := hlexes.divides
  obtain ⟨b, hb, -⟩ := hreads.leads ha
  exact Tree.parse_of_readsAlike (hlexes.filler hT (by decide)) fun s' hs' =>
    hreads.transfer (corresponds_behind (List.suffix_refl y) (List.suffix_append T y))
      (Or.inl (Pattern.settles_body .source)) (Pattern.uses_body .source) ha hb
      (fun _ _ _ => trivial) trivial hs' ⟨rfl, gap, hgap.symm⟩ (fun _ _ _ => trivial) .nil

end Facade
