import Facade.Proofs.Grammar.Braces
import Facade.Proofs.Grammar.Contexts
import Facade.Proofs.Grammar.Takes

/-!
# Tokens before a brace

A token is read knowing nothing of what stands behind it, but for what would make it longer or part of
ignored text. The grammar says what follows such a token, and so it is read whatever stands further on.

* `Ahead.IsFirm`: what follows a token ends it;
* `Ahead.Refilled`: a token before a brace, with other text behind the brace;
* **`Scan.Lexes.refill`**: the token is read before the other text.
-/

namespace Facade

open Scan Text

/-- What follows the token ends it: a chunk that does not go on ends at a sign at which it stops, no
comment begins at a slash, and somewhere a bracket closes an open one. -/
structure Ahead.IsFirm (a : Ahead) : Prop where
  chunk : ∀ k, (a.terminal, k) ∈ chunkTerminals → scanItem k a.rest = none →
    a.rest.head?.any k.stops = true
  slash : a.terminal = .operatorSymbol → a.word = ['/'] → a.rest.head? ≠ some '*'
  bracket : a.terminal = .leftBracket → ']' ∈ a.rest

/-- No item of the token, if it is a chunk, is open where the last `left` characters begin. -/
def Ahead.IsShut (left : Nat) (a : Ahead) : Prop :=
  ∀ k, (a.terminal, k) ∈ chunkTerminals →
    ∀ s ∈ itemsOf k (a.word ++ a.rest) (a.word ++ a.rest), ¬ IsOpen left s

/-- A token that ends before a brace or is one, and the same with `y'` in the place of `y` behind the
brace. -/
inductive Ahead.Refilled (y y' : List Char) : Ahead → Ahead → Prop
  | before {t w u} : Refilled y y' ⟨t, w, u ++ '\x7b' :: y⟩ ⟨t, w, u ++ '\x7b' :: y'⟩
  | brace : Refilled y y' ⟨.leftBrace, ['\x7b'], y⟩ ⟨.leftBrace, ['\x7b'], y'⟩

theorem Ahead.Refilled.eq_of_append {y y' w r : List Char} {t : Terminal} {a' : Ahead}
    (h : Refilled y y' ⟨t, w, r ++ y⟩ a') : a' = ⟨t, w, r ++ y'⟩ := by
  generalize ha : (⟨t, w, r ++ y⟩ : Ahead) = a at h
  cases h with
  | @before t w u =>
    obtain ⟨rfl, rfl, hr⟩ := Ahead.mk.inj ha
    rw [List.append_cons u] at hr ⊢
    rw [List.append_cancel_right hr]
  | brace =>
    obtain ⟨rfl, rfl, hr⟩ := Ahead.mk.inj ha
    rw [List.append_left_eq_self.mp hr]
    rfl

namespace Scan

variable {A : TerminalSet} {v y y' : List Char}

/-! ## First characters of tokens -/

theorem head_of_scanExact {es : List Char} {c : Char} {s : Split} (hes : es ≠ [])
    (h : scanExact es (c :: y) = some s) : es.head? = some c := by
  cases es with
  | nil => exact absurd rfl hes
  | cons e es =>
    obtain ⟨-, htext⟩ := scanExact_eq_some h
    rw [(List.cons.inj htext).1]
    rfl

theorem matchTerminal_cons {c : Char} {t : Terminal} {s : Split}
    (h : matchTerminal A (c :: y) = some (t, s)) :
    scanName (c :: y) ≠ none ∨
      scanOperator (c :: y) = some s ∧ t = classifyOperator A s.1 ∨
      ∃ e ∈ Terminal.spelled, e.1 = t ∧ e.2.toList.head? = some c := by
  have hne : ∀ e ∈ Terminal.spelled, e.2.toList ≠ [] := by decide
  unfold matchTerminal at h
  rw [Option.orElse_eq_some, Option.orElse_eq_some] at h
  rcases h with h | ⟨-, h | ⟨-, h⟩⟩
  · unfold matchName at h
    split_ifs at h
    obtain ⟨s', hs', -⟩ := Option.map_eq_some_iff.mp h
    exact Or.inl (by simp [hs'])
  · unfold matchOperator at h
    split_ifs at h
    obtain ⟨s', hs', heq⟩ := Option.map_eq_some_iff.mp h
    cases heq
    exact Or.inr (Or.inl ⟨hs', rfl⟩)
  · obtain ⟨e, he, h⟩ := List.exists_of_findSome?_eq_some h
    split_ifs at h
    obtain ⟨s', hs', heq⟩ := Option.map_eq_some_iff.mp h
    exact Or.inr (Or.inr ⟨e, he, congrArg Prod.fst heq, head_of_scanExact (hne e he) hs'⟩)

theorem head_spelled : ∀ e ∈ Terminal.spelled, e.2.toList.head?.all fun c =>
    c != '"' && c != '\'' && c != '@' && c != '/' && (c != '[' || e.1 == .leftBracket) := by
  decide

theorem scanOperator_quotes (y : List Char) : scanOperator ('"' :: y) = none ∧
    scanOperator ('\'' :: y) = none ∧ scanOperator ('@' :: y) = none ∧
    scanOperator ('[' :: y) = none ∧ scanOperator ('/' :: y) = some (['/'], y) :=
  ⟨rfl, rfl, rfl, rfl, rfl⟩

theorem classifyOperator_slash : classifyOperator A ['/'] = .operatorSymbol := by
  have hnone : ∀ e ∈ Terminal.punctuation, (e.2.toList == ['/']) = false := by decide
  unfold classifyOperator
  rw [List.find?_eq_none.mpr fun e he => by simp [hnone e he]]

theorem ne_quote_of_matchTerminal {c : Char} {e : Terminal × Split}
    (h : matchTerminal A (c :: y) = some e) :
    c ≠ '"' ∧ c ≠ '\'' ∧ (c = '@' → y.head? ≠ some '"') := by
  obtain ⟨hdouble, hsingle, hat, -⟩ := scanOperator_quotes y
  have hspelled : ∀ {c : Char}, (∃ e' ∈ Terminal.spelled, e'.1 = e.1 ∧ e'.2.toList.head? = some c) →
      c ≠ '"' ∧ c ≠ '\'' ∧ c ≠ '@' := by
    rintro c ⟨e', he', -, hhead⟩
    have hsign := head_spelled e' he'
    rw [hhead] at hsign
    simp only [Option.all_some, Bool.and_eq_true, bne_iff_ne, ne_eq] at hsign
    exact ⟨hsign.1.1.1.1, hsign.1.1.1.2, hsign.1.1.2⟩
  have hcases := matchTerminal_cons h
  refine ⟨?_, ?_, ?_⟩
  · rintro rfl
    rcases hcases with h | ⟨h, -⟩ | h
    · exact h rfl
    · rw [hdouble] at h; cases h
    · exact (hspelled h).1 rfl
  · rintro rfl
    rcases hcases with h | ⟨h, -⟩ | h
    · exact h rfl
    · rw [hsingle] at h; cases h
    · exact (hspelled h).2.1 rfl
  · rintro rfl hhead
    rcases hcases with h | ⟨h, -⟩ | h
    · obtain ⟨u, rfl⟩ := List.head?_eq_some_iff.mp hhead
      exact h rfl
    · rw [hat] at h; cases h
    · exact (hspelled h).2.2 rfl

theorem eq_of_matchTerminal_slash {e : Terminal × Split}
    (h : matchTerminal A ('/' :: y) = some e) : e = (.operatorSymbol, ['/'], y) := by
  obtain ⟨-, -, -, -, hslash⟩ := scanOperator_quotes y
  rcases matchTerminal_cons h with h | ⟨h, ht⟩ | ⟨e', he', -, hhead⟩
  · exact absurd rfl h
  · rw [hslash] at h
    have hs : e.2 = (['/'], y) := (Option.some.inj h).symm
    rw [hs, classifyOperator_slash] at ht
    exact Prod.ext ht hs
  · have hsign := head_spelled e' he'
    rw [hhead] at hsign
    simp at hsign

theorem terminal_of_matchTerminal_bracket {e : Terminal × Split}
    (h : matchTerminal A ('[' :: y) = some e) : e.1 = .leftBracket := by
  obtain ⟨-, -, -, hbracket, -⟩ := scanOperator_quotes y
  rcases matchTerminal_cons h with h | ⟨h, -⟩ | ⟨e', he', heq, hhead⟩
  · exact absurd rfl h
  · rw [hbracket] at h; cases h
  · have hsign := head_spelled e' he'
    rw [hhead] at hsign
    simpa [heq] using hsign

/-! ## What is no token -/

theorem matchChunk_of_head {cs cs' : List Char} (hhead : cs.head? = cs'.head?)
    (hstops : ∀ k, scanItem k cs = none → cs.head?.any k.stops = true)
    (h : matchChunk A cs = none) : matchChunk A cs' = none := by
  refine List.findSome?_eq_none_iff.mpr fun e he => ?_
  have hnone := List.findSome?_eq_none_iff.mp h e he
  split_ifs at hnone ⊢
  · rw [Option.map_eq_none_iff, scanChunk_eq_none_iff] at hnone ⊢
    rw [← hhead]
    refine hnone.imp_right fun hitem => ?_
    have hstop := hstops e.2 hitem
    rw [hhead] at hstop
    cases cs' with
    | nil => cases hstop
    | cons c cs' => exact scanItem_of_stops (by simpa using hstop) cs'
  · rfl

/-- Where no ignored text begins there is none whatever stands behind a brace, unless a comment or an
attribute is open. -/
theorem scanIgnored_brace (h : scanIgnored (v ++ '\x7b' :: y) = none)
    (hslash : v.head? = some '/' → v.tail.head? ≠ some '*')
    (hbracket : v.head? = some '[' → ']' ∈ v.tail ++ '\x7b' :: y) :
    scanIgnored (v ++ '\x7b' :: y') = none := by
  cases v with
  | nil => rfl
  | cons c v =>
    by_cases hc : c = '['
    · subst hc
      exact scanProgramAttribute_brace h (hbracket rfl)
    by_cases hsign : c = '/'
    · subst hsign
      cases v with
      | nil => rfl
      | cons d v =>
        have hd : d ≠ '*' := fun hd => hslash rfl (by rw [hd]; rfl)
        have hdd : d ≠ '/' := by
          rintro rfl
          cases h
        simp [scanIgnored, hd, hdd, isLayout]
    · have hsharp : c ≠ '#' := by
        rintro rfl
        cases h
      simp only [List.cons_append, scanIgnored, hsign, imp_false, false_imp_iff, implies_true] at h ⊢
      split_ifs at h ⊢
      rfl

theorem stops_of_scanIgnored {k : Chunk} {cs : List Char} {s : Split}
    (hs : scanIgnored cs = some s) (h : scanItem k cs = none) :
    cs.head?.any k.stops = true := by
  cases cs with
  | nil => cases hs
  | cons c z =>
    rcases scanItem_eq_none h with ⟨rfl, hz⟩ | ⟨rfl, -⟩ | rfl | rfl | hstops
    · obtain ⟨z, rfl⟩ := List.head?_eq_some_iff.mp hz
      simp only [scanIgnored, scanItem] at hs h
      rw [h] at hs
      cases hs
    · cases hs
    · cases hs
    · cases hs
    · exact hstops

/-- Where a token is read and no item begins stands a sign at which the chunk stops, or a slash with a
star behind it. -/
theorem stops_of_matchTerminal {k : Chunk} {c : Char} {z : List Char} {e : Terminal × Split}
    (he : matchTerminal A (c :: z) = some e) (hslash : c = '/' → z.head? ≠ some '*')
    (h : scanItem k (c :: z) = none) : k.stops c = true := by
  obtain ⟨hdouble, hsingle, hat⟩ := ne_quote_of_matchTerminal he
  rcases scanItem_eq_none h with ⟨hc, hz⟩ | ⟨hc, hz⟩ | hc | hc | hstops
  · exact absurd hz (hslash hc)
  · exact absurd hz (hat hc)
  · exact absurd hc hdouble
  · exact absurd hc hsingle
  · exact hstops

/-- Where chunks of one kind have an item and those of another have none, they have none with other text
behind the item either, unless it becomes a literal. -/
theorem scanItem_none_append {k k' : Chunk} {cs r : List Char} {s : Split}
    (hs : scanItem k' cs = some s)
    (hlone : ∀ q, s.1 = [q] → q = '"' ∨ q = '\'' → scanLiteralEnd q r = none)
    (h : scanItem k cs = none) : scanItem k (s.1 ++ r) = none := by
  cases cs with
  | nil => cases hs
  | cons c cs =>
    have hquote : c = '"' ∨ c = '\'' → scanItem k (s.1 ++ r) = none := by
      intro hc
      rw [scanItem_quote hc] at hs h
      cases hend : scanLiteralEnd c cs with
      | some s' => rw [hend] at h; cases h
      | none =>
        rw [hend] at hs h
        split_ifs at hs h with hk' hk
        · cases hs
          rw [List.singleton_append, scanItem_quote hc, hlone c rfl hc]
          simp [hk]
    rcases scanItem_eq_none h with ⟨rfl, hz⟩ | ⟨rfl, hz⟩ | hc | hc | hstops
    · obtain ⟨z, rfl⟩ := List.head?_eq_some_iff.mp hz
      simp only [scanItem] at hs h
      rw [h] at hs
      cases hs
    · obtain ⟨z, rfl⟩ := List.head?_eq_some_iff.mp hz
      simp only [scanItem] at hs h
      rw [h] at hs
      cases hs
    · exact hquote (Or.inl hc)
    · exact hquote (Or.inr hc)
    · have hdivides := divides_scanItem _ _ _ hs
      obtain ⟨c', w, hw⟩ := List.exists_cons_of_ne_nil (ne_nil_of_scanItem hs)
      rw [hw, List.cons_append] at hdivides
      obtain rfl := (List.cons.inj hdivides).1
      rw [hw]
      exact scanItem_of_stops hstops _

/-! ## Tokens -/

theorem chunkTerminals_unique : ∀ e ∈ chunkTerminals, ∀ e' ∈ chunkTerminals, e.1 = e'.1 → e = e' := by
  decide

/-- **A chunk is read with other text behind it** if its items are, and none begins with that text. -/
theorem matchChunk_exchange {cs w r r' : List Char} {t : Terminal} {k : Chunk}
    (h : matchChunk A cs = some (t, w, r)) (hk : (t, k) ∈ chunkTerminals)
    (hitem : ∀ s ∈ itemsOf k cs cs, ∀ u, s.2 = u ++ r →
      scanItem k (s.1 ++ (u ++ r')) = some (s.1, u ++ r'))
    (hend : scanItem k r' = none) : matchChunk A (w ++ r') = some (t, w, r') := by
  obtain ⟨e, he, hfound⟩ := List.exists_of_findSome?_eq_some h
  split_ifs at hfound with hadmitted
  obtain ⟨s, hscan, heq⟩ := Option.map_eq_some_iff.mp hfound
  obtain ⟨hterminal, rfl⟩ := Prod.mk.inj heq
  obtain rfl : e = (t, k) := chunkTerminals_unique e he _ hk hterminal
  obtain ⟨hblank, hitems, hne⟩ := scanChunk_eq_some_iff.mp hscan
  have hhead : (w ++ r').head? = cs.head? := by
    obtain ⟨c, w, rfl⟩ := List.exists_cons_of_ne_nil hne
    rw [hitems.divides]
    rfl
  refine findSome?_eq_of h (fun e he hnone => ?_) fun e he' hsome => ?_
  · split_ifs at hnone ⊢
    · rw [Option.map_eq_none_iff, scanChunk_eq_none_iff] at hnone ⊢
      rw [hhead]
      refine hnone.imp_right fun hnone => ?_
      generalize hs : (w, r) = s at hitems
      cases hitems with
      | nil => exact absurd (congrArg Prod.fst hs) hne
      | @cons _ first rest hfirst hrest =>
        obtain ⟨rfl, hr⟩ := Prod.mk.inj hs
        -- the first item is one that is read with the other text behind it
        have hnext := hitem first (mem_itemsOf (Nat.le_refl _) hfirst) rest.1
          (by rw [hrest.divides, ← hr])
        rw [List.append_assoc]
        refine scanItem_none_append hfirst (fun q htaken hq => ?_) hnone
        rw [htaken] at hnext
        exact (lone_of_scanItem hq hnext).1
    · rfl
  · split_ifs at hsome with hadmitted'
    obtain ⟨s, -, heq⟩ := Option.map_eq_some_iff.mp hsome
    obtain rfl : e = (t, k) := chunkTerminals_unique e he' _ hk (Prod.mk.inj heq).1
    have hscan' : scanChunk k (w ++ r') = some (w, r') :=
      scanChunk_eq_some_iff.mpr ⟨by rwa [hhead], hitems.exchange (Nat.le_refl _) hitem hend, hne⟩
    rw [if_pos hadmitted, hscan']
    rfl

theorem Lexes.divides {cs : List Char} {a : Ahead} (h : Lexes A cs a) :
    ∃ gap, cs = gap ++ (a.word ++ a.rest) := by
  induction h with
  | chunk h => exact ⟨[], divides_matchChunk h⟩
  | skip _ hignored _ ih =>
    obtain ⟨gap, hgap⟩ := ih
    exact ⟨_, by rw [divides_scanIgnored _ _ hignored, hgap, List.append_assoc]⟩
  | terminal _ _ h => exact ⟨[], divides_matchTerminal h⟩
  | atEnd => exact ⟨[], rfl⟩

/-- **A token that ends before a brace is read whatever stands behind the brace**, if what follows it
ends it and it is no chunk with an open item. -/
theorem Lexes.refill {cs : List Char} {a a' : Ahead} (h : Lexes A cs a)
    (hcs : cs = v ++ '\x7b' :: y) (ha : a.Refilled y y' a') (hfirm : a.IsFirm)
    (hshut : a.IsShut (y.length + 1)) : Lexes A (v ++ '\x7b' :: y') a' := by
  have hhead : ∀ {v z : List Char}, (v ++ '\x7b' :: z).head? = (v ++ ['\x7b']).head? := by
    intro v z
    cases v <;> rfl
  induction h generalizing v with
  | @chunk cs t s h =>
    obtain ⟨w, r⟩ := s
    subst hcs
    have hfound := List.exists_of_findSome?_eq_some h
    obtain ⟨⟨t, k⟩, he, hfound⟩ := hfound
    split_ifs at hfound with hadmitted
    obtain ⟨s, hscan, heq⟩ := Option.map_eq_some_iff.mp hfound
    cases heq
    cases ha with
    | brace =>
      have hno : ∀ e ∈ chunkTerminals, e.1 ≠ .leftBrace := by decide
      exact absurd rfl (hno _ he)
    | @before _ _ u =>
      have hdivides : v ++ '\x7b' :: y = w ++ (u ++ '\x7b' :: y) := divides_matchChunk h
      have hv : v = w ++ u := by
        rw [← List.append_assoc] at hdivides
        exact List.append_cancel_right hdivides
      have hopen := hshut k he
      rw [show w ++ u.append ('\x7b' :: y) = v ++ '\x7b' :: y from hdivides.symm] at hopen
      have hend : (u ++ ['\x7b']).head?.any k.stops = true := by
        rw [← hhead]
        exact hfirm.chunk k he (scanChunk_eq_some_iff.mp hscan).2.1.ends
      have hstop : scanItem k (u ++ '\x7b' :: y') = none := by
        cases u with
        | nil => exact scanItem_of_stops (by simpa using hend) _
        | cons c u => exact scanItem_of_stops (by simpa using hend) _
      have hchunk : matchChunk A (w ++ (u ++ '\x7b' :: y')) = some (_, w, u ++ '\x7b' :: y') :=
        matchChunk_exchange h he (fun s hs x hx => ?_) hstop
      · rw [hv, List.append_assoc]
        exact .chunk hchunk
      obtain ⟨cs, hitem⟩ := exists_of_mem_itemsOf hs
      have hx : s.2 = x ++ u ++ '\x7b' :: y := by rw [hx, List.append_assoc]; rfl
      rw [← List.append_assoc x]
      exact scanItem_brace hitem hx (hopen s hs) y'
  | @skip cs s a hchunk hignored hlexes ih =>
    obtain ⟨u, hu⟩ : ∃ u, s.2 = u ++ '\x7b' :: y := by
      obtain ⟨gap, hgap⟩ := hlexes.divides
      cases ha with
      | before => exact ⟨_, by rw [hgap, ← List.append_assoc, ← List.append_assoc]⟩
      | brace => exact ⟨gap, hgap⟩
    have hv : v = s.1 ++ u := by
      have hsplit := divides_scanIgnored _ _ hignored
      rw [hcs, hu, ← List.append_assoc] at hsplit
      exact List.append_cancel_right hsplit
    have hignored' := scanIgnored_append hignored
      (show s.2.head? = (u ++ '\x7b' :: y').head? by rw [hu, hhead, ← hhead])
    subst hcs
    refine .skip (matchChunk_of_head (hhead.trans hhead.symm) (fun k hk => ?_) hchunk)
      (s := (s.1, u ++ '\x7b' :: y')) ?_ (ih hu ha hfirm hshut)
    · exact stops_of_scanIgnored hignored hk
    · rwa [hv, List.append_assoc]
  | @terminal cs t s hchunk hignored hterminal =>
    subst hcs
    have hbrace := matchTerminal_brace A v y
    rw [hterminal, eq_comm, Option.map_eq_some_iff] at hbrace
    obtain ⟨e, he, heq⟩ := hbrace
    cases heq
    have hterminal' : matchTerminal A (v ++ '\x7b' :: y') = some (e.1, e.2.1, e.2.2 ++ y') := by
      rw [matchTerminal_brace, he]
      rfl
    have hslash : ∀ {z : List Char}, v ++ '\x7b' :: y = '/' :: z → z.head? ≠ some '*' := by
      intro z hz
      rw [hz] at hterminal
      have heq := eq_of_matchTerminal_slash hterminal
      have hs : followed y e.2 = (['/'], z) := congrArg Prod.snd heq
      rw [hs] at hfirm
      exact hfirm.slash (congrArg Prod.fst heq) rfl
    have hchunk' : matchChunk A (v ++ '\x7b' :: y') = none := by
      refine matchChunk_of_head (hhead.trans hhead.symm) (fun k hk => ?_) hchunk
      cases hcs : v ++ '\x7b' :: y with
      | nil => simp at hcs
      | cons c z =>
        rw [hcs] at hterminal hk
        exact stops_of_matchTerminal hterminal (fun hc => hslash (hc ▸ hcs)) hk
    have hignored' : scanIgnored (v ++ '\x7b' :: y') = none := by
      refine scanIgnored_brace hignored (fun hv hstar => ?_) fun hv => ?_
      · obtain ⟨u, rfl⟩ := List.head?_eq_some_iff.mp hv
        refine hslash rfl ?_
        obtain ⟨z, hz⟩ := List.head?_eq_some_iff.mp hstar
        rw [show u = '*' :: z from hz]
        rfl
      · obtain ⟨u, rfl⟩ := List.head?_eq_some_iff.mp hv
        have hclosed := hfirm.bracket
          (terminal_of_matchTerminal_bracket (e := (e.1, followed y e.2)) hterminal)
        have hmem : ']' ∈ ('[' :: u) ++ '\x7b' :: y := by
          rw [divides_matchTerminal hterminal]
          exact List.mem_append_right _ hclosed
        simpa using hmem
    rw [ha.eq_of_append]
    exact .terminal hchunk' hignored' hterminal'
  | atEnd => simp at hcs

end Scan

end Facade
