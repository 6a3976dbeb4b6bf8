import Facade.Proofs.Grammar.Around

/-!
# The text of a block

Text whose braces are balanced when literals and comments are skipped from left to right is read as what
a block holds.

* `Scan.BracesBalanced`: such text, no literal or comment of which is left open;
* **`Scan.BracesBalanced.items`**: it is a chunk up to its first brace;
* `Pattern.ReadsItems.cons`, `Pattern.ReadsItems.braces`: things that stand in a block one after the
  other, and a block of them;
* `Pattern.exists_readsItems`, **`Pattern.readsBlock_of_balanced`**: between braces balanced text is
  read as a block.
-/

namespace Facade

open Text

namespace Scan

/-! ## BracesBalanced text -/

/-- What stands between the quotes of a literal of one line. -/
inductive InLiteral (q : Char) : List Char → Prop
  | nil : InLiteral q []
  | char {c cs} : c ≠ q → c ≠ '\\' → c ≠ '\n' → InLiteral q cs → InLiteral q (c :: cs)
  | escape {c cs} : c ≠ '\n' → InLiteral q cs → InLiteral q ('\\' :: c :: cs)

/-- What stands between the quotes of a verbatim literal: a quote is written twice. -/
inductive InVerbatim : List Char → Prop
  | nil : InVerbatim []
  | char {c cs} : c ≠ '"' → InVerbatim cs → InVerbatim (c :: cs)
  | quote {cs} : InVerbatim cs → InVerbatim ('"' :: '"' :: cs)

/-- The character opens no literal, comment or block before this text, and closes none. -/
structure IsOrdinary (c : Char) (behind : List Char) : Prop where
  quote : c ≠ '"' ∧ c ≠ '\''
  brace : c ≠ '\x7b' ∧ c ≠ '\x7d'
  comment : c = '/' → behind.head? ≠ some '/' ∧ behind.head? ≠ some '*'
  verbatim : c = '@' → behind.head? ≠ some '"'

/-- The braces of the text are balanced when literals and comments are skipped from left to right, and
none of these is left open. -/
inductive BracesBalanced : List Char → Prop
  | nil : BracesBalanced []
  | char {c cs} : IsOrdinary c cs → BracesBalanced cs → BracesBalanced (c :: cs)
  | literal {q inner cs} : q = '"' ∨ q = '\'' → InLiteral q inner → BracesBalanced cs →
      BracesBalanced (q :: (inner ++ q :: cs))
  | verbatim {inner cs} : InVerbatim inner → cs.head? ≠ some '"' → BracesBalanced cs →
      BracesBalanced ('@' :: '"' :: (inner ++ '"' :: cs))
  | line {inner cs} : '\n' ∉ inner → BracesBalanced ('\n' :: cs) →
      BracesBalanced ('/' :: '/' :: (inner ++ '\n' :: cs))
  | comment {inner cs} : ¬ ['*', '/'] <:+: inner → BracesBalanced cs →
      BracesBalanced ('/' :: '*' :: (inner ++ '*' :: '/' :: cs))
  | block {inner cs} : BracesBalanced inner → BracesBalanced cs →
      BracesBalanced ('\x7b' :: (inner ++ '\x7d' :: cs))

theorem BracesBalanced.plain {w cs : List Char}
    (hw : (w.all fun c => c ∉ ['"', '\'', '\x7b', '\x7d', '/', '@']) = true) (h : BracesBalanced cs) :
    BracesBalanced (w ++ cs) := by
  induction w with
  | nil => exact h
  | cons c w ih =>
    simp only [List.all_cons, Bool.and_eq_true, decide_eq_true_eq, List.mem_cons, List.not_mem_nil,
      or_false, not_or] at hw
    obtain ⟨⟨hdouble, hsingle, hopen, hclose, hslash, hat⟩, hw⟩ := hw
    exact .char ⟨⟨hdouble, hsingle⟩, ⟨hopen, hclose⟩, fun hc => absurd hc hslash,
      fun hc => absurd hc hat⟩ (ih (by simpa using hw))

/-! ## Items -/

theorem InLiteral.scan {q : Char} (hq : q ≠ '\\') {inner : List Char} (h : InLiteral q inner)
    (r : List Char) : scanLiteralEnd q (inner ++ q :: r) = some (inner ++ [q], r) := by
  induction h with
  | nil =>
    cases r with
    | nil => simp [scanLiteralEnd, hq]
    | cons d r => simp [scanLiteralEnd, hq]
  | @char c cs hquote hbackslash hline _ ih =>
    simp [scanLiteralEnd, hquote, hbackslash, hline, ih, prepend]
  | @escape c cs hline _ ih => simp [scanLiteralEnd, hline, ih, prepend]

theorem InVerbatim.scan {inner : List Char} (h : InVerbatim inner) {r : List Char}
    (hr : r.head? ≠ some '"') : scanVerbatimEnd (inner ++ '"' :: r) = some (inner ++ ['"'], r) := by
  induction h with
  | nil =>
    cases r with
    | nil => rfl
    | cons c r =>
      have hc : c ≠ '"' := fun h => hr (by rw [h]; rfl)
      simp [scanVerbatimEnd, hc]
  | @char c cs hc _ ih => simp [scanVerbatimEnd, hc, ih, prepend]
  | @quote cs _ ih => simp [scanVerbatimEnd, ih, prepend]

theorem scanCommentEnd_of_not_infix {inner : List Char} (h : ¬ ['*', '/'] <:+: inner)
    (r : List Char) : scanCommentEnd (inner ++ '*' :: '/' :: r) = some (inner ++ ['*', '/'], r) := by
  induction inner with
  | nil => rfl
  | cons c inner ih =>
    have hrest : ¬ ['*', '/'] <:+: inner := fun hinfix =>
      h (List.IsInfix.trans hinfix (List.infix_cons (List.infix_refl inner)))
    have hopen : ∀ z, c = '*' → inner ++ '*' :: '/' :: r = '/' :: z → False := by
      rintro z rfl hz
      cases inner with
      | nil => cases hz
      | cons d inner =>
        obtain rfl : d = '/' := (List.cons.inj hz).1
        exact h ⟨[], inner, rfl⟩
    rw [List.cons_append, scanCommentEnd.eq_2 c _ hopen, ih hrest]
    rfl

/-! ## The chunk at the beginning of a block's text -/

/-- Text that is empty or begins with a block. -/
inductive OpensBlock : List Char → Prop
  | nil : OpensBlock []
  | block {inner cs} : BracesBalanced inner → BracesBalanced cs → OpensBlock ('\x7b' :: (inner ++ '\x7d' :: cs))

/-- The items at the beginning of the text, before the brace behind it, are this much of it. -/
def BeginsWithItems (text items rest : List Char) : Prop :=
  text = items ++ rest ∧ ∀ z, Items .inBody (text ++ '\x7d' :: z) (items, rest ++ '\x7d' :: z)

theorem BeginsWithItems.item {w text items rest : List Char} (h : BeginsWithItems text items rest)
    (hitem : ∀ z, scanItem .inBody (w ++ (text ++ '\x7d' :: z)) = some (w, text ++ '\x7d' :: z)) :
    BeginsWithItems (w ++ text) (w ++ items) rest := by
  obtain ⟨htext, hitems⟩ := h
  refine ⟨by rw [htext, List.append_assoc], fun z => ?_⟩
  rw [List.append_assoc]
  exact .cons (hitem z) (hitems z)

theorem beginsWithItems_nil {text : List Char}
    (h : ∀ z, ∃ c cs, text ++ '\x7d' :: z = c :: cs ∧ Chunk.inBody.stops c = true) :
    BeginsWithItems text [] text := by
  refine ⟨rfl, fun z => .nil ?_⟩
  obtain ⟨c, cs, htext, hc⟩ := h z
  rw [htext]
  exact scanItem_of_stops hc cs

theorem IsOrdinary.scan {c : Char} {cs : List Char} (h : IsOrdinary c cs) (z : List Char) :
    scanItem .inBody (c :: (cs ++ '\x7d' :: z)) = some ([c], cs ++ '\x7d' :: z) := by
  have hhead : ∀ d : Char, d ≠ '\x7d' → cs.head? ≠ some d → (cs ++ '\x7d' :: z).head? ≠ some d := by
    intro d hd hcs
    cases cs with
    | nil => simpa using Ne.symm hd
    | cons c cs => simpa using hcs
  have hstops : Chunk.inBody.stops c = false := by simp [Chunk.stops, h.brace]
  rw [scanItem_cons, if_neg (by simp [h.quote]), hstops, if_neg Bool.false_ne_true]
  · exact fun hc => ⟨hhead _ (by decide) (h.comment hc).1, hhead _ (by decide) (h.comment hc).2⟩
  · exact fun hc => hhead _ (by decide) (h.verbatim hc)

/-- **BracesBalanced text is a chunk up to its first brace**, be that its own or the one behind it. -/
theorem BracesBalanced.items {text : List Char} (h : BracesBalanced text) :
    ∃ items rest, BeginsWithItems text items rest ∧ OpensBlock rest := by
  induction h with
  | nil => exact ⟨[], [], beginsWithItems_nil fun z => ⟨_, _, rfl, rfl⟩, .nil⟩
  | @char c cs hc _ ih =>
    obtain ⟨items, rest, hitems, hrest⟩ := ih
    exact ⟨_, rest, hitems.item (w := [c]) hc.scan, hrest⟩
  | @literal q inner cs hq hinner _ ih =>
    obtain ⟨items, rest, hitems, hrest⟩ := ih
    have hslash : q ≠ '\\' ∧ q ≠ '/' ∧ q ≠ '@' := by rcases hq with rfl | rfl <;> decide
    have htext : q :: (inner ++ q :: cs) = (q :: (inner ++ [q])) ++ cs := by simp
    rw [htext]
    refine ⟨_, rest, hitems.item fun z => ?_, hrest⟩
    have hend := hinner.scan hslash.1 (cs ++ '\x7d' :: z)
    simp only [List.cons_append, List.append_assoc, List.nil_append]
    rw [scanItem_cons (fun h => absurd h hslash.2.1) (fun h => absurd h hslash.2.2), if_pos hq, hend]
    rfl
  | @verbatim inner cs hinner hquote _ ih =>
    obtain ⟨items, rest, hitems, hrest⟩ := ih
    have htext : '@' :: '"' :: (inner ++ '"' :: cs) = ('@' :: '"' :: (inner ++ ['"'])) ++ cs := by
      simp
    rw [htext]
    refine ⟨_, rest, hitems.item fun z => ?_, hrest⟩
    have hend := hinner.scan (r := cs ++ '\x7d' :: z) (by cases cs <;> simp_all)
    simp [scanItem, hend, prepend]
  | @line inner cs hinner _ ih =>
    obtain ⟨items, rest, hitems, hrest⟩ := ih
    refine ⟨_, rest, hitems.item (w := '/' :: '/' :: inner) fun z => ?_, hrest⟩
    have hwhile := scanWhile_append_of (p := (· != '\n')) (u := inner)
      (v := '\n' :: cs ++ '\x7d' :: z) (fun c hc => by
        have hne : c ≠ '\n' := fun h => hinner (h ▸ hc)
        simpa using hne) (by simp)
    simp only [List.cons_append] at hwhile ⊢
    simp [scanItem, hwhile, prepend]
  | @comment inner cs hinner _ ih =>
    obtain ⟨items, rest, hitems, hrest⟩ := ih
    have htext : '/' :: '*' :: (inner ++ '*' :: '/' :: cs) =
        ('/' :: '*' :: (inner ++ ['*', '/'])) ++ cs := by simp
    rw [htext]
    refine ⟨_, rest, hitems.item fun z => ?_, hrest⟩
    have hend := scanCommentEnd_of_not_infix hinner (cs ++ '\x7d' :: z)
    simp [scanItem, hend, prepend]
  | block hinner hcs => exact ⟨[], _, beginsWithItems_nil fun z => ⟨_, _, rfl, rfl⟩, .block hinner hcs⟩

theorem BracesBalanced.of_gap {gap text : List Char} (h : BracesBalanced (gap ++ text)) (hgap : isGap gap) :
    BracesBalanced text := by
  induction gap with
  | nil => exact h
  | cons c gap ih =>
    obtain ⟨hc, hgap⟩ := (Bool.and_eq_true _ _).mp hgap
    have hne : ∀ d : Char, isLayout d = false → d ≠ c := by
      rintro d hd rfl
      rw [hd] at hc
      cases hc
    generalize htext : c :: gap ++ text = cs at h
    cases h with
    | nil => cases htext
    | char _ hcs =>
      obtain ⟨-, rfl⟩ := List.cons.inj htext
      exact ih hcs hgap
    | literal hq =>
      obtain ⟨rfl, -⟩ := List.cons.inj htext
      rcases hq with rfl | rfl <;> exact absurd hc (by decide)
    | verbatim | line | comment | block =>
      obtain ⟨rfl, -⟩ := List.cons.inj htext
      exact absurd hc (by decide)

/-! ## Tokens in a block -/

/-- What may come next in a block. -/
def inBlock : TerminalSet := .ofList [.bodyChunk, .leftBrace, .rightBrace]

theorem matchChunk_inBlock (cs : List Char) :
    matchChunk inBlock cs = (scanChunk .inBody cs).map fun s => (.bodyChunk, s) :=
  matchChunk_of_only (by decide) (by decide) (by decide) cs

theorem lexes_brace {t : Terminal} {c : Char}
    (h : (t, c) = (.leftBrace, '\x7b') ∨ (t, c) = (.rightBrace, '\x7d')) (cs : List Char) :
    Lexes inBlock (c :: cs) ⟨t, [c], cs⟩ := by
  have hsign : (t, c) ∈ plainSigns ∧ t ∈ inBlock ∧ Chunk.inBody.stops c = true := by
    rcases h with h | h <;> cases h <;> decide
  obtain ⟨hmem, ht, hstops⟩ := hsign
  refine lexes_stop hmem ht (by decide) (by decide) ?_
  rw [matchChunk_inBlock, scanChunk_eq_none_iff.mpr (Or.inr (scanItem_of_stops hstops cs))]
  rfl

end Scan

namespace Pattern

open Scan

/-! ## Reading -/

variable {source : List Char}

/-- One thing that stands in a block. -/
def blockItem : Pattern := alt (token .bodyChunk) (rule .nestedBlock)

/-- The brace that ends a block. -/
def closing (rest : List Char) : Ahead := ⟨.rightBrace, ['\x7d'], rest⟩

theorem mem_blockItem : Terminal.bodyChunk ∈ blockItem.first ∧ .leftBrace ∈ blockItem.first ∧
    .rightBrace ∉ blockItem.first := by
  decide

/-- What stands in a block from here on is read up to the brace that ends the block. -/
def ReadsItems (source : List Char) (a : Ahead) (rest : List Char) : Prop :=
  a = closing rest ∨ a.terminal ∈ blockItem.first ∧ (plus inBlock blockItem).Takes source
    (.single .rightBrace) a (closing rest) [] fun _ => True

/-- One more thing stands before what is read. -/
theorem ReadsItems.cons {a b : Ahead} {rest : List Char} (ha : a.terminal ∈ blockItem.first)
    (h : blockItem.Takes source inBlock a b [] fun _ => True) (hb : ReadsItems source b rest) :
    ReadsItems source a rest := by
  refine Or.inr ⟨ha, ?_⟩
  rcases hb with rfl | ⟨hb, hmore⟩
  · exact .once h (TerminalSet.mem_single.mpr rfl) mem_blockItem.2.2
  · exact .more h hb fun _ _ => hmore.behind.weaken fun _ _ => trivial

/-- Between braces they are read as a block, or as one in a block. -/
theorem ReadsItems.braces {a b : Ahead} {text rest : List Char} {after : TerminalSet}
    (h : ReadsItems source a rest) (hlexes : Lexes inBlock text a) (hb : Lexes after rest b) :
    (seq (token .leftBrace) (seq blockItems (token .rightBrace))).Takes source after
      ⟨.leftBrace, ['\x7b'], text⟩ b [] fun inner => (Tree.cover inner).isSome := by
  have hadmits : (seq blockItems (token .rightBrace)).admits after = inBlock := rfl
  have hcover : ∀ (t u : Token) (news : List Tree),
      (Tree.cover ((.leaf t :: news) ++ [.leaf u])).isSome := by
    intro t u news
    simp only [Tree.cover, List.getLast?_concat]
    rfl
  have hitems : blockItems.Takes source (.single .rightBrace) a (closing rest) [] fun _ => True := by
    rcases h with rfl | ⟨ha, htakes⟩
    · exact .none mem_blockItem.2.2 trivial
    · exact .some ha htakes
  refine .cons rfl (hadmits ▸ hlexes) (.andThen hitems fun news _ => ?_)
  exact .token rfl hb (hcover _ _ news)

/-- **BracesBalanced text is read** up to the brace behind it, if all its white space may stand between
tokens. -/
theorem exists_readsItems (source : List Char) {text : List Char} (h : BracesBalanced text)
    (hlayout : ∀ c ∈ text, isBlank c → isLayout c) (rest : List Char) :
    ∃ a, Lexes inBlock (text ++ '\x7d' :: rest) a ∧ ReadsItems source a rest := by
  induction hn : text.length using Nat.strong_induction_on generalizing text rest with
  | _ n ih =>
    subst hn
    obtain ⟨gap, begun, hgap, rfl, hbegun⟩ : ∃ gap begun, isGap gap ∧ text = gap ++ begun ∧
        ∀ c ∈ begun.head?, isLayout c = false :=
      ⟨text.takeWhile isLayout, text.dropWhile isLayout, List.all_takeWhile,
        List.takeWhile_append_dropWhile.symm, fun c hc => by
          have hnot := List.head?_dropWhile_not isLayout text
          rw [hc] at hnot
          simpa using hnot⟩
    obtain ⟨items, left, ⟨rfl, hitems⟩, hleft⟩ := (h.of_gap hgap).items
    -- What is behind the first chunk: the end, or a block in this one.
    obtain ⟨b, hlexes, hreads⟩ : ∃ b, Lexes inBlock (left ++ '\x7d' :: rest) b ∧
        ReadsItems source b rest := by
      cases hleft with
      | nil => exact ⟨_, lexes_brace (Or.inr rfl) rest, Or.inl rfl⟩
      | @block inner cs hinner hcs =>
        obtain ⟨a₁, hlexes₁, hreads₁⟩ := ih inner.length (by simp; omega) hinner
          (fun c hc => hlayout c (by simp [hc])) (cs ++ '\x7d' :: rest) rfl
        obtain ⟨a₂, hlexes₂, hreads₂⟩ := ih cs.length (by simp; omega) hcs
          (fun c hc => hlayout c (by simp [hc])) rest rfl
        have htext : '\x7b' :: (inner ++ '\x7d' :: cs) ++ '\x7d' :: rest =
            '\x7b' :: (inner ++ '\x7d' :: (cs ++ '\x7d' :: rest)) := by simp
        rw [htext]
        have hchunk : Terminal.leftBrace ∉ (token .bodyChunk).first := by decide
        have hfollow : a₂.terminal ∈ inBlock := by
          have hclosing : Terminal.rightBrace ∈ inBlock := by decide
          rcases hreads₂ with rfl | ⟨ha₂, -⟩
          · exact hclosing
          · exact TerminalSet.mem_of_isWithin (a := blockItem.first) (by decide) ha₂
        refine ⟨_, lexes_brace (Or.inl rfl) _, .cons mem_blockItem.2.1
          (.right hchunk (.rule ?_ hfollow)) hreads₂⟩
        exact (hreads₁.braces hlexes₁ hlexes₂).weaken fun _ _ => trivial
    cases items with
    | nil =>
      refine ⟨b, ?_, hreads⟩
      rw [List.append_assoc]
      exact hlexes.gap hgap
    | cons c items =>
      have hc : isLayout c = false := hbegun c (by simp)
      have hblank : isBlank c = false := by
        by_contra hblank
        rw [hlayout c (by simp) (by simpa using hblank)] at hc
        cases hc
      have hchunk := scanChunk_eq_some_iff.mpr ⟨by simpa using hblank, hitems rest, by simp⟩
      refine ⟨⟨.bodyChunk, c :: items, left ++ '\x7d' :: rest⟩, ?_,
        .cons mem_blockItem.1 (.left (TerminalSet.mem_single.mpr rfl) (.token rfl hlexes trivial))
          hreads⟩
      rw [List.append_assoc]
      refine Lexes.gap (.chunk (s := (c :: items, left ++ '\x7d' :: rest)) ?_) hgap
      rw [matchChunk_inBlock, hchunk]
      rfl

/-- **Between braces balanced text is read as a block**, if all its white space may stand between
tokens. -/
theorem readsBlock_of_balanced {text : List Char} (h : BracesBalanced text)
    (hlayout : ∀ c ∈ text, isBlank c → isLayout c) (before behind : List Char) :
    TakesBlock before (text ++ '\x7d' :: behind) behind := fun b hb => by
  obtain ⟨a, hlexes, hreads⟩ := exists_readsItems _ h hlayout behind
  exact hreads.braces hlexes hb

end Pattern

end Facade
