import Facade.Proofs.Grammar.Ahead
import Facade.Proofs.Grammar.Growth
import Facade.Proofs.Grammar.Nesting
import Facade.Syntax.OfTree

/-!
# Reading what is known to be written

What a pattern makes of a text, from the token that comes next at its beginning to the one that comes
next at its end.

* `Parser.Sees`, `Parser.Sees.take`: the state of a parser before a token, and taking it;
* `Pattern.Takes`: a pattern is read between two such tokens, with what holds of its parts;
* `Pattern.Takes.seq`, `Pattern.Takes.resume` and others: one rule for each form of pattern;
* `Rule.Accepts`: a text is read as a phrase before all that can follow it;
* **`Pattern.Takes.plus`**, `Pattern.Takes.many`: repetitions, by induction on what is repeated.
-/

namespace Facade

open Scan

/-! ## The parser before a token -/

/-- The place in a source from which on this text is left. -/
def Position.ofRest (source rest : List Char) : Position :=
  Position.start.after (source.take (source.length - rest.length))

theorem Position.after_ofRest {source u v : List Char} (h : u ++ v <:+ source) :
    (Position.ofRest source (u ++ v)).after u = .ofRest source v := by
  obtain ⟨before, rfl⟩ := h
  have hlong : (before ++ (u ++ v)).length - (u ++ v).length = before.length := by
    rw [List.length_append, Nat.add_sub_cancel]
  have hshort : (before ++ (u ++ v)).length - v.length = (before ++ u).length := by
    rw [← List.append_assoc, List.length_append, Nat.add_sub_cancel]
  rw [ofRest, ofRest, hlong, hshort, List.take_left, ← List.append_assoc, List.take_left,
    after_append]

/-- The token that comes next in a source. -/
def Ahead.token (source : List Char) (a : Ahead) : Token :=
  ⟨a.terminal, String.ofList a.word, ⟨.ofRest source (a.word ++ a.rest), .ofRest source a.rest⟩⟩

/-- The parser has read the token that comes next in the source, or it is at the end. -/
def Parser.Sees (source : List Char) (s : Parser) (a : Ahead) : Prop :=
  a = .atEnd ∧ s.lookahead = none ∨
    a.word ++ a.rest <:+ source ∧ s.lookahead = some (a.token source) ∧
      s.cursor = ⟨a.rest, .ofRest source a.rest⟩

namespace Scan

open Cursor

variable {admitted : TerminalSet} {source cs : List Char} {a : Ahead}

theorem length_of_scanIgnored {cs : List Char} {s : Split} (h : scanIgnored cs = some s) :
    s.2.length < cs.length := by
  have hlength := congrArg List.length (divides_scanIgnored _ _ h)
  have hne : s.1 ≠ [] := by
    unfold scanIgnored at h
    split at h
    · cases h; simp [prepend]
    · obtain ⟨s', -, rfl⟩ := Option.map_eq_some_iff.mp h; simp [prepend]
    · cases h; simp [prepend]
    · simp only [scanProgramAttribute, Option.bind_eq_bind, Option.bind_eq_some_iff,
        Option.some.injEq] at h
      obtain ⟨_, _, _, _, _, _, rfl⟩ := h
      simp
    · split_ifs at h
      cases h
      simp [prepend]
    · cases h
  have hpos := List.length_pos_iff.mpr hne
  rw [List.length_append] at hlength
  omega

theorem Lexes.next (h : Lexes admitted cs a) (hsource : cs <:+ source) {bound : List Char}
    (hbound : cs.length ≤ bound.length) :
    (a = .atEnd ∧ .endOfInput ∈ admitted ∧
      nextWithin admitted bound ⟨cs, .ofRest source cs⟩ = .atEnd) ∨
    (a.word ++ a.rest <:+ source ∧ nextWithin admitted bound ⟨cs, .ofRest source cs⟩ =
      .token (a.token source) ⟨a.rest, .ofRest source a.rest⟩) := by
  have hstands : ∀ {cs : List Char} {t : Terminal} {s : Split} {bound : List Char},
      (Cursor.mk cs (.ofRest source cs)).Stands admitted t s → cs <:+ source →
      cs.length ≤ bound.length → s.1 ++ s.2 <:+ source ∧
        nextWithin admitted bound ⟨cs, .ofRest source cs⟩ =
          .token (Ahead.token source ⟨t, s.1, s.2⟩) ⟨s.2, .ofRest source s.2⟩ := by
    intro cs t s bound hstands hsource hbound
    have hcs : cs = s.1 ++ s.2 := hstands.divides
    have hne : cs.isEmpty = false := by simp [hcs, hstands.ne_nil]
    have hposition := Position.after_ofRest (hcs ▸ hsource)
    cases bound with
    | nil => simp_all
    | cons b bound =>
      refine ⟨hcs ▸ hsource, ?_⟩
      rcases hstands with h | ⟨h₁, h₂, h₃⟩
      · simp only at h
        simp only [nextWithin, hne, h, Cursor.token, Cursor.past, Ahead.token]
        rw [hcs, hposition]
        rfl
      · simp only at h₁ h₂ h₃
        simp only [nextWithin, hne, h₁, h₂, h₃, Cursor.token, Cursor.past, Ahead.token]
        rw [hcs, hposition]
        rfl
  induction h generalizing bound with
  | chunk h => exact Or.inr (hstands (Or.inl h) hsource hbound)
  | terminal h₁ h₂ h₃ => exact Or.inr (hstands (Or.inr ⟨h₁, h₂, h₃⟩) hsource hbound)
  | @skip cs s a hchunk hignored _ ih =>
    have hcs := divides_scanIgnored _ _ hignored
    have hshorter := length_of_scanIgnored hignored
    have hne : cs.isEmpty = false := by
      cases cs with
      | nil => cases hignored
      | cons => rfl
    cases bound with
    | nil => simp_all
    | cons b bound =>
      have hstep : nextWithin admitted (b :: bound) ⟨cs, .ofRest source cs⟩ =
          nextWithin admitted bound ⟨s.2, .ofRest source s.2⟩ := by
        simp only [nextWithin, hne, hchunk, hignored, Cursor.past]
        rw [hcs, Position.after_ofRest (hcs ▸ hsource)]
        rfl
      rw [hstep]
      refine ih (List.IsSuffix.trans ⟨s.1, hcs.symm⟩ hsource) ?_
      rw [List.length_cons] at hbound
      omega
  | atEnd h =>
    refine Or.inl ⟨rfl, h, ?_⟩
    cases bound <;> rfl

theorem Lexes.read (h : Lexes admitted cs a) (hsource : cs <:+ source) (last : Position) :
    ∃ s, Parser.read ⟨cs, .ofRest source cs⟩ last admitted = .ok s ∧ s.Sees source a := by
  rcases h.next hsource (Nat.le_refl _) with ⟨ha, hend, hnext⟩ | ⟨hsuffix, hnext⟩
  · refine ⟨⟨none, ⟨[], .ofRest source cs⟩, last⟩, ?_, Or.inl ⟨ha, rfl⟩⟩
    simp only [Parser.read, Cursor.next, hnext, Parser.check, Parser.terminal, hend, if_true]
    rfl
  · refine ⟨⟨some (a.token source), ⟨a.rest, .ofRest source a.rest⟩,
      (a.token source).extent.start⟩, ?_, Or.inr ⟨hsuffix, rfl, rfl⟩⟩
    simp only [Parser.read, Cursor.next, hnext]

end Scan

namespace Parser.Sees

variable {source : List Char} {s : Parser} {a b : Ahead}

theorem terminal_eq (h : s.Sees source a) : s.terminal = a.terminal := by
  rcases h with ⟨rfl, h⟩ | ⟨-, h, -⟩ <;> simp only [Parser.terminal, h] <;> rfl

theorem check {expected : TerminalSet} (h : s.Sees source a) (ha : a.terminal ∈ expected) :
    s.check expected = .ok () := by
  rw [Parser.check, h.terminal_eq, if_pos ha]

/-- **Taking a token leads to the one that comes next.** -/
theorem take (h : s.Sees source a) (ha : a.terminal ≠ .endOfInput) {admitted : TerminalSet}
    (hb : Scan.Lexes admitted a.rest b) :
    ∃ s', s.take a.terminal admitted = .ok (a.token source, s') ∧ s'.Sees source b := by
  rcases h with ⟨rfl, -⟩ | ⟨hsuffix, hlookahead, hcursor⟩
  · exact absurd rfl ha
  · have hrest : a.rest <:+ source := List.IsSuffix.trans (List.suffix_append _ _) hsuffix
    obtain ⟨s', hread, hs'⟩ := hb.read hrest s.last
    refine ⟨s', ?_, hs'⟩
    simp only [Parser.take, hlookahead, hcursor, hread]
    rw [if_pos (show (a.token source).terminal = a.terminal from rfl)]
    rfl

end Parser.Sees

/-! ## The parts that are kept -/

@[simp] theorem Ahead.token_terminal (source : List Char) (a : Ahead) :
    (a.token source).terminal = a.terminal := rfl

@[simp] theorem Ahead.token_text (source : List Char) (a : Ahead) :
    (a.token source).text = String.ofList a.word := rfl

namespace Tree

@[simp] theorem isKept_leaf (r : Rule) (t : Token) :
    isKept r (leaf t) = (t.terminal.isNamed || r.keepsTokens) := rfl

@[simp] theorem isKept_node (r q : Rule) (parts : List Tree) (extent : Option Extent) :
    isKept r (node q parts extent) = true := rfl

@[simp] theorem isKept_phrase (r q : Rule) (parts : List Tree) :
    isKept r (q.node parts) = true := rfl

theorem words_append (parts parts' : List Tree) : words (parts ++ parts') = words parts ++ words parts' := by
  induction parts with
  | nil => rfl
  | cons t parts ih =>
    cases t with
    | leaf t => simp [words, ih]
    | node => simpa [words] using ih

end Tree

/-! ## Patterns between two tokens -/

namespace Pattern

variable (source : List Char)

/-- The pattern is read from the token `a` to the token `b`; the parts of its phrase, which were `pre`
before it, satisfy `Q` behind it. -/
def Takes (p : Pattern) (after : TerminalSet) (a b : Ahead) (pre : List Tree)
    (Q : List Tree → Prop) : Prop :=
  ∀ s, s.Sees source a → ∀ parts, ∃ post s',
    p.Reads after (pre.reverse ++ parts) s (post.reverse ++ parts) s' ∧ s'.Sees source b ∧ Q post

namespace Takes

variable {source : List Char} {p q : Pattern} {after : TerminalSet} {a b m : Ahead}
  {pre : List Tree} {Q R : List Tree → Prop}

theorem weaken (h : p.Takes source after a b pre R) (hQ : ∀ post, R post → Q post) :
    p.Takes source after a b pre Q := fun s hs parts => by
  obtain ⟨post, s', hreads, hs', hpost⟩ := h s hs parts
  exact ⟨post, s', hreads, hs', hQ post hpost⟩

/-- What is read does not depend on the parts further before it. -/
theorem frame {mid : List Tree} (h : p.Takes source after a b mid R) :
    p.Takes source after a b (pre ++ mid) fun post => ∃ new, R new ∧ post = pre ++ new :=
  fun s hs parts => by
    obtain ⟨new, s', hreads, hs', hnew⟩ := h s hs (pre.reverse ++ parts)
    refine ⟨pre ++ new, s', ?_, hs', new, hnew, rfl⟩
    simpa using hreads

theorem behind (h : p.Takes source after a b [] R) :
    p.Takes source after a b pre fun post => ∃ new, R new ∧ post = pre ++ new := by
  simpa using @frame source p after a b pre R [] h

theorem token {t : Terminal} (ha : a.terminal = t) (hb : Lexes after a.rest b)
    (hQ : Q (pre ++ [.leaf (a.token source)])) (ht : t ≠ .endOfInput := by decide) :
    (token t).Takes source after a b pre Q := fun s hs parts => by
  subst ha
  obtain ⟨s', htake, hs'⟩ := hs.take ht hb
  refine ⟨_, s', ?_, hs', hQ⟩
  rw [List.reverse_append]
  exact .token htake

theorem seq (hp : p.Takes source (q.admits after) a m pre R)
    (hq : ∀ mid, R mid → q.Takes source after m b mid Q) :
    (seq p q).Takes source after a b pre Q := fun s hs parts => by
  obtain ⟨mid, s₁, hreads, hs₁, hmid⟩ := hp s hs parts
  obtain ⟨post, s₂, hreads', hs₂, hpost⟩ := hq mid hmid s₁ hs₁ parts
  exact ⟨post, s₂, .seq hreads hreads', hs₂, hpost⟩

theorem andThen (hp : p.Takes source (q.admits after) a m [] R)
    (hq : ∀ new, R new → q.Takes source after m b (pre ++ new) Q) :
    (Pattern.seq p q).Takes source after a b pre Q := by
  refine seq hp.behind ?_
  rintro _ ⟨new, hnew, rfl⟩
  exact hq new hnew

theorem cons {t : Terminal} (ha : a.terminal = t) (hm : Lexes (q.admits after) a.rest m)
    (hq : q.Takes source after m b (pre ++ [.leaf (a.token source)]) Q)
    (ht : t ≠ .endOfInput := by decide) :
    (Pattern.seq (.token t) q).Takes source after a b pre Q :=
  seq (R := (· = pre ++ [.leaf (a.token source)])) (token ha hm rfl ht) fun _ h => h ▸ hq

theorem left (ha : a.terminal ∈ p.first) (h : p.Takes source after a b pre Q) :
    (alt p q).Takes source after a b pre Q := fun s hs parts => by
  obtain ⟨post, s', hreads, hs', hpost⟩ := h s hs parts
  exact ⟨post, s', .left (hs.terminal_eq ▸ ha) hreads, hs', hpost⟩

theorem right (ha : a.terminal ∉ p.first) (h : q.Takes source after a b pre Q) :
    (alt p q).Takes source after a b pre Q := fun s hs parts => by
  obtain ⟨post, s', hreads, hs', hpost⟩ := h s hs parts
  exact ⟨post, s', .right (hs.terminal_eq ▸ ha) hreads, hs', hpost⟩

theorem none (ha : a.terminal ∉ p.first) (hQ : Q pre) :
    (opt p).Takes source after a a pre Q := fun s hs _ =>
  ⟨pre, s, .none (hs.terminal_eq ▸ ha), hs, hQ⟩

theorem skip (ha : a.terminal ∉ p.first) (h : q.Takes source after a b pre Q) :
    (Pattern.seq (opt p) q).Takes source after a b pre Q :=
  seq (R := (· = pre)) (none ha rfl) fun _ hmid => hmid ▸ h

theorem some (ha : a.terminal ∈ p.first) (h : p.Takes source after a b pre Q) :
    (opt p).Takes source after a b pre Q := fun s hs parts => by
  obtain ⟨post, s', hreads, hs', hpost⟩ := h s hs parts
  exact ⟨post, s', .some (hs.terminal_eq ▸ ha) hreads, hs', hpost⟩

theorem once {repeated : TerminalSet} (h : p.Takes source repeated a b pre Q)
    (hafter : b.terminal ∈ after) (hb : b.terminal ∉ p.first) :
    (Pattern.plus repeated p).Takes source after a b pre Q := fun s hs parts => by
  obtain ⟨post, s', hreads, hs', hpost⟩ := h s hs parts
  have hcheck := hs'.check (TerminalSet.mem_union (a := p.first).mpr (Or.inr hafter))
  exact ⟨post, s', .once hreads hcheck (hs'.terminal_eq ▸ hb), hs', hpost⟩

theorem more {repeated : TerminalSet} (h : p.Takes source repeated a m pre R)
    (hm : m.terminal ∈ p.first)
    (hmore : ∀ mid, R mid → (Pattern.plus repeated p).Takes source after m b mid Q) :
    (Pattern.plus repeated p).Takes source after a b pre Q := fun s hs parts => by
  obtain ⟨mid, s₁, hreads, hs₁, hmid⟩ := h s hs parts
  obtain ⟨post, s₂, hreads', hs₂, hpost⟩ := hmore mid hmid s₁ hs₁ parts
  have hcheck := hs₁.check (TerminalSet.mem_union (b := after).mpr (Or.inl hm))
  exact ⟨post, s₂, .more hreads hcheck (hs₁.terminal_eq ▸ hm) hreads', hs₂, hpost⟩

theorem rule {r : Rule}
    (h : r.body.Takes source r.follow a b [] fun inner => Q (pre ++ [r.node inner]))
    (hb : b.terminal ∈ after) : (rule r).Takes source after a b pre Q := fun s hs parts => by
  obtain ⟨inner, s', hreads, hs', hinner⟩ := h s hs []
  simp only [List.reverse_nil, List.append_nil] at hreads
  refine ⟨_, s', ?_, hs', hinner⟩
  have hrule : (Pattern.rule r).Reads after (pre.reverse ++ parts) s
      (r.node inner.reverse.reverse :: (pre.reverse ++ parts)) s' := .rule hreads (hs'.check hb)
  simpa using hrule

theorem resume {r : Rule} {n : Nat} (pre mid : List Tree) (hmid : mid.length = n)
    (h : p.Takes source r.follow a b mid fun inner => Q (pre ++ [r.node inner]))
    (hb : b.terminal ∈ after) :
    (resume r n p).Takes source after a b (pre ++ mid) Q := fun s hs parts => by
  obtain ⟨inner, s', hreads, hs', hinner⟩ := h s hs []
  simp only [List.append_nil] at hreads
  refine ⟨_, s', ?_, hs', hinner⟩
  have hlength : mid.reverse.length = n := by rw [List.length_reverse, hmid]
  have htake : ((pre ++ mid).reverse ++ parts).take n = mid.reverse := by
    rw [List.reverse_append, List.append_assoc, ← hlength, List.take_left]
  have hdrop : ((pre ++ mid).reverse ++ parts).drop n = pre.reverse ++ parts := by
    rw [List.reverse_append, List.append_assoc, ← hlength, List.drop_left]
  have hresume := Reads.resume (r := r) (htake.symm ▸ hreads) (hs'.check hb)
  rw [hdrop] at hresume
  simpa using hresume

end Takes

/-! ## Phrases -/

/-- The parts are one phrase. -/
def One (r : Rule) (T : Tree → Prop) (parts : List Tree) : Prop :=
  ∃ inner, T (r.node inner) ∧ parts = [r.node inner]

end Pattern

/-- The text is read as a phrase before every text with `Next`. Its first token is read wherever names
are `Clear`. -/
def Rule.Accepts (source : List Char) (r : Rule) (Clear : TerminalSet → Prop)
    (Next : List Char → Ahead → Prop) (text : List Char) (T : Tree → Prop) : Prop :=
  ∀ rest b, Next rest b → ∃ a, a.terminal ∈ r.first ∧
    (∀ B gap, B.isPlain → a.terminal ∈ B → Clear B → isGap gap →
      Lexes B (gap ++ (text ++ rest)) a) ∧
    ∀ after, b.terminal ∈ after → (Pattern.rule r).Takes source after a b [] (Pattern.One r T)

theorem Rule.Accepts.mono {source : List Char} {r : Rule} {Clear Clear' : TerminalSet → Prop}
    {Next Next' : List Char → Ahead → Prop} {text : List Char} {T : Tree → Prop}
    (h : r.Accepts source Clear Next text T) (hclear : ∀ B, Clear' B → Clear B)
    (hnext : ∀ rest b, Next' rest b → Next rest b) : r.Accepts source Clear' Next' text T :=
  fun rest b hb => by
    obtain ⟨a, ha, hlex, htakes⟩ := h rest b (hnext rest b hb)
    exact ⟨a, ha, fun B gap hB hmem hn => hlex B gap hB hmem (hclear B hn), htakes⟩

namespace Pattern.Takes

variable {source : List Char} {p : Pattern} {after repeated : TerminalSet} {a b : Ahead}

theorem one {r : Rule} {T : Tree → Prop}
    (h : r.body.Takes source r.follow a b [] fun inner => T (r.node inner))
    (hb : b.terminal ∈ after) : (Pattern.rule r).Takes source after a b [] (One r T) :=
  rule (h.weaken fun _ ht => ⟨_, ht, rfl⟩) hb

/-! ## Repetitions -/

variable {α : Type} {text : α → List Char} {S : α → List Tree → Prop}
  {Next : List Char → Ahead → Prop} {rest : List Char}

/-- **Items are read one after the other**, if each is read before all that can come next. -/
theorem plus (hrest : Next rest b) (hafter : b.terminal ∈ after) (hb : b.terminal ∉ p.first)
    (x : α) (xs : List α) (hitem : ∀ y ∈ x :: xs, ∀ rest b, Next rest b → ∃ a,
      Next (text y ++ rest) a ∧ a.terminal ∈ p.first ∧ p.Takes source repeated a b [] (S y)) :
    ∃ a, Next ((x :: xs).flatMap text ++ rest) a ∧ a.terminal ∈ p.first ∧
      (Pattern.plus repeated p).Takes source after a b [] fun post =>
        ∃ news, List.Forall₂ S (x :: xs) news ∧ post = news.flatten := by
  induction xs generalizing x with
  | nil =>
    obtain ⟨a, hnext, ha, htakes⟩ := hitem x (by simp) rest b hrest
    refine ⟨a, by simpa using hnext, ha, once (htakes.weaken fun new hnew => ?_) hafter hb⟩
    exact ⟨[new], .cons hnew .nil, by simp⟩
  | cons y ys ih =>
    obtain ⟨m, hnext, hm, hmore⟩ := ih y fun z hz => hitem z (List.mem_cons_of_mem _ hz)
    obtain ⟨a, hnext', ha, htakes⟩ := hitem x List.mem_cons_self _ m hnext
    refine ⟨a, by simpa using hnext', ha, more htakes hm fun mid hmid => ?_⟩
    refine hmore.behind.weaken ?_
    rintro _ ⟨_, ⟨news, hnews, rfl⟩, rfl⟩
    exact ⟨mid :: news, .cons hmid hnews, rfl⟩

/-- Any number of items is read. -/
theorem many (hrest : Next rest b) (hafter : b.terminal ∈ after) (hb : b.terminal ∉ p.first)
    (xs : List α) (hitem : ∀ y ∈ xs, ∀ rest b, Next rest b → ∃ a,
      Next (text y ++ rest) a ∧ a.terminal ∈ p.first ∧ p.Takes source repeated a b [] (S y)) :
    ∃ a, Next (xs.flatMap text ++ rest) a ∧ (a = b ∨ a.terminal ∈ p.first) ∧
      (Pattern.many repeated p).Takes source after a b [] fun post =>
        ∃ news, List.Forall₂ S xs news ∧ post = news.flatten := by
  cases xs with
  | nil => exact ⟨b, by simpa using hrest, Or.inl rfl, none hb ⟨[], .nil, rfl⟩⟩
  | cons x xs =>
    obtain ⟨a, hnext, ha, htakes⟩ := plus hrest hafter hb x xs hitem
    exact ⟨a, hnext, Or.inr ha, some ha htakes⟩

/-! ## Words and lists -/

theorem oneOf {t : Terminal} {ts : List Terminal} {pre : List Tree} {Q : List Tree → Prop}
    (ha : a.terminal ∈ (Pattern.oneOf t ts).first) (hb : Lexes after a.rest b)
    (hQ : Q (pre ++ [.leaf (a.token source)]))
    (hend : .endOfInput ∉ (Pattern.oneOf t ts).first := by decide) :
    (Pattern.oneOf t ts).Takes source after a b pre Q := by
  have hne : a.terminal ≠ .endOfInput := fun h => hend (h ▸ ha)
  induction ts generalizing t with
  | nil =>
    have hfirst : a.terminal = t := TerminalSet.mem_single.mp ha
    exact token hfirst hb hQ (hfirst ▸ hne)
  | cons u ts ih =>
    by_cases hfirst : a.terminal = t
    · exact left (TerminalSet.mem_single.mpr hfirst) (token hfirst hb hQ (hfirst ▸ hne))
    · have hmore := (TerminalSet.mem_union.mp ha).resolve_left fun hmem =>
        hfirst (TerminalSet.mem_single.mp hmem)
      exact right (fun hmem => hfirst (TerminalSet.mem_single.mp hmem))
        (ih hmore fun h => hend (TerminalSet.mem_union.mpr (Or.inr h)))

theorem filter_divided {r : Rule} {T : α → Tree → Prop} {sign : Terminal} (hsign : sign.isNamed = false)
    {xs : List α} {news : List (List Tree)}
    (h : List.Forall₂ (fun y new => ∃ tok inner, Token.terminal tok = sign ∧ T y (r.node inner) ∧
      new = [.leaf tok, r.node inner]) xs news) :
    ∃ ts, List.Forall₂ (fun y t => T y t ∧ t.isPhrase r) xs ts ∧
      ∀ q : Rule, q.keepsTokens = false → news.flatten.filter (Tree.isKept q) = ts := by
  induction h with
  | nil => exact ⟨[], .nil, fun _ _ => rfl⟩
  | cons hnew _ ih =>
    obtain ⟨ts, hts, hfilter⟩ := ih
    obtain ⟨tok, inner, htok, ht, rfl⟩ := hnew
    refine ⟨r.node inner :: ts, .cons ⟨ht, by simp [Rule.node, Tree.isPhrase]⟩ hts,
      fun q hq => ?_⟩
    rw [List.flatten_cons, List.filter_append, hfilter q hq, List.filter_cons, List.filter_cons]
    simp [htok, hsign, hq]

section

variable {r : Rule} {T : α → Tree → Prop} {Clear : α → TerminalSet → Prop} {xs : List α}
  (hcomma : ∀ cs, Next (',' :: ' ' :: cs) ⟨.comma, [','], ' ' :: cs⟩)
  (hnext : ∀ rest b, Next rest b → b.terminal ∈ repeated) (hplain : r.first.isPlain)
  (hclear : ∀ y ∈ xs, Clear y r.first)
  (hitem : ∀ y ∈ xs, r.Accepts source (Clear y) Next (text y) (T y))

include hcomma hnext hplain hclear hitem

theorem commaItem : ∀ y ∈ xs, ∀ rest b, Next rest b → ∃ a,
    Next ((',' :: ' ' :: text y) ++ rest) a ∧
    a.terminal ∈ (Pattern.seq (.token .comma) (.rule r)).first ∧
    (Pattern.seq (.token .comma) (.rule r)).Takes source repeated a b [] fun new =>
      ∃ tok inner, Token.terminal tok = .comma ∧ T y (r.node inner) ∧
        new = [.leaf tok, r.node inner] := fun y hy rest b hrest => by
  obtain ⟨a, ha, hlex, htakes⟩ := hitem y hy rest b hrest
  refine ⟨⟨.comma, [','], ' ' :: (text y ++ rest)⟩, hcomma _, TerminalSet.mem_single.mpr rfl, ?_⟩
  refine cons rfl (hlex r.first [' '] hplain ha (hclear y hy) rfl) ?_
  refine (htakes _ (hnext rest b hrest)).behind.weaken ?_
  rintro _ ⟨_, ⟨inner, ht, rfl⟩, rfl⟩
  exact ⟨_, inner, rfl, ht, rfl⟩

/-- **The elements of a list after its first one are read**, each after a comma and a blank. -/
theorem commaRest (hrest : Next rest b) (hafter : b.terminal ∈ after) (hb : b.terminal ≠ .comma) :
    ∃ a, Next (xs.flatMap (fun y => ',' :: ' ' :: text y) ++ rest) a ∧
      (a = b ∨ a.terminal = .comma) ∧
      (Pattern.many repeated (.seq (.token .comma) (.rule r))).Takes source after a b []
        fun post => ∃ ts, List.Forall₂ (fun y t => T y t ∧ t.isPhrase r) xs ts ∧
          ∀ q : Rule, q.keepsTokens = false → post.filter (Tree.isKept q) = ts := by
  have hfirst : ∀ t, t ∈ (Pattern.seq (.token .comma) (.rule r)).first ↔ t = .comma :=
    fun t => TerminalSet.mem_single
  obtain ⟨a, hnexta, ha, htakes⟩ := many hrest hafter (fun hmem => hb ((hfirst _).mp hmem)) xs
    (commaItem hcomma hnext hplain hclear hitem)
  refine ⟨a, hnexta, ha.imp_right (hfirst _).mp, htakes.weaken ?_⟩
  rintro _ ⟨news, hnews, rfl⟩
  exact filter_divided rfl hnews

end

end Pattern.Takes

end Facade
