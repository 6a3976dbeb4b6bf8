import Facade.Proofs.Grammar.Braces
import Facade.Proofs.Grammar.Progress
import Facade.Proofs.Syntax.ReadType

/-!
# What follows a phrase

Most phrases are followed by a sign or by a word of the language. Such a token comes next wherever it is
admitted, however much white space stands before it.

* `Scan.Comes`, `Follows`: a token that comes next wherever it is admitted;
* `Tree.phrases_append`, `Tree.phrases_of_forall`: the phrases among parts that stand one behind the
  other;
* **`takes_words`**: the words before a declaration or a parameter are read.
-/

namespace Facade

open Text Scan

theorem TerminalSet.isPlain_union {a b : TerminalSet} (ha : a.isPlain) (hb : b.isPlain) :
    (a ∪ b).isPlain := List.all_eq_true.mpr fun t ht => by
  rw [contains_union, Bool.not_or, List.all_eq_true.mp ha t ht, List.all_eq_true.mp hb t ht]
  rfl

namespace Scan

/-- The token comes next wherever it is admitted. -/
def Comes (cs : List Char) (a : Ahead) : Prop :=
  ∀ B : TerminalSet, B.isPlain → a.terminal ∈ B → Lexes B cs a

theorem Comes.gap {cs gap : List Char} {a : Ahead} (h : Comes cs a) (hgap : isGap gap) :
    Comes (gap ++ cs) a := fun B hB ha => (h B hB ha).gap hgap

theorem comes_word {t : Terminal} {w : String} (h : (t, w) ∈ Terminal.words) {rest : List Char}
    (hrest : EndsWord rest) : Comes (w.toList ++ rest) ⟨t, w.toList, rest⟩ := fun _ hB ht =>
  lexes_word h hB ht (show isGap [] from rfl) hrest

theorem comes_sign {t : Terminal} {c : Char} (h : (t, c) ∈ plainSigns) (rest : List Char) :
    Comes (c :: rest) ⟨t, [c], rest⟩ := fun _ hB ht =>
  lexes_plainSign h hB ht rest (show isGap [] from rfl)

theorem comes_blank {t : Terminal} {w : String} (h : (t, w) ∈ Terminal.punctuation)
    (ht : t ≠ .leftBracket) (cs : List Char) :
    Comes (w.toList ++ ' ' :: cs) ⟨t, w.toList, ' ' :: cs⟩ := fun B hB hmem => by
  have hblank : ∀ e ∈ Terminal.spelled, ' ' ∉ e.2.toList := by decide
  refine lexes_sign h hB hmem (show isGap [] from rfl) (fun c hc hlonger => ?_)
    fun hbracket => absurd hbracket ht
  obtain rfl : ' ' = c := by simpa using hc
  obtain ⟨e, he, hhead⟩ := List.mem_filterMap.mp hlonger
  split_ifs at hhead
  exact hblank e he (List.mem_of_mem_drop (List.mem_of_mem_head? hhead))

theorem Lexes.unique {admitted : TerminalSet} {cs : List Char} {a b : Ahead}
    (ha : Lexes admitted cs a) (hb : Lexes admitted cs b) : a = b := by
  obtain ⟨s, hread, hs⟩ := ha.read (List.suffix_refl cs) .start
  obtain ⟨s', hread', hs'⟩ := hb.read (List.suffix_refl cs) .start
  obtain rfl := Except.ok.inj (hread.symm.trans hread')
  exact hs.unique hs'

theorem endsWord_gap {gap : List Char} (hgap : isGap gap) {rest : List Char}
    (hrest : gap = [] → EndsWord rest) : EndsWord (gap ++ rest) := by
  cases gap with
  | nil => exact hrest rfl
  | cons c gap =>
    refine endsWord_cons ?_ _
    have hc : isLayout c = true := ((Bool.and_eq_true _ _).mp hgap).1
    simp only [isLayout, Bool.or_eq_true, beq_iff_eq] at hc
    rcases hc with (((rfl | rfl) | rfl) | rfl) | rfl <;> decide

end Scan

/-- One of `after` comes next, wherever it is admitted, and no word goes on. -/
structure Follows (after : TerminalSet) (rest : List Char) (b : Ahead) : Prop where
  endsWord : EndsWord rest
  mem : b.terminal ∈ after
  comes : Comes rest b

namespace Follows

variable {after B : TerminalSet} {rest : List Char} {b : Ahead}

theorem mono (h : Follows after rest b) (hB : after.isWithin B) : Follows B rest b :=
  ⟨h.endsWord, TerminalSet.mem_of_isWithin hB h.mem, h.comes⟩

theorem gap {gap : List Char} (h : Follows after rest b) (hgap : isGap gap) : Follows after (gap ++ rest) b :=
  ⟨endsWord_gap hgap fun _ => h.endsWord, h.mem, h.comes.gap hgap⟩

theorem lexes (h : Follows after rest b) (hB : B.isPlain) (hafter : after.isWithin B) :
    Lexes B rest b := h.comes B hB (TerminalSet.mem_of_isWithin hafter h.mem)

theorem typeEnds (h : Follows after rest b) (hafter : after.isWithin .nameEnd) :
    TypeEnds after rest b := ⟨h.endsWord, h.mem, h.lexes (by decide) hafter⟩

theorem sign {t : Terminal} {c : Char} (h : (t, c) ∈ plainSigns) (ht : t ∈ after)
    (rest : List Char) : Follows after (c :: rest) ⟨t, [c], rest⟩ :=
  ⟨endsWord_cons (goesOnWith_plainSigns _ h).2.2.2.1 rest, ht, comes_sign h rest⟩

end Follows

/-! ## Parts of phrases -/

namespace Tree

variable {r r' : Rule} {parts parts' : List Tree}

@[simp] theorem isPhrase_phrase (r q : Rule) (parts : List Tree) :
    (q.node parts).isPhrase r = (q == r) := rfl

@[simp] theorem isPhrase_leaf (r : Rule) (t : Token) : (leaf t).isPhrase r = false := rfl

@[simp] theorem name?_leaf (t : Token) (parts : List Tree) :
    name? (leaf t :: parts) = if t.terminal = .name then some t else name? parts := rfl

@[simp] theorem name?_phrase (r : Rule) (parts inner : List Tree) :
    name? (r.node inner :: parts) = name? parts := rfl

theorem phrases_append (r : Rule) (parts parts' : List Tree) :
    phrases r (parts ++ parts') = phrases r parts ++ phrases r parts' := List.filter_append ..

@[simp] theorem phrases_nil (r : Rule) : phrases r [] = [] := rfl

@[simp] theorem phrases_leaf (r : Rule) (t : Token) (parts : List Tree) :
    phrases r (leaf t :: parts) = phrases r parts := rfl

@[simp] theorem phrases_phrase (r q : Rule) (inner parts : List Tree) :
    phrases r (q.node inner :: parts) =
      if q = r then q.node inner :: phrases r parts else phrases r parts := by
  simp [phrases, List.filter_cons]

theorem phrase?_eq_head? (r : Rule) (parts : List Tree) :
    phrase? r parts = (phrases r parts).head? := (List.head?_filter ..).symm

theorem partsOf_congr (h : phrases r parts = phrases r parts') : partsOf r parts = partsOf r parts' := by
  rw [partsOf, partsOf, phrase?_eq_head?, phrase?_eq_head?, h]

theorem phrases_of_forall (h : ∀ t ∈ parts, t.isPhrase r) : phrases r parts = parts :=
  List.filter_eq_self.mpr h

theorem phrases_eq_nil (h : ∀ t ∈ parts, t.isPhrase r) (hne : r ≠ r') : phrases r' parts = [] :=
  List.filter_eq_nil_iff.mpr fun t ht hr' => by
    have hr := h t ht
    cases t with
    | leaf => cases hr
    | node q =>
      simp only [isPhrase, beq_iff_eq] at hr hr'
      exact hne (hr.symm.trans hr')

theorem name?_append (h : ∀ t ∈ parts, t.isPhrase r) (parts' : List Tree) :
    name? (parts ++ parts') = name? parts' := by
  induction parts with
  | nil => rfl
  | cons t parts ih =>
    have hmore := ih fun s hs => h s (List.mem_cons_of_mem _ hs)
    cases t with
    | leaf => cases h _ List.mem_cons_self
    | node => exact hmore

theorem filter_isKept_of_forall (h : ∀ t ∈ parts, t.isPhrase r) (q : Rule) :
    parts.filter (isKept q) = parts := List.filter_eq_self.mpr fun t ht => by
  have hr := h t ht
  cases t with
  | leaf => cases hr
  | node => rfl

end Tree

theorem forall_of_forall₂ {α β : Type} {p : β → Prop} {xs : List α} {ys : List β}
    (h : List.Forall₂ (fun _ y => p y) xs ys) : ∀ y ∈ ys, p y := by
  induction h with
  | nil => simp
  | cons hy _ ih => exact List.forall_mem_cons.mpr ⟨hy, ih⟩

theorem exists_mapM_of_forall₂ {α β γ : Type} {f : α → Option β} {R : γ → β → Prop} {ys : List γ}
    {xs : List α} (h : List.Forall₂ (fun y x => ∃ z, f x = some z ∧ R y z) ys xs) :
    ∃ zs, xs.mapM f = some zs ∧ List.Forall₂ R ys zs := by
  induction h with
  | nil => exact ⟨[], rfl, .nil⟩
  | cons hx _ ih =>
    obtain ⟨z, hz, hyz⟩ := hx
    obtain ⟨zs, hzs, hall⟩ := ih
    exact ⟨z :: zs, by simp [List.mapM_cons, hz, hzs], .cons hyz hall⟩

theorem Rule.accepts_of_word {source : List Char} {r : Rule} {t : Terminal} {w : String}
    {s : List Char} {Clear : TerminalSet → Prop} {after : TerminalSet} {T : Tree → Prop}
    (hword : (t, w) ∈ Terminal.words) (hfirst : t ∈ r.first)
    (hends : ∀ rest, EndsWord rest → EndsWord (s ++ rest))
    (htakes : ∀ rest b, Follows after rest b →
      r.body.Takes source r.follow ⟨t, w.toList, s ++ rest⟩ b [] fun parts => T (r.node parts)) :
    r.Accepts source Clear (Follows after) (w.toList ++ s) T := fun rest b hb =>
  ⟨⟨t, w.toList, s ++ rest⟩, hfirst, fun B gap hB hmem _ hgap => by
      rw [List.append_assoc]
      exact lexes_word hword hB hmem hgap (hends rest hb.endsWord),
    fun _ hafter => .one (htakes rest b hb) hafter⟩

/-! ## Words before a declaration -/

theorem exists_mapM_map {α β γ : Type} {f : α → Option β} {g : β → γ} {ys : List γ} {xs : List α}
    (h : List.Forall₂ (fun y x => ∃ z, f x = some z ∧ g z = y) ys xs) :
    ∃ zs, xs.mapM f = some zs ∧ zs.map g = ys := by
  obtain ⟨zs, hzs, hall⟩ := exists_mapM_of_forall₂ h
  refine ⟨zs, hzs, ?_⟩
  clear h hzs
  induction hall with
  | nil => rfl
  | cons hz _ ih => rw [List.map_cons, hz, ih]

theorem headWords?_of_forall₂ {r : Rule} {ws : List (Terminal × String)} {news : List (List Tree)}
    (h : List.Forall₂ (fun e => Pattern.One r fun tree =>
      ∃ tok extent, tree = .node r [.leaf tok] extent ∧ Token.text tok = Prod.snd e) ws news) :
    Tree.headWords? r news.flatten = some (ws.map Prod.snd) ∧
      ∀ tree ∈ news.flatten, tree.isPhrase r := by
  induction h with
  | nil => exact ⟨rfl, by simp⟩
  | @cons e new ws news hnew _ ih =>
    obtain ⟨inner, ⟨tok, extent, htree, htext⟩, rfl⟩ := hnew
    have hall : ∀ tree ∈ ([r.node inner] :: news).flatten, tree.isPhrase r := by
      refine List.forall_mem_cons.mpr ⟨?_, ih.2⟩
      rw [htree]
      exact beq_self_eq_true r
    refine ⟨?_, hall⟩
    have hwords := ih.1
    rw [Tree.headWords?, Tree.phrases_of_forall ih.2] at hwords
    rw [Tree.headWords?, Tree.phrases_of_forall hall, List.flatten_cons, List.singleton_append,
      List.mapM_cons, htree, hwords, List.map_cons, ← htext]
    rfl

/-- What can stand behind a word that the rule consists of: if it is one more, it comes next wherever it
is admitted. -/
def Rule.GoesOn (r : Rule) (rest : List Char) (a : Ahead) : Prop :=
  Lexes r.follow rest a ∧ a.terminal ∈ r.follow ∧ (a.terminal ∈ r.first → Comes rest a)

/-- **The words before a declaration or a parameter are read**, each with a blank behind it. -/
theorem takes_words (source : List Char) {r : Rule} {t : Terminal} {ts : List Terminal}
    (hbody : r.body = Pattern.oneOf t ts) (hkeeps : r.keepsTokens)
    (hfirst : r.first.isWithin (Pattern.oneOf t ts).first)
    (hend : .endOfInput ∉ (Pattern.oneOf t ts).first)
    (hfollow : r.first.isWithin r.follow) (hplain : r.follow.isPlain)
    (ws : List (Terminal × String)) (hws : ∀ e ∈ ws, e ∈ Terminal.words ∧ e.1 ∈ r.first)
    {rest : List Char} {b : Ahead} (hrest : Lexes r.follow rest b) {after : TerminalSet}
    (hb : b.terminal ∈ after) (hafter : after.isWithin r.follow) (hlast : b.terminal ∉ r.first) :
    ∃ a, Lexes r.follow (ws.flatMap (fun e => e.2.toList ++ [' ']) ++ rest) a ∧
      (ws = [] ∧ a = b ∨ ws ≠ [] ∧ a.terminal ∈ r.first ∧
        Comes (ws.flatMap (fun e => e.2.toList ++ [' ']) ++ rest) a) ∧
      (Pattern.many r.follow (.rule r)).Takes source after a b [] fun post =>
        Tree.headWords? r post = some (ws.map Prod.snd) ∧ ∀ tree ∈ post, tree.isPhrase r := by
  cases ws with
  | nil => exact ⟨b, hrest, Or.inl ⟨rfl, rfl⟩, .none hlast ⟨rfl, by simp⟩⟩
  | cons e ws =>
    -- A word comes next wherever it is admitted, but what stands behind the last one need not.
    have hitem : ∀ f ∈ e :: ws, ∀ rest b, r.GoesOn rest b → ∃ a,
        r.GoesOn ((f.2.toList ++ [' ']) ++ rest) a ∧ a.terminal ∈ (Pattern.rule r).first ∧
        (Pattern.rule r).Takes source r.follow a b []
          (Pattern.One r fun tree => ∃ tok extent, tree = .node r [.leaf tok] extent ∧
            Token.text tok = f.2) := fun f hf rest b hb => by
      obtain ⟨hword, hmem⟩ := hws f hf
      have hcomes : Comes (f.2.toList ++ [' '] ++ rest) ⟨f.1, f.2.toList, ' ' :: rest⟩ := by
        rw [List.append_assoc]
        exact comes_word hword (endsWord_cons (by decide) rest)
      have hmem' := TerminalSet.mem_of_isWithin hfollow hmem
      refine ⟨_, ⟨hcomes _ hplain hmem', hmem', fun _ => hcomes⟩, hmem, .one ?_ hb.2.1⟩
      rw [hbody]
      refine .oneOf (TerminalSet.mem_of_isWithin hfirst hmem)
        (hb.1.gap (show isGap [' '] from rfl)) ?_ hend
      exact ⟨Ahead.token source ⟨f.1, f.2.toList, ' ' :: rest⟩, Tree.cover _,
        by rw [Rule.node, Tree.filter_isKept hkeeps]; rfl, by simp⟩
    have hnext : r.GoesOn rest b :=
      ⟨hrest, TerminalSet.mem_of_isWithin hafter hb, fun h => absurd h hlast⟩
    obtain ⟨a, ⟨hlexes, -, hcomes⟩, ha, htakes⟩ := Pattern.Takes.plus hnext hb
      (show b.terminal ∉ (Pattern.rule r).first from hlast) e ws hitem
    refine ⟨a, hlexes, Or.inr ⟨by simp, ha, hcomes ha⟩, .some ha (htakes.weaken ?_)⟩
    rintro _ ⟨news, hnews, rfl⟩
    exact headWords?_of_forall₂ hnews

end Facade
