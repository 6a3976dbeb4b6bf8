import Mathlib.Tactic.Common
import Facade.Proofs.Grammar.Lexing
import Facade.Proofs.Grammar.Reads
import Facade.Proofs.Grammar.Spelling

/-!
# The trees of a parse

The grammar that is read takes phrases up again that it has begun under another name. Its trees are
those of the plain grammar, in which every phrase is read on its own.

* `Rule.plainBody`, `Pattern.Spells`: the plain grammar, and the parts that a pattern of it has;
* `Tree.Grown`: the trees of the plain grammar, the tokens spelled as their terminals admit;
* `Pattern.Yields`: the parts that reading a pattern leaves;
* **`becomes_plainBody`**: what the pattern of a phrase leaves makes a phrase of the plain grammar;
* `Reads.yields`, **`Tree.grown_of_parse`**: so the trees of a parse are trees of the plain grammar.
-/

namespace Facade

open Pattern in
/-- The pattern of a phrase in the plain grammar, where no phrase is resumed. -/
def Rule.plainBody : Rule → Pattern
  | source => seq usings (opt (any (seq (rule .namespaceDeclaration) namespaceMembers) [
      rule .fileScopedNamespace, seq (rule .typeDeclaration) namespaceMembers]))
  | usingDirective => all (opt (token .globalKw)) [token .usingKw, any
      (all (token .staticKw) [rule .qualifiedName, token .semicolon]) [
      all (token .name) [token .equals, rule .type, token .semicolon],
      all (rule .qualifiedName) [token .semicolon]]]
  | member => all attributes [Pattern.modifiers, any typeCore [rule .destructorDeclaration,
      rule .conversionDeclaration, rule .constructorDeclaration, rule .methodDeclaration,
      rule .propertyDeclaration, rule .indexerDeclaration, rule .fieldDeclaration,
      rule .operatorDeclaration]]
  | r => r.body

namespace Pattern

/-- No phrase is resumed in the pattern. -/
def isPlain : Pattern → Bool
  | token _ | rule _ => true
  | seq p q | alt p q => p.isPlain && q.isPlain
  | opt p | plus _ p => p.isPlain
  | resume .. => false

/-- The parts are those of a pattern, as far as the tokens and phrases go that it names. -/
def Spells : Pattern → List Tree → Prop
  | token t, parts => ∃ found : Token, found.terminal = t ∧ parts = [.leaf found]
  | rule r, parts => ∃ children extent, parts = [.node r children extent]
  | seq p q, parts => ∃ before behind, p.Spells before ∧ q.Spells behind ∧ parts = before ++ behind
  | alt p q, parts => p.Spells parts ∨ q.Spells parts
  | opt p, parts => parts = [] ∨ p.Spells parts
  | plus _ p, parts => ∃ items, items ≠ [] ∧ (∀ item ∈ items, p.Spells item) ∧
      parts = items.flatten
  | resume .., _ => False

end Pattern

theorem Tree.filter_isKept {r : Rule} (h : r.keepsTokens) (parts : List Tree) :
    parts.filter (isKept r) = parts := by
  refine List.filter_eq_self.mpr fun t _ => ?_
  cases t with
  | leaf t => simp [isKept, h]
  | node => rfl

/-- The tree is one of the plain grammar, and `good` holds of the default values in it. -/
inductive Tree.Grown (good : Tree → Prop) : Tree → Prop
  | leaf {t} : t.IsSpelled → Grown good (.leaf t)
  | node {r parts} : r.plainBody.Spells parts → (∀ t ∈ parts, Grown good t) →
      (r = .defaultValue → good (r.node parts)) →
      Grown good (.node r (parts.filter (isKept r)) (cover parts))

namespace Pattern

variable (good : Tree → Prop)

/-- The parts that reading a pattern leaves, given those before it. -/
inductive Yields : Pattern → List Tree → List Tree → Prop
  | token {t parts} : Token.IsSpelled t → Yields (.token t.terminal) parts (.leaf t :: parts)
  | rule {r children extent parts} : Tree.Grown good (.node r children extent) →
      Yields (.rule r) parts (.node r children extent :: parts)
  | seq {p q parts parts' parts''} : Yields p parts parts' → Yields q parts' parts'' →
      Yields (.seq p q) parts parts''
  | left {p q parts parts'} : Yields p parts parts' → Yields (.alt p q) parts parts'
  | right {p q parts parts'} : Yields q parts parts' → Yields (.alt p q) parts parts'
  | none {p parts} : Yields (.opt p) parts parts
  | some {p parts parts'} : Yields p parts parts' → Yields (.opt p) parts parts'
  | once {p repeated parts parts'} : Yields p parts parts' → Yields (.plus repeated p) parts parts'
  | more {p repeated parts parts' parts''} : Yields p parts parts' →
      Yields (.plus repeated p) parts' parts'' → Yields (.plus repeated p) parts parts''
  | resume {r n p parts inner} : Yields p (parts.take n) inner →
      Yields (.resume r n p) parts (r.node inner.reverse :: parts.drop n)

variable {good}

theorem Yields.spells {p : Pattern} {parts parts' : List Tree} (h : p.Yields good parts parts')
    (hp : p.isPlain) :
    ∃ new, p.Spells new ∧ (∀ t ∈ new, t.Grown good) ∧ parts' = new.reverse ++ parts := by
  induction h with
  | @token t parts ht => exact ⟨[.leaf t], ⟨t, rfl, rfl⟩, by simpa using .leaf ht, rfl⟩
  | @rule r children extent parts ht =>
    exact ⟨[.node r children extent], ⟨_, _, rfl⟩, by simpa using ht, rfl⟩
  | seq _ _ ih ih' =>
    simp only [isPlain, Bool.and_eq_true] at hp
    obtain ⟨new, hnew, hgrown, rfl⟩ := ih hp.1
    obtain ⟨new', hnew', hgrown', rfl⟩ := ih' hp.2
    refine ⟨new ++ new', ⟨new, new', hnew, hnew', rfl⟩, fun t ht => ?_, by simp⟩
    exact (List.mem_append.mp ht).elim (hgrown t) (hgrown' t)
  | left _ ih =>
    simp only [isPlain, Bool.and_eq_true] at hp
    obtain ⟨new, hnew, hgrown⟩ := ih hp.1
    exact ⟨new, Or.inl hnew, hgrown⟩
  | right _ ih =>
    simp only [isPlain, Bool.and_eq_true] at hp
    obtain ⟨new, hnew, hgrown⟩ := ih hp.2
    exact ⟨new, Or.inr hnew, hgrown⟩
  | none => exact ⟨[], Or.inl rfl, by simp, rfl⟩
  | some _ ih =>
    obtain ⟨new, hnew, hgrown⟩ := ih hp
    exact ⟨new, Or.inr hnew, hgrown⟩
  | once _ ih =>
    obtain ⟨new, hnew, hgrown⟩ := ih hp
    exact ⟨new, ⟨[new], by simp, by simpa using hnew, by simp⟩, hgrown⟩
  | more _ _ ih ih' =>
    obtain ⟨new, hnew, hgrown, rfl⟩ := ih hp
    obtain ⟨_, ⟨items, -, hitems, rfl⟩, hgrown', rfl⟩ := ih' hp
    refine ⟨(new :: items).flatten, ⟨new :: items, by simp, ?_, rfl⟩, fun t ht => ?_, by simp⟩
    · exact fun item hitem => (List.mem_cons.mp hitem).elim (fun h => h ▸ hnew) (hitems item)
    · rw [List.flatten_cons] at ht
      exact (List.mem_append.mp ht).elim (hgrown t) (hgrown' t)
  | resume _ _ => cases hp

/-! ## What patterns leave -/

theorem yields_token_iff {t : Terminal} {parts parts' : List Tree} :
    (token t).Yields good parts parts' ↔
      ∃ found : Token, found.terminal = t ∧ found.IsSpelled ∧ parts' = .leaf found :: parts := by
  constructor
  · intro h
    cases h with
    | token ht => exact ⟨_, rfl, ht, rfl⟩
  · rintro ⟨found, rfl, ht, rfl⟩
    exact .token ht

theorem yields_seq_iff {p q : Pattern} {parts parts' : List Tree} :
    (seq p q).Yields good parts parts' ↔
      ∃ middle, p.Yields good parts middle ∧ q.Yields good middle parts' := by
  constructor
  · intro h
    cases h with
    | seq hp hq => exact ⟨_, hp, hq⟩
  · rintro ⟨middle, hp, hq⟩
    exact .seq hp hq

theorem yields_alt_iff {p q : Pattern} {parts parts' : List Tree} :
    (alt p q).Yields good parts parts' ↔
      p.Yields good parts parts' ∨ q.Yields good parts parts' := by
  constructor
  · intro h
    cases h with
    | left h => exact Or.inl h
    | right h => exact Or.inr h
  · rintro (h | h)
    · exact .left h
    · exact .right h

theorem yields_resume_iff {r : Rule} {n : Nat} {p : Pattern} {parts parts' : List Tree} :
    (resume r n p).Yields good parts parts' ↔
      ∃ inner, p.Yields good (parts.take n) inner ∧
        parts' = r.node inner.reverse :: parts.drop n := by
  constructor
  · intro h
    cases h with
    | resume h => exact ⟨_, h, rfl⟩
  · rintro ⟨inner, h, rfl⟩
    exact .resume h

/-- Phrases of the plain grammar, the last one first. -/
abbrev Grow (good : Tree → Prop) (parts : List Tree) : Prop := ∀ t ∈ parts, t.Grown good

theorem grow_cons {t : Tree} {parts : List Tree} :
    Grow good (t :: parts) ↔ t.Grown good ∧ Grow good parts := by
  simp [Grow]

theorem grown_node {r : Rule} {parts : List Tree} (h : r.plainBody.Spells parts)
    (hparts : Grow good parts) (hr : r ≠ .defaultValue) : (r.node parts).Grown good :=
  .node h hparts fun h => absurd h hr

theorem yields_resume_one {r : Rule} {p : Pattern} {t : Tree} {parts parts' : List Tree}
    (h : (resume r 1 p).Yields good (t :: parts) parts') (hp : p.isPlain) (ht : t.Grown good)
    (hbody : ∀ new, p.Spells new → r.plainBody.Spells (t :: new)) (hr : r ≠ .defaultValue) :
    ∃ new, p.Spells new ∧ (r.node (t :: new)).Grown good ∧ parts' = r.node (t :: new) :: parts := by
  obtain ⟨inner, hinner, rfl⟩ := yields_resume_iff.mp h
  obtain ⟨new, hnew, hgrown, rfl⟩ := hinner.spells hp
  refine ⟨new, hnew, grown_node (hbody new hnew) (grow_cons.mpr ⟨ht, hgrown⟩) hr, ?_⟩
  simp

theorem yields_resume_two {r : Rule} {p : Pattern} {t u : Tree} {parts parts' : List Tree}
    (h : (resume r 2 p).Yields good (u :: t :: parts) parts') (hp : p.isPlain)
    (ht : t.Grown good) (hu : u.Grown good)
    (hbody : ∀ new, p.Spells new → r.plainBody.Spells (t :: u :: new)) (hr : r ≠ .defaultValue) :
    ∃ new, (r.node (t :: u :: new)).Grown good ∧ parts' = r.node (t :: u :: new) :: parts := by
  obtain ⟨inner, hinner, rfl⟩ := yields_resume_iff.mp h
  obtain ⟨new, hnew, hgrown, rfl⟩ := hinner.spells hp
  refine ⟨new, grown_node (hbody new hnew) ?_ hr, by simp⟩
  exact grow_cons.mpr ⟨ht, grow_cons.mpr ⟨hu, hgrown⟩⟩

/-! ## Phrases that are resumed -/

theorem spells_token {t : Token} {k : Terminal} (h : t.terminal = k) :
    (token k).Spells [.leaf t] := ⟨t, h, rfl⟩

theorem Spells.cons {p q : Pattern} {t : Tree} {new : List Tree} (ht : p.Spells [t])
    (hnew : q.Spells new) : (seq p q).Spells (t :: new) := ⟨[t], new, ht, hnew, rfl⟩

theorem grown_typeAfterName {n : Token} {parts parts' : List Tree} (hn : n.terminal = .name)
    (hspelled : n.IsSpelled) (h : typeAfterName.Yields good (.leaf n :: parts) parts') :
    ∃ new, (Rule.type.node new).Grown good ∧ parts' = Rule.type.node new :: parts := by
  obtain ⟨inner, hinner, rfl⟩ := yields_resume_iff.mp h
  obtain ⟨_, hresumed, hsuffixes⟩ := yields_seq_iff.mp hinner
  obtain ⟨_, hinner', rfl⟩ := yields_resume_iff.mp hresumed
  obtain ⟨_, hresumed', hdotted⟩ := yields_seq_iff.mp hinner'
  obtain ⟨arguments, -, hsimple, rfl⟩ := yields_resume_one hresumed' rfl (.leaf hspelled)
    (fun new hnew => (spells_token hn).cons hnew) (by decide)
  obtain ⟨dotted, hspells, hgrown, rfl⟩ := hdotted.spells (by decide)
  have hnamed : (Rule.namedType.node
      (Rule.simpleName.node (.leaf n :: arguments) :: dotted)).Grown good :=
    grown_node ⟨[], _, Or.inl rfl, Spells.cons ⟨_, _, rfl⟩ hspells, rfl⟩
      (grow_cons.mpr ⟨hsimple, hgrown⟩) (by decide)
  obtain ⟨suffixes, hspells', hgrown', rfl⟩ := hsuffixes.spells (by decide)
  refine ⟨Rule.namedType.node (Rule.simpleName.node (.leaf n :: arguments) :: dotted) :: suffixes,
    grown_node (Spells.cons (Or.inl ⟨_, _, rfl⟩) hspells') (grow_cons.mpr ⟨hnamed, hgrown'⟩)
      (by decide), ?_⟩
  simp

/-- The rules of the members that begin with a type. -/
def typedMembers : List Rule :=
  [.methodDeclaration, .propertyDeclaration, .indexerDeclaration, .fieldDeclaration,
    .operatorDeclaration]

theorem grown_afterMemberType {t : Tree} {parts parts' : List Tree} (ht : t.Grown good)
    (htype : (rule .type).Spells [t]) (h : afterMemberType.Yields good (t :: parts) parts') :
    ∃ r ∈ typedMembers, ∃ new, (r.node new).Grown good ∧ parts' = r.node new :: parts := by
  rcases yields_alt_iff.mp h with h | h
  · obtain ⟨_, hname, h⟩ := yields_seq_iff.mp h
    obtain ⟨n, hn, hspelled, rfl⟩ := yields_token_iff.mp hname
    rcases yields_alt_iff.mp h with h | h
    · obtain ⟨_, hinner, rfl⟩ := yields_resume_iff.mp h
      obtain ⟨_, hresumed, hrest⟩ := yields_seq_iff.mp hinner
      obtain ⟨value, -, hfirst, rfl⟩ := yields_resume_one hresumed rfl (.leaf hspelled)
        (fun new hnew => (spells_token hn).cons hnew) (by decide)
      obtain ⟨rest, hspells, hgrown, rfl⟩ := hrest.spells (by decide)
      refine ⟨.fieldDeclaration, by decide, t ::
        Rule.variableDeclarator.node (.leaf n :: value) :: rest, grown_node ?_ ?_ (by decide),
        by simp⟩
      · exact htype.cons (Spells.cons ⟨_, _, rfl⟩ hspells)
      · exact grow_cons.mpr ⟨ht, grow_cons.mpr ⟨hfirst, hgrown⟩⟩
    · obtain ⟨_, hresumed, h⟩ := yields_seq_iff.mp h
      obtain ⟨dotted, -, hmember, rfl⟩ := yields_resume_one hresumed (by decide) (.leaf hspelled)
        (fun new hnew => (spells_token hn).cons hnew) (by decide)
      rcases yields_alt_iff.mp h with h | h
      · obtain ⟨new, hnew, rfl⟩ := yields_resume_two h (by decide) ht hmember
          (fun new hnew => htype.cons (Spells.cons ⟨_, _, rfl⟩ hnew)) (by decide)
        exact ⟨.methodDeclaration, by decide, _, hnew, rfl⟩
      · obtain ⟨new, hnew, rfl⟩ := yields_resume_two h (by decide) ht hmember
          (fun new hnew => htype.cons (Spells.cons ⟨_, _, rfl⟩ hnew)) (by decide)
        exact ⟨.propertyDeclaration, by decide, _, hnew, rfl⟩
  · rcases yields_alt_iff.mp h with h | h
    · obtain ⟨new, -, hnew, rfl⟩ := yields_resume_one h (by decide) ht
        (fun new hnew => htype.cons hnew) (by decide)
      exact ⟨.indexerDeclaration, by decide, _, hnew, rfl⟩
    · obtain ⟨new, -, hnew, rfl⟩ := yields_resume_one h (by decide) ht
        (fun new hnew => htype.cons hnew) (by decide)
      exact ⟨.operatorDeclaration, by decide, _, hnew, rfl⟩

/-- A pattern that resumes phrases leaves what a plain pattern spells. -/
def Becomes (good : Tree → Prop) (p q : Pattern) : Prop :=
  ∀ parts parts', p.Yields good parts parts' →
    ∃ new, q.Spells new ∧ Grow good new ∧ parts' = new.reverse ++ parts

theorem becomes_self {p : Pattern} (hp : p.isPlain) : p.Becomes good p :=
  fun _ _ h => h.spells hp

theorem Becomes.seq {p p' q q' : Pattern} (hp : p.Becomes good p') (hq : q.Becomes good q') :
    (seq p q).Becomes good (.seq p' q') := fun parts parts' h => by
  obtain ⟨middle, h, h'⟩ := yields_seq_iff.mp h
  obtain ⟨new, hnew, hgrown, rfl⟩ := hp _ _ h
  obtain ⟨new', hnew', hgrown', rfl⟩ := hq _ _ h'
  refine ⟨new ++ new', ⟨new, new', hnew, hnew', rfl⟩, fun t ht => ?_, by simp⟩
  exact (List.mem_append.mp ht).elim (hgrown t) (hgrown' t)

theorem Becomes.alt {p p' q q' : Pattern} (hp : p.Becomes good p') (hq : q.Becomes good q') :
    (alt p q).Becomes good (.alt p' q') := fun parts parts' h => by
  rcases yields_alt_iff.mp h with h | h
  · obtain ⟨new, hnew, hgrown⟩ := hp _ _ h
    exact ⟨new, Or.inl hnew, hgrown⟩
  · obtain ⟨new, hnew, hgrown⟩ := hq _ _ h
    exact ⟨new, Or.inr hnew, hgrown⟩

theorem Becomes.opt {p p' : Pattern} (hp : p.Becomes good p') :
    (opt p).Becomes good (.opt p') := fun parts parts' h => by
  cases h with
  | none => exact ⟨[], Or.inl rfl, fun t ht => absurd ht List.not_mem_nil, rfl⟩
  | some h =>
    obtain ⟨new, hnew, hgrown⟩ := hp _ _ h
    exact ⟨new, Or.inr hnew, hgrown⟩

theorem Becomes.either {p p' q : Pattern} (hp : p.Becomes good q) (hp' : p'.Becomes good q) :
    (Pattern.alt p p').Becomes good q := fun parts parts' h =>
  (yields_alt_iff.mp h).elim (hp parts parts') (hp' parts parts')

theorem Becomes.weaken {p q q' : Pattern} (h : p.Becomes good q)
    (hq : ∀ new, q.Spells new → q'.Spells new) : p.Becomes good q' := fun parts parts' hp => by
  obtain ⟨new, hnew, hgrown⟩ := h _ _ hp
  exact ⟨new, hq new hnew, hgrown⟩

theorem spells_any {r : Rule} {p : Pattern} {ps : List Pattern} {new : List Tree}
    (hr : rule r ∈ p :: ps) (h : (rule r).Spells new) : (any p ps).Spells new := by
  induction ps generalizing p with
  | nil =>
    rw [List.mem_singleton] at hr
    exact hr ▸ h
  | cons q ps ih =>
    rcases List.mem_cons.mp hr with rfl | hr
    · exact Or.inl h
    · exact Or.inr (ih hr)

/-! ## The rules that resume phrases -/

theorem becomes_usingTarget : usingTarget.Becomes good
    (any (all (token .staticKw) [rule .qualifiedName, token .semicolon]) [
      all (token .name) [token .equals, rule .type, token .semicolon],
      all (rule .qualifiedName) [token .semicolon]]) := by
  refine (becomes_self (by decide)).alt fun parts parts' h => ?_
  obtain ⟨_, hname, h⟩ := yields_seq_iff.mp h
  obtain ⟨n, hn, hspelled, rfl⟩ := yields_token_iff.mp hname
  rcases yields_alt_iff.mp h with h | h
  · obtain ⟨new, hnew, hgrown, rfl⟩ := h.spells (by decide)
    exact ⟨.leaf n :: new, Or.inl ((spells_token hn).cons hnew),
      grow_cons.mpr ⟨.leaf hspelled, hgrown⟩, by simp⟩
  · obtain ⟨_, hresumed, hend⟩ := yields_seq_iff.mp h
    obtain ⟨dotted, -, hspace, rfl⟩ := yields_resume_one hresumed (by decide) (.leaf hspelled)
      (fun new hnew => (spells_token hn).cons hnew) (by decide)
    obtain ⟨new, hnew, hgrown, rfl⟩ := hend.spells (by decide)
    exact ⟨Rule.qualifiedName.node (.leaf n :: dotted) :: new,
      Or.inr (Spells.cons ⟨_, _, rfl⟩ hnew), grow_cons.mpr ⟨hspace, hgrown⟩, by simp⟩

/-- The plain pattern of members that begin with a name or a type. -/
def namedMember : Pattern := any (rule .constructorDeclaration) (typedMembers.map rule)

theorem spells_namedMember {r : Rule} (hr : r ∈ typedMembers) (new : List Tree) :
    namedMember.Spells [r.node new] :=
  spells_any (List.mem_cons_of_mem _ (List.mem_map_of_mem hr)) ⟨_, _, rfl⟩

theorem becomes_memberAfterName :
    (seq (token .name) memberAfterName).Becomes good namedMember := fun parts parts' h => by
  obtain ⟨_, hname, h⟩ := yields_seq_iff.mp h
  obtain ⟨n, hn, hspelled, rfl⟩ := yields_token_iff.mp hname
  rcases yields_alt_iff.mp h with h | h
  · obtain ⟨new, -, hnew, rfl⟩ := yields_resume_one h (by decide) (.leaf hspelled)
      (fun new hnew => (spells_token hn).cons hnew) (by decide)
    exact ⟨[Rule.constructorDeclaration.node (.leaf n :: new)], Or.inl ⟨_, _, rfl⟩,
      by simpa [Grow] using hnew, rfl⟩
  · obtain ⟨_, htype, h⟩ := yields_seq_iff.mp h
    obtain ⟨t, ht, rfl⟩ := grown_typeAfterName hn hspelled htype
    obtain ⟨r, hr, new, hnew, rfl⟩ := grown_afterMemberType ht ⟨_, _, rfl⟩ h
    exact ⟨[r.node new], spells_namedMember hr new, by simpa [Grow] using hnew, rfl⟩

theorem becomes_memberAfterType :
    (seq (rule .type) afterMemberType).Becomes good namedMember := fun parts parts' h => by
  obtain ⟨_, htype, h⟩ := yields_seq_iff.mp h
  obtain ⟨_ | ⟨t, _ | _⟩, hspells, hgrown, rfl⟩ := htype.spells rfl
  · obtain ⟨_, _, h⟩ := hspells; cases h
  · obtain ⟨r, hr, new, hnew, rfl⟩ := grown_afterMemberType (grow_cons.mp hgrown).1 hspells h
    exact ⟨[r.node new], spells_namedMember hr new, by simpa [Grow] using hnew, rfl⟩
  · obtain ⟨_, _, h⟩ := hspells; cases h

theorem becomes_leadingNamespace : leadingNamespace.Becomes good
    (alt (seq (rule .namespaceDeclaration) namespaceMembers) (rule .fileScopedNamespace)) :=
  fun parts parts' h => by
  obtain ⟨_, hword, h⟩ := yields_seq_iff.mp h
  obtain ⟨w, hw, hspelled, rfl⟩ := yields_token_iff.mp hword
  obtain ⟨_, hname, h⟩ := yields_seq_iff.mp h
  obtain ⟨_ | ⟨t, _ | _⟩, hspells, hgrown, rfl⟩ := hname.spells rfl
  · obtain ⟨_, _, h⟩ := hspells; cases h
  · have ht := (grow_cons.mp hgrown).1
    rcases yields_alt_iff.mp h with h | h
    · obtain ⟨_, hresumed, hmembers⟩ := yields_seq_iff.mp h
      obtain ⟨new, hspace, rfl⟩ := yields_resume_two hresumed (by decide) (.leaf hspelled) ht
        (fun new hnew => (spells_token hw).cons (hspells.cons hnew)) (by decide)
      obtain ⟨members, hnew, hgrown', rfl⟩ := hmembers.spells (by decide)
      exact ⟨Rule.namespaceDeclaration.node (.leaf w :: t :: new) :: members,
        Or.inl (Spells.cons ⟨_, _, rfl⟩ hnew),
        grow_cons.mpr ⟨hspace, hgrown'⟩, by simp⟩
    · obtain ⟨new, hspace, rfl⟩ := yields_resume_two h (by decide) (.leaf hspelled) ht
        (fun new hnew => (spells_token hw).cons (hspells.cons hnew)) (by decide)
      exact ⟨[Rule.fileScopedNamespace.node (.leaf w :: t :: new)], Or.inr ⟨_, _, rfl⟩,
        by simpa [Grow] using hspace, rfl⟩
  · obtain ⟨_, _, h⟩ := hspells; cases h

/-- **What reading the pattern of a phrase leaves is a phrase of the plain grammar.** -/
theorem becomes_plainBody (r : Rule) : r.body.Becomes good r.plainBody := by
  cases r with
  | source =>
    refine (becomes_self (by decide)).seq (Becomes.opt ?_)
    refine (Becomes.alt becomes_leadingNamespace (becomes_self (by decide))).weaken ?_
    rintro new ((h | h) | h)
    · exact Or.inl h
    · exact Or.inr (Or.inl h)
    · exact Or.inr (Or.inr h)
  | usingDirective =>
    exact (becomes_self (by decide)).seq ((becomes_self (by decide)).seq becomes_usingTarget)
  | member =>
    refine (becomes_self (by decide)).seq ((becomes_self (by decide)).seq ?_)
    exact (becomes_self (by decide)).alt ((becomes_self (by decide)).alt
      ((becomes_self (by decide)).alt (becomes_memberAfterName.either becomes_memberAfterType)))
  | _ => exact becomes_self (by decide)

/-! ## The trees of a parse -/

/-- Reading leaves trees of the plain grammar, if what is asked of default values holds of those that
are read. -/
theorem Reads.yields {source : List Char}
    (hgood : ∀ {s inner s'}, Parser.IsOf source s →
      Rule.defaultValue.body.Reads Rule.defaultValue.follow [] s inner s' →
      good (Rule.defaultValue.node inner.reverse))
    {p : Pattern} {after : TerminalSet} {parts parts' : List Tree} {s s' : Parser}
    (h : p.Reads after parts s parts' s') (hs : s.IsOf source) :
    p.Yields good parts parts' ∧ s'.IsOf source := by
  induction h with
  | @token t after parts s found s' htake =>
    obtain ⟨hlookahead, rfl, -⟩ := Parser.take_eq_ok htake
    have ⟨c, admitted, _, last, hread⟩ := hs
    exact ⟨.token (Parser.isSpelled_of_read hread hlookahead), hs.take htake⟩
  | @rule r after parts s inner s' hinner _ ih =>
    obtain ⟨hyields, hs'⟩ := ih hs
    obtain ⟨new, hnew, hgrown, rfl⟩ := becomes_plainBody r _ _ hyields
    refine ⟨.rule (.node ?_ (by simpa using hgrown) ?_), hs'⟩
    · simpa using hnew
    · rintro rfl
      simpa using hgood hs hinner
  | seq _ _ ih ih' =>
    obtain ⟨hp, hs'⟩ := ih hs
    obtain ⟨hq, hs''⟩ := ih' hs'
    exact ⟨.seq hp hq, hs''⟩
  | left _ _ ih => exact ⟨.left (ih hs).1, (ih hs).2⟩
  | right _ _ ih => exact ⟨.right (ih hs).1, (ih hs).2⟩
  | none => exact ⟨.none, hs⟩
  | some _ _ ih => exact ⟨.some (ih hs).1, (ih hs).2⟩
  | once _ _ _ ih => exact ⟨.once (ih hs).1, (ih hs).2⟩
  | more _ _ _ _ ih ih' =>
    obtain ⟨hp, hs'⟩ := ih hs
    obtain ⟨hq, hs''⟩ := ih' hs'
    exact ⟨.more hp hq, hs''⟩
  | resume _ _ ih => exact ⟨.resume (ih hs).1, (ih hs).2⟩

end Pattern

/-- **The tree of a source is one of the plain grammar.** -/
theorem Tree.grown_of_parse {good : Tree → Prop} {source : List Char}
    (hgood : ∀ {s inner s'}, Parser.IsOf source s →
      Rule.defaultValue.body.Reads Rule.defaultValue.follow [] s inner s' →
      good (Rule.defaultValue.node inner.reverse))
    {t : Tree} (h : Tree.parse source = .ok t) : t.Grown good := by
  simp only [Tree.parse, Pattern.bind_eq_ok] at h
  obtain ⟨s, hread, ⟨parts, s'⟩, hparse, h⟩ := h
  cases h
  have hs : s.IsOf source := ⟨_, _, Cursor.isOf_ofSource source, _, hread⟩
  obtain ⟨hyields, -⟩ := (Pattern.reads_of_parse hparse).yields hgood hs
  obtain ⟨new, hnew, hgrown, rfl⟩ := Pattern.becomes_plainBody .source _ _ hyields
  rw [List.append_nil, List.reverse_reverse]
  exact Pattern.grown_node hnew hgrown (by decide)

end Facade
