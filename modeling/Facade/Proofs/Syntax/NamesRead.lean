import Facade.Proofs.Grammar.Contexts
import Facade.Proofs.Grammar.Growth
import Facade.Proofs.Syntax.ReadAlias
import Facade.Proofs.Syntax.WrittenSource

/-!
# A type that was read is read again

Each name in a type that was read was read as a name where it stands, and where the text of the type
is read it stands among the same terminals. So the text of the type is read as the type.

* `Tree.NamesRead`: the names in the types of a tree are read as names;
* `TypeSyntax.isReadInside_of_tree`: types of such trees;
* `Pattern.firstName_of_reads`, `Pattern.elementName_of_reads`: names that were read;
* **`Pattern.Reads.namesRead`**, `Tree.namesRead_of_parse`: the types in directives that are read;
* **`TypeSyntax.parse_text_of_parse`**: a type that was read is read from its text;
* `parse_text_of_parse_tuple`: a type with all kinds of suffixes.
-/

namespace Facade

open Scan

/-- The names in the types of a tree are read as names where they stand. -/
inductive Tree.NamesRead : Tree → Prop
  | leaf {t} : NamesRead (.leaf t)
  | node {r children extent} : (∀ t ∈ children, NamesRead t) →
      (r = .type → ∀ u, TypeSyntax.ofTree? (.node r children extent) = some u →
        u.IsClear .typeStart) →
      (r = .tupleElement → ∀ t n, children = [t, .leaf n] → ReadsAsName .nameEnd n.text) →
      NamesRead (.node r children extent)

theorem Tree.NamesRead.of_mem {r : Rule} {children : List Tree} {extent : Option Extent} {t : Tree}
    (h : (Tree.node r children extent).NamesRead) (ht : t ∈ children) : t.NamesRead := by
  cases h with
  | node hchildren _ _ => exact hchildren t ht

/-! ## Types of such trees -/

namespace TypeSyntax

theorem firstName?_withSuffix {t u : TypeSyntax} {suffix : List String}
    (h : t.withSuffix suffix = some u) : u.firstName? = t.firstName? := by
  unfold TypeSyntax.withSuffix at h
  split at h <;> cases h <;> rw [firstName?]

theorem IsReadable.withSuffix {t u : TypeSyntax} (ht : t.IsReadable) {suffix : List String}
    (h : t.withSuffix suffix = some u) : u.IsReadable := by
  unfold TypeSyntax.withSuffix at h
  split at h <;> cases h
  · exact .nullable ht
  · exact .pointer ht
  · exact .array ht

theorem firstName?_of_base {r : Rule} {children : List Tree} {extent : Option Extent}
    {u : TypeSyntax} (h : TypeSyntax.ofBase? (.node r children extent) = some u)
    (hr : r ≠ .namedType) : u.firstName? = none := by
  unfold TypeSyntax.ofBase? at h
  split at h
  · cases h
    rfl
  · next heq => exact absurd (Tree.node.inj heq).1 hr
  · next heq => exact absurd (Tree.node.inj heq).1 hr
  · obtain ⟨es, -, h⟩ := Option.bind_eq_some_iff.mp h
    cases h
    rfl
  · cases h

/-- What passes from a type to the type with a suffix passes to that with all its suffixes. -/
theorem induction_withSuffixes {Q : TypeSyntax → Prop}
    (hQ : ∀ {t u suffix}, Q t → TypeSyntax.withSuffix t suffix = some u → Q u) {t u : TypeSyntax}
    (ht : Q t) {suffixes : List Tree} (h : t.withSuffixes suffixes = some u) : Q u := by
  induction suffixes generalizing t with
  | nil =>
    cases h
    exact ht
  | cons s suffixes ih =>
    unfold TypeSyntax.withSuffixes at h
    split at h
    · next hnil => cases hnil
    · next hcons =>
      cases hcons
      obtain ⟨v, hv, h⟩ := Option.bind_eq_some_iff.mp h
      exact ih (hQ ht hv) h
    · cases h

/-- The type is read behind a bracket or a comma. -/
def IsReadInside (t : TypeSyntax) : Prop := t.IsClear .typeStart ∧ t.IsReadable

/-- What is known of the trees up to some size. -/
def ReadableBelow (size : Nat) : Prop :=
  ∀ t : Tree, sizeOf t < size → t.NamesRead → ∀ u, TypeSyntax.ofTree? t = some u → u.IsReadInside

theorem isReadInside_of_trees {size : Nat} (ih : ReadableBelow size) {ts : List Tree}
    (hsize : sizeOf ts ≤ size) (hread : ∀ t ∈ ts, t.NamesRead) {us : List TypeSyntax}
    (h : TypeSyntax.ofTrees? ts = some us) : ∀ u ∈ us, u.IsReadInside := by
  induction ts generalizing us with
  | nil =>
    simp only [TypeSyntax.ofTrees?, Option.some.injEq] at h
    simp [← h]
  | cons t ts iht =>
    simp only [TypeSyntax.ofTrees?, Option.pure_def, Option.bind_eq_bind,
      Option.bind_eq_some_iff, Option.some.injEq] at h
    obtain ⟨u, hu, us, hus, rfl⟩ := h
    simp only [List.cons.sizeOf_spec] at hsize
    intro v hv
    rcases List.mem_cons.mp hv with rfl | hv
    · exact ih t (by omega) (hread t List.mem_cons_self) v hu
    · exact iht (by omega) (fun t ht => hread t (List.mem_cons_of_mem _ ht)) hus v hv

theorem isReadInside_of_elements {size : Nat} (ih : ReadableBelow size) {ts : List Tree}
    (hsize : sizeOf ts ≤ size) (hread : ∀ t ∈ ts, t.NamesRead)
    {es : List (TypeSyntax × Option String)} (h : TypeSyntax.ofElements? ts = some es) :
    ∀ e ∈ es, e.1.IsReadInside ∧ ∀ n ∈ e.2, ReadsAsName .nameEnd n := by
  induction ts generalizing es with
  | nil =>
    simp only [TypeSyntax.ofElements?, Option.some.injEq] at h
    simp [← h]
  | cons t ts iht =>
    have hrest : ∀ {es}, TypeSyntax.ofElements? ts = some es →
        ∀ e ∈ es, e.1.IsReadInside ∧ ∀ n ∈ e.2, ReadsAsName .nameEnd n := fun {es} hes =>
      iht (by simp only [List.cons.sizeOf_spec] at hsize; omega)
        (fun t ht => hread t (List.mem_cons_of_mem _ ht)) hes
    have ht := hread t List.mem_cons_self
    unfold TypeSyntax.ofElements? at h
    split at h
    · next hnil => cases hnil
    · next hcons =>
      cases hcons
      simp only [Option.pure_def, Option.bind_eq_bind, Option.bind_eq_some_iff,
        Option.some.injEq] at h
      obtain ⟨u, hu, es, hes, rfl⟩ := h
      have hinside := ih _ (by simp at hsize ⊢; omega) (ht.of_mem List.mem_cons_self) u hu
      exact List.forall_mem_cons.mpr ⟨⟨hinside, by simp⟩, hrest hes⟩
    · next n _ _ hcons =>
      cases hcons
      simp only [Option.pure_def, Option.bind_eq_bind, Option.bind_eq_some_iff,
        Option.some.injEq] at h
      obtain ⟨u, hu, es, hes, rfl⟩ := h
      have hinside := ih _ (by simp at hsize ⊢; omega) (ht.of_mem List.mem_cons_self) u hu
      have hn : ReadsAsName .nameEnd n.text := by
        cases ht with
        | node _ _ helement => exact helement rfl _ n rfl
      exact List.forall_mem_cons.mpr ⟨⟨hinside, by simpa using hn⟩, hrest hes⟩
    · cases h

theorem isReadInside_of_parts {size : Nat} (ih : ReadableBelow size) {ts : List Tree}
    (hsize : sizeOf ts ≤ size) (hread : ∀ t ∈ ts, t.NamesRead) {ps : List NamePart}
    (h : NamePart.ofTrees? ts = some ps) : ∀ q ∈ ps, ∀ a ∈ q.arguments, a.IsReadInside := by
  induction ts generalizing ps with
  | nil =>
    simp only [NamePart.ofTrees?, Option.some.injEq] at h
    simp [← h]
  | cons t ts iht =>
    have hrest : ∀ {ps}, NamePart.ofTrees? ts = some ps →
        ∀ q ∈ ps, ∀ a ∈ q.arguments, a.IsReadInside := fun {ps} hps =>
      iht (by simp only [List.cons.sizeOf_spec] at hsize; omega)
        (fun t ht => hread t (List.mem_cons_of_mem _ ht)) hps
    have ht := hread t List.mem_cons_self
    unfold NamePart.ofTrees? at h
    split at h
    · next hnil => cases hnil
    · next hcons =>
      cases hcons
      simp only [Option.pure_def, Option.bind_eq_bind, Option.bind_eq_some_iff,
        Option.some.injEq] at h
      obtain ⟨ps, hps, rfl⟩ := h
      exact List.forall_mem_cons.mpr ⟨by simp [NamePart.arguments], hrest hps⟩
    · next n as _ _ _ hcons =>
      cases hcons
      simp only [Option.pure_def, Option.bind_eq_bind, Option.bind_eq_some_iff,
        Option.some.injEq] at h
      obtain ⟨as', has, ps, hps, rfl⟩ := h
      have hlist := ht.of_mem (List.mem_cons_of_mem _ List.mem_cons_self)
      exact List.forall_mem_cons.mpr ⟨isReadInside_of_trees ih (by simp at hsize ⊢; omega)
        (fun t ht => hlist.of_mem ht) has, hrest hps⟩
    · cases h

theorem isReadable_of_base {size : Nat} (ih : ReadableBelow size) {t : Tree}
    (hsize : sizeOf t ≤ size) (hread : t.NamesRead) {u : TypeSyntax}
    (h : TypeSyntax.ofBase? t = some u) : u.IsReadable := by
  unfold TypeSyntax.ofBase? at h
  split at h
  · cases h
    exact .predefined
  · simp only [Option.pure_def, Option.bind_eq_bind, Option.bind_eq_some_iff,
      Option.some.injEq] at h
    obtain ⟨ps, hps, rfl⟩ := h
    have hparts := isReadInside_of_parts ih (by simp at hsize ⊢; omega)
      (fun t ht => hread.of_mem (List.mem_cons_of_mem _ ht)) hps
    exact .named (fun q hq a ha => (hparts q hq a ha).1) fun q hq a ha => (hparts q hq a ha).2
  · simp only [Option.pure_def, Option.bind_eq_bind, Option.bind_eq_some_iff,
      Option.some.injEq] at h
    obtain ⟨ps, hps, rfl⟩ := h
    have hparts := isReadInside_of_parts ih (by simp at hsize ⊢; omega)
      (fun t ht => hread.of_mem ht) hps
    exact .named (fun q hq a ha => (hparts q hq a ha).1) fun q hq a ha => (hparts q hq a ha).2
  · simp only [Option.pure_def, Option.bind_eq_bind, Option.bind_eq_some_iff,
      Option.some.injEq] at h
    obtain ⟨es, hes, rfl⟩ := h
    have helements := isReadInside_of_elements ih (by simp at hsize ⊢; omega)
      (fun t ht => hread.of_mem ht) hes
    exact .tuple (fun e he => (helements e he).1.1) (fun e he => (helements e he).1.2)
      fun e he => (helements e he).2
  · cases h

/-- The type of a tree whose names are read as names is read behind a bracket or a comma. -/
theorem isReadInside_of_tree {t : Tree} (hread : t.NamesRead) {u : TypeSyntax}
    (h : TypeSyntax.ofTree? t = some u) : u.IsReadInside := by
  have hbelow : ∀ size, ReadableBelow size := by
    intro size
    induction size with
    | zero => exact fun t ht => absurd ht (Nat.not_lt_zero _)
    | succ size ih =>
      intro t ht hread u h
      have htree := h
      unfold TypeSyntax.ofTree? at h
      split at h
      · next base suffixes extent =>
        obtain ⟨v, hv, hu⟩ := Option.bind_eq_some_iff.mp h
        have hbase := isReadable_of_base ih (by simp at ht ⊢; omega)
          (hread.of_mem List.mem_cons_self) hv
        refine ⟨?_, induction_withSuffixes (fun ht => ht.withSuffix) hbase hu⟩
        cases hread with
        | node _ htype _ => exact htype rfl u htree
      · cases h
  exact hbelow (sizeOf t + 1) t (Nat.lt_succ_self _) hread u h

end TypeSyntax

/-! ## Names that were read -/

theorem ReadsAsName.mono {A B : TerminalSet} {n : String} (h : ReadsAsName A n)
    (hwords : ∀ e ∈ Terminal.words, e.1 ∈ B → e.1 ∈ A) : ReadsAsName B n := by
  unfold ReadsAsName classifyName at h ⊢
  split at h
  · next w hw =>
    obtain ⟨e, he, rfl⟩ := Option.map_eq_some_iff.mp hw
    have hmem := List.mem_of_find?_eq_some he
    split_ifs at h with hA
    · exact absurd h (spelling?_of_mem e (List.mem_append_left _ hmem)).1
    · exact if_neg fun hB => hA (hwords e hmem hB)
  · rfl

namespace Pattern

variable {source : List Char} {after : TerminalSet} {parts parts' : List Tree} {s s' : Parser}

theorem reads_seq {p q : Pattern} (h : (seq p q).Reads after parts s parts' s') :
    ∃ middle t, p.Reads (q.admits after) parts s middle t ∧ q.Reads after middle t parts' s' := by
  cases h with
  | seq hp hq => exact ⟨_, _, hp, hq⟩

theorem reads_alt {p q : Pattern} (h : (alt p q).Reads after parts s parts' s') :
    p.Reads after parts s parts' s' ∨ q.Reads after parts s parts' s' := by
  cases h with
  | left _ h => exact Or.inl h
  | right _ h => exact Or.inr h

theorem reads_opt {p : Pattern} (h : (opt p).Reads after parts s parts' s') :
    parts' = parts ∧ s' = s ∨ p.Reads after parts s parts' s' := by
  cases h with
  | none => exact Or.inl ⟨rfl, rfl⟩
  | some _ h => exact Or.inr h

theorem reads_token {t : Terminal} (h : (token t).Reads after parts s parts' s') :
    ∃ found, s.lookahead = some found ∧ found.terminal = t ∧ s'.IsAt s.cursor after ∧
      parts' = .leaf found :: parts := by
  cases h with
  | token h =>
    obtain ⟨hlookahead, hterminal, hat⟩ := Parser.take_eq_ok h
    exact ⟨_, hlookahead, hterminal, hat, rfl⟩

theorem reads_rule {r : Rule} (h : (rule r).Reads after parts s parts' s') :
    ∃ inner, r.body.Reads r.follow [] s inner s' ∧ parts' = r.node inner.reverse :: parts := by
  cases h with
  | rule h _ => exact ⟨_, h, rfl⟩

theorem puts_of_reads {p : Pattern} (h : p.Reads after parts s parts' s') (hs : s.IsOf source)
    (hp : p.isPlain) : ∃ new, p.Spells new ∧ parts' = new.reverse ++ parts := by
  have hyields : p.Yields (fun _ => True) parts parts' ∧ s'.IsOf source :=
    h.yields (fun _ _ => trivial) hs
  obtain ⟨new, hnew, -, hparts⟩ := hyields.1.spells hp
  exact ⟨new, hnew, hparts⟩

theorem node_phrase (r r' : Rule) (inner rest : List Tree) :
    r.node (r'.node inner :: rest) = .node r (r'.node inner :: rest.filter (Tree.isKept r))
      (Tree.cover (r'.node inner :: rest)) := rfl

theorem node_leaf {r : Rule} {t : Token} (ht : Tree.isKept r (.leaf t) = true) (rest : List Tree) :
    r.node (.leaf t :: rest) = .node r (.leaf t :: rest.filter (Tree.isKept r))
      (Tree.cover (.leaf t :: rest)) := by
  rw [Rule.node, List.filter_cons_of_pos ht]

theorem reads_simpleName (h : (rule .simpleName).Reads after parts s parts' s')
    (hs : s.IsOf source) : ∃ found arguments, s.lookahead = some found ∧ found.terminal = .name ∧
      parts' = Rule.simpleName.node (.leaf found :: arguments) :: parts := by
  obtain ⟨inner, hinner, rfl⟩ := reads_rule h
  obtain ⟨_, s₁, hname, harguments⟩ := reads_seq hinner
  obtain ⟨found, hlookahead, hterminal, -, rfl⟩ := reads_token hname
  obtain ⟨arguments, -, rfl⟩ := puts_of_reads harguments (isOf_of_reads hname hs) (by decide)
  exact ⟨found, arguments, hlookahead, hterminal, by simp⟩

theorem firstName_of_reads_named {inner : List Tree}
    (h : Rule.namedType.body.Reads after [] s inner s') (hs : s.IsOf source) {u : TypeSyntax}
    (hu : TypeSyntax.ofBase? (Rule.namedType.node inner.reverse) = some u) :
    ∀ n ∈ u.firstName?, ∃ found, s.lookahead = some found ∧ found.terminal = .name ∧
      found.text = n := by
  intro n hn
  obtain ⟨before, s₁, hglobal, hrest⟩ := reads_seq h
  obtain ⟨_, s₂, hpart, hdotted⟩ := reads_seq hrest
  have hs₁ := isOf_of_reads hglobal hs
  obtain ⟨dotted, -, rfl⟩ := puts_of_reads hdotted (isOf_of_reads hpart hs₁) (by decide)
  obtain ⟨found, arguments, hlookahead, hterminal, rfl⟩ := reads_simpleName hpart hs₁
  rcases reads_opt hglobal with ⟨rfl, rfl⟩ | hglobal
  · refine ⟨found, hlookahead, hterminal, ?_⟩
    have hkept : Tree.isKept .simpleName (.leaf found) = true := by
      simp [Tree.isKept, hterminal, Terminal.isNamed]
    rw [List.reverse_append, List.reverse_reverse, List.reverse_singleton, List.singleton_append,
      node_phrase, node_leaf hkept] at hu
    simp only [TypeSyntax.ofBase?, Option.pure_def, Option.bind_eq_bind, Option.bind_eq_some_iff,
      Option.some.injEq] at hu
    obtain ⟨ps, hps, rfl⟩ := hu
    obtain ⟨q, qs, rfl, hq⟩ : ∃ q qs, ps = q :: qs ∧ q.name = found.text := by
      unfold NamePart.ofTrees? at hps
      split at hps
      · next hnil => cases hnil
      · next hcons =>
        simp only [List.cons.injEq, Tree.node.injEq, true_and, Tree.leaf.injEq] at hcons
        obtain ⟨⟨⟨rfl, -⟩, -⟩, -⟩ := hcons
        simp only [Option.pure_def, Option.bind_eq_bind, Option.bind_eq_some_iff,
          Option.some.injEq] at hps
        obtain ⟨qs, -, rfl⟩ := hps
        exact ⟨_, qs, rfl, rfl⟩
      · next hcons =>
        simp only [List.cons.injEq, Tree.node.injEq, true_and, Tree.leaf.injEq] at hcons
        obtain ⟨⟨⟨rfl, -⟩, -⟩, -⟩ := hcons
        simp only [Option.pure_def, Option.bind_eq_bind, Option.bind_eq_some_iff,
          Option.some.injEq] at hps
        obtain ⟨as, -, qs, -, rfl⟩ := hps
        exact ⟨_, qs, rfl, rfl⟩
      · cases hps
    rw [TypeSyntax.firstName?, Option.mem_some, hq] at hn
    exact hn
  · -- Behind the mark of the global namespace no name is the first.
    obtain ⟨mark, -, rfl⟩ := reads_rule hglobal
    rw [List.reverse_append, List.reverse_reverse, List.reverse_cons, List.reverse_singleton,
      List.singleton_append, List.cons_append, node_phrase, Rule.node.eq_1 .globalPrefix] at hu
    simp only [TypeSyntax.ofBase?, Option.pure_def, Option.bind_eq_bind, Option.bind_eq_some_iff,
      Option.some.injEq] at hu
    obtain ⟨ps, -, rfl⟩ := hu
    cases hn

/-- The name that a type begins with is the token that it begins with. -/
theorem firstName_of_reads {inner : List Tree} (h : Rule.type.body.Reads after [] s inner s')
    (hs : s.IsOf source) {u : TypeSyntax}
    (hu : TypeSyntax.ofTree? (Rule.type.node inner.reverse) = some u) :
    ∀ n ∈ u.firstName?, ∃ found, s.lookahead = some found ∧ found.terminal = .name ∧
      found.text = n := by
  obtain ⟨base, s₁, hbase, hsuffixes⟩ := reads_seq h
  obtain ⟨suffixes, -, rfl⟩ := puts_of_reads hsuffixes (isOf_of_reads hbase hs) (by decide)
  obtain ⟨r, inner, hinner, rfl⟩ : ∃ (r : Rule) (inner : List Tree),
      (r = .namedType → r.body.Reads r.follow [] s inner s₁) ∧
      base = [r.node inner.reverse] := by
    rcases reads_alt hbase with hbase | hbase
    · obtain ⟨inner, hinner, rfl⟩ := reads_rule hbase
      exact ⟨.namedType, inner, fun _ => hinner, rfl⟩
    · rcases reads_alt hbase with hbase | hbase
      · obtain ⟨inner, -, rfl⟩ := reads_rule hbase
        exact ⟨.predefinedType, inner, (fun h => by cases h), rfl⟩
      · obtain ⟨inner, -, rfl⟩ := reads_rule hbase
        exact ⟨.tupleType, inner, (fun h => by cases h), rfl⟩
  rw [List.reverse_append, List.reverse_reverse, List.reverse_singleton, List.singleton_append,
    node_phrase, TypeSyntax.ofTree?] at hu
  obtain ⟨v, hv, hu⟩ := Option.bind_eq_some_iff.mp hu
  have hfirst : u.firstName? = v.firstName? :=
    TypeSyntax.induction_withSuffixes (Q := fun u => u.firstName? = v.firstName?)
      (fun ht hsuffix => (TypeSyntax.firstName?_withSuffix hsuffix).trans ht) rfl hu
  rw [hfirst]
  by_cases hr : r = .namedType
  · subst hr
    exact firstName_of_reads_named (hinner rfl) hs hv
  · rw [TypeSyntax.firstName?_of_base hv hr]
    simp

/-- The name of an element of a tuple was read as a name behind the type. -/
theorem elementName_of_reads {inner : List Tree}
    (h : Rule.tupleElement.body.Reads Rule.tupleElement.follow [] s inner s')
    (hs : s.Admits Rule.tupleElement.first) {t : Tree} {n : Token}
    (hchildren : inner.reverse.filter (Tree.isKept .tupleElement) = [t, .leaf n]) :
    ReadsAsName .nameEnd n.text := by
  obtain ⟨_, s₁, htype, hname⟩ := reads_seq h
  obtain ⟨inner', hinner, rfl⟩ := reads_rule htype
  have hadmits : s₁.Admits Rule.type.follow := Rule.admits_of_reads (by decide) hinner hs
  rcases reads_opt hname with ⟨rfl, -⟩ | hname
  · cases hchildren
  · obtain ⟨found, hlookahead, hterminal, -, rfl⟩ := reads_token hname
    have hkept : Tree.isKept .tupleElement (.leaf found) = true := by
      simp [Tree.isKept, hterminal, Terminal.isNamed]
    have hparts : [Rule.type.node inner'.reverse, .leaf found] = [t, .leaf n] := by
      rw [← hchildren, List.reverse_cons, List.reverse_singleton, List.singleton_append,
        List.filter_cons_of_pos rfl, List.filter_cons_of_pos hkept, List.filter_nil]
    obtain rfl : found = n := by simpa using (List.cons.inj (List.cons.inj hparts).2).1
    obtain ⟨c, A, hat, hA⟩ := hadmits
    have hwords : ∀ e ∈ Terminal.words, e.1 ∈ TerminalSet.nameEnd → e.1 ∈ Rule.type.follow := by
      decide
    exact ReadsAsName.mono (hat.readsAsName hlookahead hterminal) fun e he hmem =>
      hA _ (hwords e he hmem)

end Pattern

/-! ## Directives that were read -/

/-- The phrases that using directives are made of. -/
def Rule.isOfDirective (r : Rule) : Bool :=
  [Rule.usingDirective, .qualifiedName, .type, .typeSuffix, .namedType, .globalPrefix, .simpleName,
    .typeArgumentList, .tupleType, .tupleElement, .predefinedType].contains r

/-- **The types that are read in a directive have names that are read as names.** -/
theorem Pattern.Reads.namesRead {source : List Char} {inner : List Tree} {s s' : Parser}
    (h : Rule.usingDirective.body.Reads Rule.usingDirective.follow [] s inner s')
    (hs : s.Admits Rule.usingDirective.first) (hof : s.IsOf source) : ∀ t ∈ inner, t.NamesRead := by
  have huses : ∀ r : Rule, r.isOfDirective →
      r.body.uses Rule.isOfDirective fun r => r == .qualifiedName := by
    intro r
    cases r <;> decide
  have hnode : ∀ {r : Rule} {inner : List Tree}, (∀ t ∈ inner, t.NamesRead) →
      ∀ t ∈ inner.reverse.filter (Tree.isKept r), t.NamesRead := fun hinner t ht =>
    hinner t (List.mem_reverse.mp (List.mem_filter.mp ht).1)
  refine h.forall_parts huses (fun _ => .leaf) ?_ ?_ (huses _ rfl) (fits_body _) (fun _ ht => ht)
    (hs.mono fun _ ht => mem_first_of_admits_body (by decide) ht) hof (by simp)
  · intro r inner s s' _ hbody hfirst hof hinner
    refine .node (hnode hinner) ?_ ?_
    · rintro rfl u hu n hn
      obtain ⟨found, hlookahead, hterminal, rfl⟩ := firstName_of_reads hbody hof hu n hn
      obtain ⟨c, A, hat, hA⟩ := hfirst
      exact ReadsAsName.mono (hat.readsAsName hlookahead hterminal) fun e _ hmem => hA _ hmem
    · rintro rfl t n hchildren
      exact elementName_of_reads hbody hfirst hchildren
  · intro r inner hr hinner
    obtain rfl : r = .qualifiedName := by simpa using hr
    exact .node (hnode hinner) (by simp) (by simp)

/-- The using directives of a source have names that are read as names. -/
theorem Tree.namesRead_of_parse {source : List Char} {r : Rule} {children : List Tree}
    {extent : Option Extent} (h : Tree.parse source = .ok (.node r children extent)) {t : Tree}
    (ht : t ∈ Tree.phrases .usingDirective children) : t.NamesRead := by
  simp only [Tree.parse, Pattern.bind_eq_ok] at h
  obtain ⟨s, hread, ⟨parts, s'⟩, hparse, h⟩ := h
  cases h
  have hat : s.IsAt (Cursor.ofSource source) (Rule.source.body.admits Rule.source.follow) :=
    ⟨_, hread⟩
  have hof : s.IsOf source := ⟨_, _, Cursor.isOf_ofSource source, hat⟩
  have hparts : ∀ t ∈ parts, t.isPhrase .usingDirective → t.NamesRead := by
    have huses : ∀ r : Rule, r.body.uses (fun _ => true) fun r => r != .usingDirective := by
      intro r
      cases r <;> decide
    refine (Pattern.reads_of_parse hparse).forall_parts (fun r _ => huses r) (fun _ ht => ?_) ?_ ?_
      (huses .source) (Pattern.fits_body .source) (fun _ ht => ht) ⟨_, _, hat, fun _ ht => ht⟩ hof
      (by simp)
    · cases ht
    · intro r inner s s' _ hbody hfirst hof _ hr
      obtain rfl : r = .usingDirective := by simpa [Rule.node, Tree.isPhrase] using hr
      have hinner := hbody.namesRead hfirst hof
      refine .node (fun t ht => ?_) (by simp) (by simp)
      exact hinner t (List.mem_reverse.mp (List.mem_filter.mp ht).1)
    · intro r inner hresumed _ hr
      obtain rfl : r = .usingDirective := by simpa [Rule.node, Tree.isPhrase] using hr
      cases hresumed
  obtain ⟨hmem, hphrase⟩ := List.mem_filter.mp ht
  exact hparts t (List.mem_reverse.mp (List.mem_filter.mp hmem).1) hphrase

/-! ## The text of a type -/

namespace TypeSyntax

theorem isReadInside_of_alias {t : Tree} {u : UsingDirective}
    (h : UsingDirective.ofTree? t = some u) {n : String} {v : TypeSyntax} (hv : u.target = .alias n v) (hread : t.NamesRead) :
    v.IsReadInside := by
  unfold UsingDirective.ofTree? at h
  split at h
  · simp only [Option.pure_def, Option.bind_eq_bind, Option.bind_eq_some_iff,
      Option.some.injEq] at h
    obtain ⟨target, htarget, rfl⟩ := h
    obtain rfl : target = .alias n v := hv
    unfold UsingTarget.ofParts? at htarget
    split at htarget
    · split_ifs at htarget <;> cases htarget
    · simp only [Option.pure_def, Option.bind_eq_bind, Option.bind_eq_some_iff,
        Option.some.injEq] at htarget
      obtain ⟨m, -, v', hamong, htarget⟩ := htarget
      cases htarget
      obtain ⟨t, ht, hv⟩ := Option.bind_eq_some_iff.mp hamong
      exact isReadInside_of_tree (hread.of_mem (Tree.phrase?_eq_some ht).1) hv
  · cases h

theorem isReadInside_of_parse {path source : String} {unit : CompilationUnit}
    (h : CompilationUnit.parse path source = .ok unit) {u : UsingDirective} (hu : u ∈ unit.usings)
    {n : String} {t : TypeSyntax} (ht : u.target = .alias n t) : t.IsReadInside := by
  obtain ⟨tree, htree, hunit⟩ := CompilationUnit.parse_eq_ok.mp h
  unfold CompilationUnit.ofTree? at hunit
  split at hunit
  · simp only [Option.pure_def, Option.bind_eq_bind, Option.bind_eq_some_iff,
      Option.some.injEq] at hunit
    obtain ⟨us, hus, ms, -, rfl⟩ := hunit
    obtain ⟨d, hd, hu⟩ := mem_of_mapM hus hu
    exact isReadInside_of_alias hu ht (Tree.namesRead_of_parse htree hd)
  · cases hunit

/-- **A type that was read is read again from its text.** -/
theorem parse_text_of_parse {text : String} {t : TypeSyntax}
    (h : TypeSyntax.parse text = .ok t) : TypeSyntax.parse t.text = .ok t := by
  obtain ⟨unit, hunit, h⟩ := Pattern.bind_eq_ok.mp h
  obtain ⟨n, u, us, husings, htarget⟩ : ∃ n u us, unit.usings = u :: us ∧
      u.target = UsingTarget.alias n t := by
    split at h
    · next heq =>
      obtain ⟨u, hhead, htarget⟩ := Option.map_eq_some_iff.mp heq
      obtain ⟨us, husings⟩ := List.head?_eq_some_iff.mp hhead
      cases h
      exact ⟨_, u, us, husings, htarget⟩
    · cases h
  have hu : u ∈ unit.usings := husings ▸ List.mem_cons_self
  have hwritten : u.target.IsWritten :=
    (CompilationUnit.isWritten_of_parse (P := fun _ => True) (fun _ _ => trivial) hunit).usings u hu
  rw [htarget] at hwritten
  have hread := isReadInside_of_parse hunit hu htarget
  exact parse_text hwritten.2 hread.2 hread.1

/-- A type with suffixes of every kind, type arguments and named elements. -/
theorem parse_text_of_parse_tuple : ∃ t,
    TypeSyntax.parse "(global :: A . B<int[,],async>? get, /* rows */ string * [] []set)" = .ok t ∧
      t.text = "(global::A.B<int[,], async>? get, string*[][] set)" ∧
      TypeSyntax.parse t.text = .ok t :=
  have h : TypeSyntax.parse "(global :: A . B<int[,],async>? get, /* rows */ string * [] []set)" =
      .ok (.tuple [
        (.nullable (.named true [.mk "A" [],
          .mk "B" [.array (.predefined "int") 2, .named false [.mk "async" []]]]), some "get"),
        (.array (.array (.pointer (.predefined "string")) 1) 1, some "set")]) :=
    eq_ok_of_toOption (by decide +kernel)
  ⟨_, h, by decide +kernel, parse_text_of_parse h⟩

end TypeSyntax

end Facade
