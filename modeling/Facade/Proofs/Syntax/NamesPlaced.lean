import Facade.Proofs.Grammar.PhraseParts
import Facade.Proofs.Syntax.ReadDirective
import Facade.Proofs.Syntax.SourceOrder

/-!
# Names that were read where they stand

A parameter and a directive are printed as they were declared, so what was read of them is read again. A
type that has members is of a form that has a body.

* `Pattern.parameterName_of_reads`, **`UsingDirective.isLegible_of_reads`**: what was read of a parameter
  and of a directive;
* `Tree.NamesPlaced`, `Tree.namesPlaced_of_parse`: so it is in the tree of a source;
* `Requirement.placed`, **`CompilationUnit.meets_placed`**: so it is of all declarations of a source.
-/

namespace Facade

open Scan

/-! ## Parameters -/

namespace Pattern

variable {source : List Char} {after : TerminalSet} {parts parts' : List Tree} {s s' : Parser}

theorem phrases_of_reads {p : Pattern} {r : Rule} (h : p.Reads after parts s parts' s')
    (hof : s.IsOf source) (hplain : p.isPlain) (hkinds : ∀ k ∈ p.kinds, k = .phrase r) :
    ∃ new : List Tree, (∀ t ∈ new, t.isPhrase r) ∧ parts' = new.reverse ++ parts := by
  obtain ⟨new, hnew, rfl⟩ := puts_of_reads h hof hplain
  exact ⟨new, fun t ht => Tree.isPhrase_iff.mpr (hkinds _ (hnew.kind_mem ht)), rfl⟩

/-- The name of a parameter was read as a name behind its type. -/
theorem parameterName_of_reads {inner : List Tree}
    (h : Rule.parameter.body.Reads Rule.parameter.follow [] s inner s')
    (hs : s.Admits Rule.parameter.first) (hof : s.IsOf source) {n : Token}
    (hn : Tree.name? (inner.reverse.filter (Tree.isKept .parameter)) = some n) :
    ReadsAsName .nameEnd n.text := by
  obtain ⟨_, s₁, hattributes, h⟩ := reads_seq h
  obtain ⟨_, s₂, hmodifiers, h⟩ := reads_seq h
  obtain ⟨_, s₃, htype, h⟩ := reads_seq h
  obtain ⟨_, s₄, hname, hdefault⟩ := reads_seq h
  have hof₁ := isOf_of_reads hattributes hof
  have hof₂ := isOf_of_reads hmodifiers hof₁
  have hof₃ := isOf_of_reads htype hof₂
  have hs₁ := hattributes.admits (by decide) (fun _ ht => ht)
    (hs.mono fun t ht => mem_first_of_admits_body (r := .parameter) (by decide) (mem_admits_seq.mpr ht))
  have hs₂ := hmodifiers.admits (by decide) (fun _ ht => ht) (hs₁.mono fun t ht => mem_admits_seq.mpr ht)
  obtain ⟨attributes, hsections, rfl⟩ := phrases_of_reads (r := .attributeSection) hattributes hof
    (by decide) (by decide)
  obtain ⟨modifiers, hwords, rfl⟩ := phrases_of_reads (r := .parameterModifier) hmodifiers hof₁
    (by decide) (by decide)
  obtain ⟨inner', hinner, rfl⟩ := reads_rule htype
  obtain ⟨found, hlookahead, hterminal, -, rfl⟩ := reads_token hname
  obtain ⟨default, -, rfl⟩ := puts_of_reads hdefault (isOf_of_reads hname hof₃) (by decide)
  obtain ⟨c, A, hat, hA⟩ := Rule.admits_of_reads (r := .type) (by decide) hinner hs₂
  have hkept : Tree.isKept .parameter (.leaf found) = true := by
    simp [Tree.isKept, hterminal, Terminal.isNamed]
  simp only [List.append_nil, List.reverse_append, List.reverse_cons, List.reverse_reverse,
    List.nil_append, List.append_assoc, List.cons_append, List.filter_append,
    Tree.filter_isKept_of_forall hsections, Tree.filter_isKept_of_forall hwords,
    Tree.name?_append hsections, Tree.name?_append hwords] at hn
  rw [List.filter_cons_of_pos rfl, List.filter_cons_of_pos hkept, Tree.name?_phrase, Tree.name?_leaf,
    if_pos hterminal, Option.some.injEq] at hn
  obtain rfl := hn
  have hends : ∀ e ∈ Terminal.words, e.1 ∈ TerminalSet.nameEnd → e.1 ∈ Rule.type.follow := by decide
  exact ReadsAsName.mono (hat.readsAsName hlookahead hterminal) fun e he hmem => hA _ (hends e he hmem)

end Pattern

/-! ## Directives -/

namespace UsingDirective

variable {source : List Char}

theorem ofTree?_node {parts : List Tree} {u : UsingDirective}
    (h : ofTree? (Rule.usingDirective.node parts) = some u) (hglobal : u.isGlobal = false) :
    UsingTarget.ofParts? parts = some u.target ∧ "global" ∉ Tree.words parts := by
  rw [Rule.node, Tree.filter_isKept rfl] at h
  simp only [ofTree?, Option.pure_def, Option.bind_eq_bind, Option.bind_eq_some_iff,
    Option.some.injEq] at h
  obtain ⟨target, htarget, rfl⟩ := h
  exact ⟨htarget, by simpa using hglobal⟩

/-- The words that open a directive: no phrases and no names. -/
structure Opens (front : List Tree) : Prop where
  phrases : ∀ r, Tree.phrases r front = []
  name? : ∀ parts, Tree.name? (front ++ parts) = Tree.name? parts

/-- **What was read of a directive**, and how its first name was read. -/
theorem parts_of_reads {inner : List Tree} {s s' : Parser}
    (h : Rule.usingDirective.body.Reads Rule.usingDirective.follow [] s inner s')
    (hof : s.IsOf source) : ∃ front, Opens front ∧
      ((∃ static q semicolon, Token.terminal static = .staticKw ∧ inner.reverse =
          front ++ [.leaf static, Rule.qualifiedName.node q, .leaf semicolon]) ∨
        ∃ n, Token.terminal n = .name ∧ ReadsAsName (.ofList [.staticKw, .name]) n.text ∧
          ((∃ equals t semicolon, Token.terminal equals = .equals ∧ inner.reverse =
              front ++ [.leaf n, .leaf equals, Rule.type.node t, .leaf semicolon]) ∨
            ∃ dotted semicolon, inner.reverse =
              front ++ [Rule.qualifiedName.node (.leaf n :: dotted), .leaf semicolon])) := by
  obtain ⟨before, s₁, hbefore, h⟩ := Pattern.reads_seq h
  obtain ⟨_, s₂, husing, h⟩ := Pattern.reads_seq h
  obtain ⟨word, -, hword, hat, rfl⟩ := Pattern.reads_token husing
  have hopens : Opens (before.reverse ++ [.leaf word]) := by
    rcases Pattern.reads_opt hbefore with ⟨rfl, -⟩ | hbefore
    · exact ⟨fun r => by simp, fun parts => by simp [hword]⟩
    · obtain ⟨found, -, hfound, -, rfl⟩ := Pattern.reads_token hbefore
      exact ⟨fun r => by simp, fun parts => by simp [hword, hfound]⟩
  refine ⟨_, hopens, ?_⟩
  rcases Pattern.reads_alt h with h | h
  · obtain ⟨_, s₃, hstatic, h⟩ := Pattern.reads_seq h
    obtain ⟨static, -, hkind, -, rfl⟩ := Pattern.reads_token hstatic
    obtain ⟨_, s₄, hspace, hend⟩ := Pattern.reads_seq h
    obtain ⟨q, -, rfl⟩ := Pattern.reads_rule hspace
    obtain ⟨semicolon, -, -, -, rfl⟩ := Pattern.reads_token hend
    exact Or.inl ⟨static, q.reverse, semicolon, hkind, by simp⟩
  · obtain ⟨_, s₃, hfirst, h⟩ := Pattern.reads_seq h
    obtain ⟨n, hlookahead, hn, -, rfl⟩ := Pattern.reads_token hfirst
    refine Or.inr ⟨n, hn, hat.readsAsName hlookahead hn, ?_⟩
    rcases Pattern.reads_alt h with h | h
    · obtain ⟨_, s₄, hequals, h⟩ := Pattern.reads_seq h
      obtain ⟨equals, -, hkind, -, rfl⟩ := Pattern.reads_token hequals
      obtain ⟨_, s₅, htype, hend⟩ := Pattern.reads_seq h
      obtain ⟨t, -, rfl⟩ := Pattern.reads_rule htype
      obtain ⟨semicolon, -, -, -, rfl⟩ := Pattern.reads_token hend
      exact Or.inl ⟨equals, t.reverse, semicolon, hkind, by simp⟩
    · obtain ⟨_, s₄, hspace, hend⟩ := Pattern.reads_seq h
      obtain ⟨semicolon, -, -, -, rfl⟩ := Pattern.reads_token hend
      have hof' := Pattern.isOf_of_reads hfirst
        (Pattern.isOf_of_reads husing (Pattern.isOf_of_reads hbefore hof))
      cases hspace with
      | resume hdotted _ =>
        obtain ⟨dotted, -, rfl⟩ := Pattern.puts_of_reads hdotted hof' (by decide)
        exact Or.inr ⟨dotted, semicolon, by simp⟩

/-- **A directive that was read has names that are read as names.** -/
theorem isLegible_of_reads {inner : List Tree} {s s' : Parser}
    (h : Rule.usingDirective.body.Reads Rule.usingDirective.follow [] s inner s')
    (hs : s.Admits Rule.usingDirective.first) (hof : s.IsOf source) {u : UsingDirective}
    (hu : ofTree? (Rule.usingDirective.node inner.reverse) = some u) (hglobal : u.isGlobal = false) :
    u.target.IsLegible := by
  obtain ⟨htarget, hwords⟩ := ofTree?_node hu hglobal
  have hgrown : (Rule.usingDirective.node inner.reverse).Grown (fun _ => True) := by
    have hyields : Rule.usingDirective.body.Yields (fun _ => True) [] inner ∧ s'.IsOf source :=
      h.yields (fun _ _ => trivial) hof
    obtain ⟨new, hnew, hall, rfl⟩ := Pattern.becomes_plainBody .usingDirective _ _ hyields.1
    rw [List.append_nil, List.reverse_reverse]
    exact Pattern.grown_node hnew hall (by decide)
  have hread : (Rule.usingDirective.node inner.reverse).NamesRead :=
    .node (fun t ht => h.namesRead hs hof t (List.mem_reverse.mp (List.mem_filter.mp ht).1))
      (by simp) (by simp)
  have hwritten := isWritten_of_tree hgrown hu
  obtain ⟨front, hopens, ⟨static, q, semicolon, hkind, hinner⟩ | ⟨n, hn, hclear,
    ⟨equals, t, semicolon, hkind, hinner⟩ | ⟨dotted, semicolon, hinner⟩⟩⟩ := parts_of_reads h hof
  · have htext : static.text = "static" := Tree.text_of_spelled
      (hgrown.of_mem (by rw [Tree.filter_isKept rfl, hinner]; simp)) hkind rfl
    have hparts : Tree.phrases .qualifiedName inner.reverse = [Rule.qualifiedName.node q] := by
      simp [hinner, Tree.phrases_append, hopens.phrases]
    rw [ofParts?_of_space hparts rfl, if_pos (by simp [hinner, Tree.words_append, Tree.words, htext])]
      at htarget
    rw [← Option.some.inj htarget] at hwritten ⊢
    exact .membersOf hwritten
  · have hnone : Tree.phrase? .qualifiedName inner.reverse = none := by
      simp [Tree.phrase?_eq_head?, hinner, Tree.phrases_append, hopens.phrases]
    have hname : Tree.name? inner.reverse = some n := by simp [hinner, hopens.name?, hn]
    have hmem : n.text ∈ Tree.words inner.reverse := by simp [hinner, Tree.words_append, Tree.words]
    simp only [UsingTarget.ofParts?, hnone, hname, Option.pure_def, Option.bind_eq_bind,
      Option.bind_some, Option.bind_eq_some_iff, Option.some.injEq] at htarget
    obtain ⟨v, -, hv⟩ := htarget
    have hinside := TypeSyntax.isReadInside_of_alias hu hv.symm hread
    rw [← hv] at hwritten ⊢
    exact .named hwritten.1 hclear (fun h => hwords (h ▸ hmem)) hwritten.2 hinside
  · have hparts : Tree.phrases .qualifiedName inner.reverse =
        [Rule.qualifiedName.node (.leaf n :: dotted)] := by
      simp [hinner, Tree.phrases_append, hopens.phrases]
    rw [ofParts?_of_space hparts (dottedName_node n hn rfl)] at htarget
    split_ifs at htarget
    · rw [← Option.some.inj htarget] at hwritten ⊢
      exact .membersOf hwritten
    · rw [← Option.some.inj htarget]
      have hnode : (Rule.qualifiedName.node (.leaf n :: dotted)).Grown (fun _ => True) :=
        hgrown.of_mem (by rw [Tree.filter_isKept rfl, hinner]; simp)
      have hnames := Tree.named_words hnode (by decide)
      rw [List.filter_cons_of_pos (by simp [Tree.isKept, hn, Terminal.isNamed])] at hnames
      exact .space hnames hclear

end UsingDirective

/-! ## Trees of sources -/

/-- The names of the parameters and directives in a tree are read as names where they stand. -/
inductive Tree.NamesPlaced : Tree → Prop
  | leaf {t} : NamesPlaced (.leaf t)
  | node {r children extent} : (∀ t ∈ children, NamesPlaced t) →
      (r = .parameter → ∀ n, Tree.name? children = some n → ReadsAsName .nameEnd n.text) →
      (r = .usingDirective → ∀ u, UsingDirective.ofTree? (.node r children extent) = some u →
        u.isGlobal = false → u.target.IsLegible) →
      NamesPlaced (.node r children extent)

theorem Tree.NamesPlaced.of_mem {r : Rule} {children : List Tree} {extent : Option Extent} {t : Tree}
    (h : (Tree.node r children extent).NamesPlaced) (ht : t ∈ children) : t.NamesPlaced := by
  cases h with
  | node hchildren _ _ => exact hchildren t ht

theorem Tree.NamesPlaced.of_mem_partsOf {r : Rule} {parts : List Tree} {t : Tree}
    (h : ∀ t ∈ parts, t.NamesPlaced) (ht : t ∈ partsOf r parts) : t.NamesPlaced := by
  unfold partsOf at ht
  split at ht
  · next hphrase => exact (h _ (phrase?_eq_some hphrase).1).of_mem ht
  · cases ht

/-- **The names in the tree of a source are read as names where they stand.** -/
theorem Tree.namesPlaced_of_parse {source : List Char} {t : Tree} (h : Tree.parse source = .ok t) :
    t.NamesPlaced := by
  simp only [Tree.parse, Pattern.bind_eq_ok] at h
  obtain ⟨s, hread, ⟨parts, s'⟩, hparse, h⟩ := h
  cases h
  have hat : s.IsAt (Cursor.ofSource source) (Rule.source.body.admits Rule.source.follow) :=
    ⟨_, hread⟩
  have hof : s.IsOf source := ⟨_, _, Cursor.isOf_ofSource source, hat⟩
  have huses : ∀ r : Rule, r.body.uses (fun _ => true) fun r =>
      r != .usingDirective && r != .parameter := by
    intro r
    cases r <;> decide
  have hnode : ∀ {r : Rule} {inner : List Tree}, (∀ t ∈ inner, t.NamesPlaced) →
      ∀ t ∈ inner.reverse.filter (Tree.isKept r), t.NamesPlaced := fun hinner t ht =>
    hinner t (List.mem_reverse.mp (List.mem_filter.mp ht).1)
  have hparts : ∀ t ∈ parts, t.NamesPlaced := by
    refine (Pattern.reads_of_parse hparse).forall_parts (fun r _ => huses r) (fun _ => .leaf) ?_ ?_
      (huses .source) (Pattern.fits_body .source) (fun _ ht => ht) ⟨_, _, hat, fun _ ht => ht⟩ hof
      (by simp)
    · intro r inner s s' _ hbody hfirst hof hinner
      refine .node (hnode hinner) ?_ ?_
      · rintro rfl n hn
        exact Pattern.parameterName_of_reads hbody hfirst hof hn
      · rintro rfl u hu hglobal
        exact UsingDirective.isLegible_of_reads hbody hfirst hof hu hglobal
    · intro r inner hresumed hinner
      simp only [Bool.and_eq_true, bne_iff_ne] at hresumed
      exact .node (hnode hinner) (fun h => absurd h hresumed.2) fun h => absurd h hresumed.1
  exact .node (hnode hparts) (by simp) (by simp)

/-! ## Declarations of sources -/

/-- What is printed of a declaration as it was declared is read as it was; a type with members is of a
form that has a body. -/
def Requirement.placed : Requirement where
  directive u := u.isGlobal = false → u.target.IsLegible
  space h := ∀ u ∈ h.usings, u.isGlobal = false → u.target.IsLegible
  type h members := members ≠ [] → h.form.keyword ∈ bodyWords
  method m := ∀ p ∈ m.parameters, ReadsAsName .nameEnd p.name

namespace Tree

variable {source : List Char} {parts : List Tree} {extent : Option Extent}

theorem NamesPlaced.directive {t : Tree} (h : t.NamesPlaced) {u : UsingDirective}
    (hu : UsingDirective.ofTree? t = some u) : u.isGlobal = false → u.target.IsLegible := by
  have htree := hu
  unfold UsingDirective.ofTree? at hu
  split at hu
  · cases h with
    | node _ _ hdirective => exact hdirective rfl u htree
  · cases hu

theorem NamesPlaced.parameter {t : Tree} (h : t.NamesPlaced) {p : ParameterSyntax}
    (hp : ParameterSyntax.ofTree? source t = some p) : ReadsAsName .nameEnd p.name := by
  unfold ParameterSyntax.ofTree? at hp
  split at hp
  · simp only [Option.pure_def, Option.bind_eq_bind, Option.bind_eq_some_iff,
      Option.some.injEq] at hp
    obtain ⟨n, hn, _, -, _, -, rfl⟩ := hp
    cases h with
    | node _ hparameter _ => exact hparameter rfl n hn
  · cases hp

theorem Grown.keyword_mem {good : Tree → Prop} {r : Rule} (h : (Tree.node r parts extent).Grown good)
    {form : TypeForm} (hform : TypeForm.ofParts? source parts r = some form) {members : List Member}
    (hmembers : Member.ofBody? source parts = some members) (hne : members ≠ []) :
    form.keyword ∈ bodyWords := by
  by_cases hr : r ∈ [Rule.enumDeclaration, .delegateDeclaration]
  · have hno : ∀ r ∈ [Rule.enumDeclaration, .delegateDeclaration],
        PartKind.phrase .classBody ∉ r.keptKinds := by decide
    have hnone : phrase? .classBody parts = none := List.find?_eq_none.mpr fun t ht hphrase =>
      hno r hr (isPhrase_iff.mp hphrase ▸ h.kind_mem ht)
    rw [Member.ofBody?_eq, partsOf, hnone] at hmembers
    exact absurd (Option.some.inj hmembers).symm hne
  · simp only [List.mem_cons, List.not_mem_nil, or_false, not_or] at hr
    unfold TypeForm.ofParts? at hform
    split at hform
    · cases hform; decide
    · cases hform; decide
    · cases hform; decide
    · cases hform
      generalize (words (partsOf .recordKind parts)).contains "struct" = isStruct
      cases isStruct <;> decide
    · exact absurd rfl hr.1
    · exact absurd rfl hr.2
    · cases hform

end Tree

theorem Requirement.isKnown_placed (source : List Char) :
    Requirement.placed.IsKnown source fun t => t.Grown (fun _ => True) ∧ t.NamesPlaced where
  of_mem h ht := ⟨h.1.of_mem ht, h.2.of_mem ht⟩
  directive h hu := h.2.directive hu
  space h hhead := by
    unfold NamespaceHead.ofParts? at hhead
    simp only [Option.pure_def, Option.bind_eq_bind, Option.bind_eq_some_iff,
      Option.some.injEq] at hhead
    obtain ⟨name, -, us, hus, rfl⟩ := hhead
    intro u hu
    obtain ⟨t, ht, hu⟩ := mem_of_mapM hus hu
    exact (h.2.of_mem (Tree.mem_phrases ht).1).directive hu
  type h hform hhead hmembers hne := by
    unfold TypeHead.ofParts? at hhead
    simp only [Option.pure_def, Option.bind_eq_bind, Option.bind_eq_some_iff,
      Option.some.injEq] at hhead
    obtain ⟨_, -, _, -, _, -, _, -, rfl⟩ := hhead
    exact h.1.keyword_mem hform hmembers hne
  method h hm := by
    unfold MethodDeclaration.ofParts? at hm
    simp only [Option.pure_def, Option.bind_eq_bind, Option.bind_eq_some_iff,
      Option.some.injEq] at hm
    obtain ⟨_, -, _, -, ps, hps, _, -, _, -, rfl⟩ := hm
    intro p hp
    obtain ⟨t, ht, hp⟩ := mem_of_mapM hps hp
    exact (Tree.NamesPlaced.of_mem_partsOf (fun t ht => h.2.of_mem ht) ht).parameter hp

/-- **What was read of a source is read again** where it is printed as it was declared. -/
theorem CompilationUnit.meets_placed {path source : String} {unit : CompilationUnit}
    (h : CompilationUnit.parse path source = .ok unit) : unit.Meets .placed := by
  obtain ⟨tree, htree, hunit⟩ := CompilationUnit.parse_eq_ok.mp h
  exact meets_of_tree (Requirement.isKnown_placed _)
    ⟨Tree.grown_of_parse (fun _ _ => trivial) htree, Tree.namesPlaced_of_parse htree⟩ hunit

end Facade
