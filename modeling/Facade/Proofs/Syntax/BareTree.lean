import Facade.Proofs.Grammar.Bare
import Facade.Proofs.Syntax.WithoutSpans

/-!
# What a bare tree stands for

A tree and the tree without its places stand for the same declarations but for their spans.

* `Tree.phrases_bare`, `Tree.words_bare` and others: the parts of a phrase;
* `TypeSyntax.ofTree?_bare`: types;
* `MethodDeclaration.ofParts?_bare`, `Member.ofTree?_bare`: members;
* **`CompilationUnit.ofTree?_bare`**, `CompilationUnit.exists_ofTree?_of_bare`: sources.
-/

namespace Facade

/-! ## Parts of phrases -/

namespace Tree

variable (common source : List Char)

@[simp] theorem isPhrase_bare (r : Rule) (t : Tree) :
    isPhrase r (t.bare common source) = isPhrase r t := by
  cases t with
  | leaf => rfl
  | node => rw [bare_node]; rfl

theorem isPhrase_comp_bare (r : Rule) : isPhrase r ∘ bare common source = isPhrase r :=
  funext (isPhrase_bare common source r)

@[simp] theorem phrases_bare (r : Rule) (parts : List Tree) :
    phrases r (parts.map (bare common source)) = (phrases r parts).map (bare common source) := by
  rw [phrases, phrases, List.filter_map, isPhrase_comp_bare]

@[simp] theorem phrase?_bare (r : Rule) (parts : List Tree) :
    phrase? r (parts.map (bare common source)) = (phrase? r parts).map (bare common source) := by
  rw [phrase?, phrase?, List.find?_map, isPhrase_comp_bare]

theorem partsOf_bare {r : Rule} (hr : ¬ r.isSilent) (parts : List Tree) :
    partsOf r (parts.map (bare common source)) = (partsOf r parts).map (bare common source) := by
  unfold partsOf
  rw [phrase?_bare]
  cases hphrase : phrase? r parts with
  | none => rfl
  | some t =>
    cases t with
    | leaf => rfl
    | node r' inner e =>
      obtain rfl : r' = r := by simpa [isPhrase] using List.find?_some hphrase
      rw [Option.map_some, bare_node, if_neg hr]

@[simp] theorem words_bare (parts : List Tree) :
    words (parts.map (bare common source)) = words parts := by
  induction parts with
  | nil => rfl
  | cons t parts ih =>
    cases t with
    | leaf t => rw [List.map_cons, bare_leaf, words, words, ih]
    | node => rw [List.map_cons, bare_node, words, words, ih]

@[simp] theorem name?_bare (parts : List Tree) : name? (parts.map (bare common source)) =
    (name? parts).map fun t => ⟨t.terminal, t.text, default⟩ := by
  induction parts with
  | nil => rfl
  | cons t parts ih =>
    cases t with
    | leaf t =>
      rw [List.map_cons, bare_leaf, name?, name?, ih]
      split_ifs <;> rfl
    | node => rw [List.map_cons, bare_node, name?, name?, ih]

@[simp] theorem dottedName_bare (parts : List Tree) :
    dottedName (parts.map (bare common source)) = dottedName parts := by
  rw [dottedName, dottedName, words_bare]

end Tree

theorem mapM_map_eq {α : Type} {f : Tree → Tree} {g g' : Tree → Option α} {ts : List Tree}
    (h : ∀ t ∈ ts, g (f t) = g' t) : (ts.map f).mapM g = ts.mapM g' := by
  induction ts with
  | nil => rfl
  | cons t ts ih =>
    rw [List.map_cons, List.mapM_cons, List.mapM_cons, h t List.mem_cons_self,
      ih fun t ht => h t (List.mem_cons_of_mem _ ht)]

theorem Tree.headWords?_bare (common source : List Char) {r : Rule} (hr : ¬ r.isSilent)
    (parts : List Tree) :
    headWords? r (parts.map (bare common source)) = headWords? r parts := by
  unfold headWords?
  rw [phrases_bare]
  refine mapM_map_eq fun t ht => ?_
  cases t with
  | leaf => rfl
  | node r' children e =>
    obtain rfl : r' = r := by simpa [isPhrase] using (List.mem_filter.mp ht).2
    rw [bare_node, if_neg hr]
    cases children with
    | nil => rfl
    | cons t _ =>
      cases t with
      | leaf => rfl
      | node => rw [List.map_cons, bare_node]

/-! ## Types -/

section

variable (common source : List Char)

theorem TypeSyntax.withSuffixes_bare (t : TypeSyntax) (suffixes : List Tree) :
    t.withSuffixes (suffixes.map (Tree.bare common source)) = t.withSuffixes suffixes := by
  induction suffixes generalizing t with
  | nil => rfl
  | cons u suffixes ih =>
    cases u with
    | leaf => rfl
    | node r parts e =>
      rw [List.map_cons, Tree.bare_node]
      cases r with
      | typeSuffix => simp only [Rule.isSilent, Bool.false_eq_true, if_false, withSuffixes, Tree.words_bare, ih]
      | _ => rfl

theorem TypeSyntax.ofTree?_of_ne {r : Rule} (hr : r ≠ .type) (parts : List Tree)
    (e : Option Extent) : TypeSyntax.ofTree? (.node r parts e) = none := by
  unfold ofTree?
  split
  · next h => exact absurd (Tree.node.inj h).1 hr
  · rfl

theorem TypeSyntax.ofBase?_of_ne {r : Rule}
    (hr : r ≠ .predefinedType ∧ r ≠ .namedType ∧ r ≠ .tupleType) (parts : List Tree)
    (e : Option Extent) : TypeSyntax.ofBase? (.node r parts e) = none := by
  unfold ofBase?
  split
  · next h => exact absurd (Tree.node.inj h).1 hr.1
  · next h => exact absurd (Tree.node.inj h).1 hr.2.1
  · next h => exact absurd (Tree.node.inj h).1 hr.2.1
  · next h => exact absurd (Tree.node.inj h).1 hr.2.2
  · rfl

theorem TypeSyntax.ofBase?_named {q : Rule} (hq : q ≠ .globalPrefix) (inner parts : List Tree)
    (e e' : Option Extent) : TypeSyntax.ofBase? (.node .namedType (.node q inner e :: parts) e') =
      (NamePart.ofTrees? (.node q inner e :: parts)).map (.named false) := by
  unfold ofBase?
  split
  · next h => exact absurd (Tree.node.inj h).1 (by decide)
  · next h =>
    exact absurd (Tree.node.inj (List.cons.inj (Tree.node.inj h).2.1).1).1 hq
  · next h =>
    rw [(Tree.node.inj h).2.1]
    cases NamePart.ofTrees? _ <;> rfl
  · next h => exact absurd (Tree.node.inj h).1 (by decide)
  · next h _ => exact (h _ _ rfl).elim

theorem NamePart.ofTrees?_of_ne {r : Rule} (hr : r ≠ .simpleName) (parts rest : List Tree)
    (e : Option Extent) : NamePart.ofTrees? (.node r parts e :: rest) = none := by
  unfold ofTrees?
  split
  · next h => cases h
  · next h => exact absurd (Tree.node.inj (List.cons.inj h).1).1 hr
  · next h => exact absurd (Tree.node.inj (List.cons.inj h).1).1 hr
  · rfl

theorem TypeSyntax.ofElements?_of_ne {r : Rule} (hr : r ≠ .tupleElement) (parts rest : List Tree)
    (e : Option Extent) : TypeSyntax.ofElements? (.node r parts e :: rest) = none := by
  unfold ofElements?
  split
  · next h => cases h
  · next h => exact absurd (Tree.node.inj (List.cons.inj h).1).1 hr
  · next h => exact absurd (Tree.node.inj (List.cons.inj h).1).1 hr
  · rfl

mutual

theorem TypeSyntax.ofTree?_bare : (t : Tree) →
    TypeSyntax.ofTree? (t.bare common source) = TypeSyntax.ofTree? t
  | .leaf _ => rfl
  | .node r children e => by
    rw [Tree.bare_node]
    by_cases hr : r = .type
    · subst hr
      cases children with
      | nil => rfl
      | cons base suffixes =>
        simp only [Rule.isSilent, Bool.false_eq_true, if_false, List.map_cons, TypeSyntax.ofTree?,
          TypeSyntax.ofBase?_bare base, TypeSyntax.withSuffixes_bare]
    · rw [TypeSyntax.ofTree?_of_ne hr, TypeSyntax.ofTree?_of_ne hr]

theorem TypeSyntax.ofBase?_bare : (t : Tree) →
    TypeSyntax.ofBase? (t.bare common source) = TypeSyntax.ofBase? t
  | .leaf _ => rfl
  | .node r children e => by
    have hall := NamePart.ofTrees?_bare children
    have helements := TypeSyntax.ofElements?_bare children
    rw [Tree.bare_node]
    by_cases hr : r = .predefinedType ∨ r = .namedType ∨ r = .tupleType
    · rcases hr with rfl | rfl | rfl
      · rcases children with _ | ⟨_ | _, _ | _⟩ <;> rfl
      · simp only [Rule.isSilent, Bool.false_eq_true, if_false]
        rcases children with _ | ⟨t | ⟨q, inner, e'⟩, parts⟩
        · rfl
        · simp only [List.map_cons, Tree.bare_leaf] at hall ⊢
          simp only [TypeSyntax.ofBase?, hall]
        · have hparts := NamePart.ofTrees?_bare parts
          simp only [List.map_cons, Tree.bare_node] at hall ⊢
          by_cases hq : q = .globalPrefix
          · subst hq
            simp only [TypeSyntax.ofBase?, hparts]
          · rw [TypeSyntax.ofBase?_named hq, TypeSyntax.ofBase?_named hq, hall]
      · simp only [Rule.isSilent, Bool.false_eq_true, if_false, TypeSyntax.ofBase?, helements]
    · rw [TypeSyntax.ofBase?_of_ne (not_or.mp hr |>.imp_right not_or.mp),
        TypeSyntax.ofBase?_of_ne (not_or.mp hr |>.imp_right not_or.mp)]

theorem NamePart.ofTrees?_bare : (ts : List Tree) →
    NamePart.ofTrees? (ts.map (Tree.bare common source)) = NamePart.ofTrees? ts
  | [] => rfl
  | .leaf _ :: _ => rfl
  | .node r children e :: rest => by
    have hrest := NamePart.ofTrees?_bare rest
    rw [List.map_cons, Tree.bare_node]
    by_cases hr : r = .simpleName
    · subst hr
      simp only [Rule.isSilent, Bool.false_eq_true, if_false]
      rcases children with _ | ⟨t | t, _ | ⟨u | ⟨q, arguments, e'⟩, _ | _⟩⟩
      · rfl
      · simp only [List.map_cons, List.map_nil, Tree.bare_leaf, NamePart.ofTrees?, hrest]
      · rfl
      · rfl
      · have harguments := TypeSyntax.ofTrees?_bare arguments
        simp only [List.map_cons, List.map_nil, Tree.bare_leaf, Tree.bare_node]
        by_cases hq : q = .typeArgumentList
        · subst hq
          simp only [Rule.isSilent, Bool.false_eq_true, if_false, NamePart.ofTrees?, harguments, hrest]
        · simp [NamePart.ofTrees?, hq]
      all_goals simp [NamePart.ofTrees?, Tree.bare_node]
    · rw [NamePart.ofTrees?_of_ne hr, NamePart.ofTrees?_of_ne hr]

theorem TypeSyntax.ofTrees?_bare : (ts : List Tree) →
    TypeSyntax.ofTrees? (ts.map (Tree.bare common source)) = TypeSyntax.ofTrees? ts
  | [] => rfl
  | t :: ts => by
    rw [List.map_cons, TypeSyntax.ofTrees?, TypeSyntax.ofTrees?, TypeSyntax.ofTree?_bare t,
      TypeSyntax.ofTrees?_bare ts]

theorem TypeSyntax.ofElements?_bare : (ts : List Tree) →
    TypeSyntax.ofElements? (ts.map (Tree.bare common source)) = TypeSyntax.ofElements? ts
  | [] => rfl
  | .leaf _ :: _ => rfl
  | .node r children e :: rest => by
    have hrest := TypeSyntax.ofElements?_bare rest
    rw [List.map_cons, Tree.bare_node]
    by_cases hr : r = .tupleElement
    · subst hr
      simp only [Rule.isSilent, Bool.false_eq_true, if_false]
      rcases children with _ | ⟨t, _ | ⟨u | u, _ | _⟩⟩
      · rfl
      · simp only [List.map_cons, List.map_nil, TypeSyntax.ofElements?, TypeSyntax.ofTree?_bare t,
          hrest]
      · simp only [List.map_cons, List.map_nil, Tree.bare_leaf, TypeSyntax.ofElements?,
          TypeSyntax.ofTree?_bare t, hrest]
      all_goals simp [TypeSyntax.ofElements?, Tree.bare_node]
    · rw [TypeSyntax.ofElements?_of_ne hr, TypeSyntax.ofElements?_of_ne hr]

end

@[simp] theorem TypeSyntax.among?_bare (parts : List Tree) :
    TypeSyntax.among? (parts.map (Tree.bare common source)) = TypeSyntax.among? parts := by
  simp only [among?, Tree.phrase?_bare]
  cases Tree.phrase? .type parts with
  | none => rfl
  | some t => exact TypeSyntax.ofTree?_bare common source t

end

/-! ## Parts of declarations -/

theorem both_of_map_eq {α β : Type} {f : α → β} {o o' : Option α} (h : o.map f = o'.map f) :
    (o = none ∧ o' = none) ∨ ∃ x x', o = some x ∧ o' = some x' ∧ f x = f x' := by
  cases o with
  | none => exact Or.inl ⟨rfl, Option.map_eq_none_iff.mp h.symm⟩
  | some x =>
    obtain ⟨x', hx', hf⟩ := Option.map_eq_some_iff.mp h.symm
    exact Or.inr ⟨x, x', rfl, hx', hf.symm⟩

theorem mapM_map_congr {α β : Type} {f : Tree → Tree} {g g' : Tree → Option α} {forget : α → β}
    {ts : List Tree} (h : ∀ t ∈ ts, (g (f t)).map forget = (g' t).map forget) :
    ((ts.map f).mapM g).map (List.map forget) = (ts.mapM g').map (List.map forget) := by
  induction ts with
  | nil => rfl
  | cons t ts ih =>
    have hts := ih fun t ht => h t (List.mem_cons_of_mem _ ht)
    rw [List.map_cons, List.mapM_cons, List.mapM_cons]
    rcases both_of_map_eq (h t List.mem_cons_self) with ⟨hx, hx'⟩ | ⟨x, x', hx, hx', hf⟩
    · rw [hx, hx']
      rfl
    · rcases both_of_map_eq hts with ⟨hxs, hxs'⟩ | ⟨xs, xs', hxs, hxs', hfs⟩
      · rw [hx, hx', hxs, hxs']
        rfl
      · rw [hx, hx', hxs, hxs']
        exact congrArg some (by rw [List.map_cons, List.map_cons, hf, hfs])

section

variable (common source : List Char)

theorem UsingTarget.ofParts?_bare (parts : List Tree) :
    UsingTarget.ofParts? (parts.map (Tree.bare common source)) = UsingTarget.ofParts? parts := by
  have hname := Tree.partsOf_bare common source (r := .qualifiedName) (by decide) parts
  simp only [ofParts?, Tree.phrase?_bare, hname, Tree.dottedName_bare, Tree.words_bare,
    Tree.name?_bare, TypeSyntax.among?_bare]
  cases Tree.phrase? .qualifiedName parts with
  | some => rfl
  | none => cases Tree.name? parts <;> rfl

theorem UsingDirective.ofTree?_bare (t : Tree) :
    (UsingDirective.ofTree? (t.bare common source)).map withoutSpans =
      (UsingDirective.ofTree? t).map withoutSpans := by
  cases t with
  | leaf => rfl
  | node r parts e =>
    rw [Tree.bare_node]
    by_cases hr : r = .usingDirective
    · subst hr
      simp only [Rule.isSilent, Bool.false_eq_true, if_false, ofTree?, UsingTarget.ofParts?_bare, Tree.words_bare]
      cases UsingTarget.ofParts? parts <;> rfl
    · simp [ofTree?, hr]

theorem UsingDirective.among_bare (parts : List Tree) :
    ((Tree.phrases .usingDirective (parts.map (Tree.bare common source))).mapM ofTree?).map
        (List.map withoutSpans) =
      ((Tree.phrases .usingDirective parts).mapM ofTree?).map (List.map withoutSpans) := by
  rw [Tree.phrases_bare]
  exact mapM_map_congr fun t _ => ofTree?_bare common source t

theorem TypeParameterSyntax.ofTree?_bare (t : Tree) :
    (TypeParameterSyntax.ofTree? (t.bare common source)).map withoutSpans =
      (TypeParameterSyntax.ofTree? t).map withoutSpans := by
  cases t with
  | leaf => rfl
  | node r parts e =>
    rw [Tree.bare_node]
    by_cases hr : r = .typeParameter
    · subst hr
      simp only [Rule.isSilent, Bool.false_eq_true, if_false, ofTree?, Tree.name?_bare, Tree.words_bare]
      cases Tree.name? parts <;> rfl
    · simp [ofTree?, hr]

theorem TypeParameterSyntax.among?_bare (parts : List Tree) :
    (TypeParameterSyntax.among? (parts.map (Tree.bare common source))).map
        (List.map withoutSpans) =
      (TypeParameterSyntax.among? parts).map (List.map withoutSpans) := by
  rw [among?, Tree.partsOf_bare common source (by decide)]
  exact mapM_map_congr fun t _ => ofTree?_bare common source t

theorem ConstraintSyntax.ofTree?_bare (t : Tree) :
    ConstraintSyntax.ofTree? (t.bare common source) = ConstraintSyntax.ofTree? t := by
  cases t with
  | leaf => rfl
  | node r parts e =>
    rw [Tree.bare_node]
    by_cases hr : r = .constraint
    · subst hr
      simp only [Rule.isSilent, Bool.false_eq_true, if_false, ofTree?, Tree.phrase?_bare, Tree.words_bare]
      cases Tree.phrase? .type parts with
      | none => rfl
      | some t => simp only [Option.map_some, TypeSyntax.ofTree?_bare]
    · simp [ofTree?, hr]

theorem ConstraintClause.ofTree?_bare (t : Tree) :
    (ConstraintClause.ofTree? (t.bare common source)).map withoutSpans =
      (ConstraintClause.ofTree? t).map withoutSpans := by
  cases t with
  | leaf => rfl
  | node r parts e =>
    rw [Tree.bare_node]
    by_cases hr : r = .constraintClause
    · subst hr
      have hconstraints : ((Tree.phrases .constraint parts).map (Tree.bare common source)).mapM
          ConstraintSyntax.ofTree? = (Tree.phrases .constraint parts).mapM ConstraintSyntax.ofTree? :=
        mapM_map_eq fun t _ => ConstraintSyntax.ofTree?_bare common source t
      simp only [Rule.isSilent, Bool.false_eq_true, if_false, ofTree?, Tree.name?_bare, Tree.phrases_bare, hconstraints]
      cases Tree.name? parts with
      | none => rfl
      | some =>
        simp only [Option.map_some, Option.bind_eq_bind, Option.bind_some]
        cases (Tree.phrases .constraint parts).mapM ConstraintSyntax.ofTree? <;> rfl
    · simp [ofTree?, hr]

theorem ConstraintClause.among?_bare (parts : List Tree) :
    (ConstraintClause.among? (parts.map (Tree.bare common source))).map (List.map withoutSpans) =
      (ConstraintClause.among? parts).map (List.map withoutSpans) := by
  rw [among?, Tree.phrases_bare]
  exact mapM_map_congr fun t _ => ofTree?_bare common source t

end

section

variable {common source : List Char} (h : source <:+: common)

include h

theorem Tree.text_bare {r : Rule} (hr : r.keepsText) {t : Tree} (ht : t.isPhrase r) :
    (t.bare common source).text common = t.text source := by
  cases t with
  | leaf => cases ht
  | node r' children e =>
    obtain rfl : r' = r := by simpa [isPhrase] using ht
    have htext : (Tree.text source (.node r' children e)).toList <:+: source := by
      cases e with
      | none => exact List.nil_infix
      | some e =>
        simp only [Tree.text, extent?, Extent.text, String.toList_ofList]
        exact List.IsInfix.trans (List.take_prefix _ _).isInfix (List.drop_suffix _ _).isInfix
    obtain ⟨e', hfound, he'⟩ := Extent.exists_find? (List.IsInfix.trans htext h)
    rw [bare_node, if_pos hr, hfound, String.ofList_toList] at *
    exact he'

theorem ParameterSyntax.defaultOf_bare (parts : List Tree) :
    ((Tree.phrase? .defaultValue parts).map (Tree.bare common source)).map (defaultOf common) =
      (Tree.phrase? .defaultValue parts).map (defaultOf source) := by
  cases hphrase : Tree.phrase? .defaultValue parts with
  | none => simp only [Option.map_none]
  | some t =>
    have ht : t.isPhrase .defaultValue = true := List.find?_some hphrase
    have htext := Tree.text_bare h (by decide) ht
    rw [Option.map_some, Option.map_some, Option.map_some, defaultOf, defaultOf, htext]

theorem ParameterSyntax.ofTree?_bare (t : Tree) :
    (ParameterSyntax.ofTree? common (t.bare common source)).map withoutSpans =
      (ParameterSyntax.ofTree? source t).map withoutSpans := by
  cases t with
  | leaf => rfl
  | node r parts e =>
    rw [Tree.bare_node]
    by_cases hr : r = .parameter
    · subst hr
      have hmodifiers := Tree.headWords?_bare common source (r := .parameterModifier) (by decide) parts
      simp only [Rule.isSilent, Bool.false_eq_true, if_false, ofTree?, Tree.name?_bare, TypeSyntax.among?_bare, hmodifiers,
        Tree.phrase?_bare, defaultOf_bare h]
      cases Tree.name? parts with
      | none => rfl
      | some =>
        cases TypeSyntax.among? parts with
        | none => rfl
        | some => cases Tree.headWords? .parameterModifier parts <;> rfl
    · simp [ofTree?, hr]

theorem ParameterSyntax.among?_bare (parts : List Tree) :
    (ParameterSyntax.among? common (parts.map (Tree.bare common source))).map
        (List.map withoutSpans) =
      (ParameterSyntax.among? source parts).map (List.map withoutSpans) := by
  rw [among?, Tree.partsOf_bare common source (by decide)]
  exact mapM_map_congr fun t _ => ofTree?_bare h t

/-! ## Members -/

/-- The surroundings without their span. -/
def Surroundings.withoutSpans (s : Surroundings) : Surroundings := { s with span := none }

theorem Surroundings.among?_bare (parts : List Tree) (e e' : Option Extent) :
    (Surroundings.among? common (parts.map (Tree.bare common source)) e').map withoutSpans =
      (Surroundings.among? source parts e).map withoutSpans := by
  have hattributes : ((Tree.phrases .attributeSection parts).map (Tree.bare common source)).map
      (Tree.text common) = (Tree.phrases .attributeSection parts).map (Tree.text source) := by
    rw [List.map_map]
    exact List.map_congr_left fun t ht => Tree.text_bare h (r := .attributeSection) (by decide)
      (by simpa using (List.mem_filter.mp ht).2)
  rw [among?, among?, Tree.headWords?_bare common source (by decide), Tree.phrases_bare, hattributes]
  cases Tree.headWords? .modifier parts <;> rfl

variable {around around' : Surroundings} (haround : around'.withoutSpans = around.withoutSpans)

include haround

theorem MethodDeclaration.ofParts?_bare (parts : List Tree) :
    (MethodDeclaration.ofParts? common around' (parts.map (Tree.bare common source))).map
        withoutSpans =
      (MethodDeclaration.ofParts? source around parts).map withoutSpans := by
  obtain ⟨modifiers, attributes, span⟩ := around
  obtain ⟨modifiers', attributes', span'⟩ := around'
  obtain ⟨rfl, rfl, -⟩ := Surroundings.mk.inj haround
  have hname := Tree.partsOf_bare common source (r := .memberName) (by decide) parts
  have hbody : ((Tree.partsOf .memberBody parts).map (Tree.bare common source)).isEmpty =
      (Tree.partsOf .memberBody parts).isEmpty := List.isEmpty_map
  simp only [ofParts?, Tree.phrase?_bare, TypeSyntax.among?_bare, hname, Tree.dottedName_bare,
    Tree.partsOf_bare common source (r := .memberBody) (by decide), hbody]
  cases Tree.phrase? .memberName parts with
  | none => simp
  | some =>
    cases TypeSyntax.among? parts with
    | none => simp
    | some =>
      rcases both_of_map_eq (ParameterSyntax.among?_bare h parts) with
        ⟨hp, hp'⟩ | ⟨ps, ps', hp, hp', hps⟩
      · simp [hp, hp']
      rcases both_of_map_eq (TypeParameterSyntax.among?_bare common source parts) with
        ⟨ht, ht'⟩ | ⟨ts, ts', ht, ht', hts⟩
      · simp [hp, hp', ht, ht']
      rcases both_of_map_eq (ConstraintClause.among?_bare common source parts) with
        ⟨hc, hc'⟩ | ⟨cs, cs', hc, hc', hcs⟩
      · simp [hp, hp', ht, ht', hc, hc']
      simp [hp, hp', ht, ht', hc, hc', withoutSpans, hps, hts, hcs]

omit h haround in
theorem OtherMember.nameOf?_bare (kind : MemberKind) (parts : List Tree) :
    OtherMember.nameOf? (parts.map (Tree.bare common source)) kind =
      OtherMember.nameOf? parts kind := by
  cases kind with
  | constructor | destructor =>
    simp only [nameOf?, Tree.name?_bare]
    cases Tree.name? parts <;> rfl
  | property =>
    have hname := Tree.partsOf_bare common source (r := .memberName) (by decide) parts
    simp only [nameOf?, Tree.phrase?_bare, hname, Tree.dottedName_bare]
    cases Tree.phrase? .memberName parts <;> rfl
  | indexer => rfl
  | field =>
    simp only [nameOf?, Tree.phrases_bare]
    rw [mapM_map_eq fun t ht => ?_]
    obtain ⟨r, inner, e, rfl, hr⟩ : ∃ r inner e, t = .node r inner e ∧ ¬ r.isSilent := by
      cases t with
      | leaf => cases (List.mem_filter.mp ht).2
      | node r inner e =>
        obtain rfl : r = .variableDeclarator := by
          simpa [Tree.isPhrase] using (List.mem_filter.mp ht).2
        exact ⟨_, inner, e, rfl, by decide⟩
    simp only [Tree.bare_node, if_neg hr, Tree.name?_bare]
    cases Tree.name? inner <;> rfl
  | operator => rcases parts with _ | ⟨_, _ | ⟨_ | _, _⟩⟩ <;> rfl
  | conversion => simp only [nameOf?, TypeSyntax.among?_bare]

omit h in
variable (common source) in
theorem OtherMember.ofParts?_bare (kind : MemberKind) (parts : List Tree) :
    (OtherMember.ofParts? around' kind (parts.map (Tree.bare common source))).map withoutSpans =
      (OtherMember.ofParts? around kind parts).map withoutSpans := by
  obtain ⟨modifiers, attributes, span⟩ := around
  obtain ⟨modifiers', attributes', span'⟩ := around'
  obtain ⟨rfl, rfl, -⟩ := Surroundings.mk.inj haround
  simp only [ofParts?, OtherMember.nameOf?_bare]
  cases OtherMember.nameOf? parts kind <;> rfl

omit haround in
theorem TypeForm.ofParts?_bare (r : Rule) (parts : List Tree) :
    (TypeForm.ofParts? common (parts.map (Tree.bare common source)) r).map withoutSpans =
      (TypeForm.ofParts? source parts r).map withoutSpans := by
  have hkind := Tree.partsOf_bare common source (r := .recordKind) (by decide) parts
  unfold ofParts?
  split
  · rfl
  · rfl
  · rfl
  · simp only [hkind, Tree.words_bare]
  · rfl
  · rw [TypeSyntax.among?_bare]
    cases TypeSyntax.among? parts with
    | none => simp
    | some =>
      rcases both_of_map_eq (ParameterSyntax.among?_bare h parts) with
        ⟨hp, hp'⟩ | ⟨ps, ps', hp, hp', hps⟩
      · simp [hp, hp']
      · simp [hp, hp', withoutSpans, hps]
  · rfl

omit h haround in
theorem TypeHead.basesOf?_bare {form form' : TypeForm} (hform : form'.withoutSpans = form.withoutSpans)
    (parts : List Tree) : TypeHead.basesOf? (parts.map (Tree.bare common source)) form' =
      TypeHead.basesOf? parts form := by
  have hforget : ∀ (parts : List Tree) (form : TypeForm),
      basesOf? parts form = basesOf? parts form.withoutSpans := fun _ form => by cases form <;> rfl
  have hbase := Tree.partsOf_bare common source (r := .baseList) (by decide) parts
  rw [hforget _ form, ← hform, ← hforget]
  cases form' with
  | enumForm =>
    simp only [basesOf?, Tree.phrase?_bare]
    cases Tree.phrase? .type parts with
    | none => rfl
    | some t => simp only [Option.map_some, Option.toList_some, List.mapM_cons, List.mapM_nil,
        TypeSyntax.ofTree?_bare]
  | _ =>
    simp only [basesOf?, hbase]
    refine mapM_map_eq fun t _ => ?_
    cases t with
    | leaf => rfl
    | node r inner e =>
      rw [Tree.bare_node]
      by_cases hr : r = .baseType
      · subst hr
        exact TypeSyntax.among?_bare common source inner
      · simp [hr]

omit h in
variable (common source) in
theorem TypeHead.ofParts?_bare {form form' : TypeForm} (hform : form'.withoutSpans = form.withoutSpans)
    (parts : List Tree) :
    (TypeHead.ofParts? around' form' (parts.map (Tree.bare common source))).map withoutSpans =
      (TypeHead.ofParts? around form parts).map withoutSpans := by
  obtain ⟨modifiers, attributes, span⟩ := around
  obtain ⟨modifiers', attributes', span'⟩ := around'
  obtain ⟨rfl, rfl, -⟩ := Surroundings.mk.inj haround
  simp only [ofParts?, Tree.name?_bare, TypeHead.basesOf?_bare hform]
  cases Tree.name? parts with
  | none => simp
  | some =>
    rcases both_of_map_eq (TypeParameterSyntax.among?_bare common source parts) with
      ⟨ht, ht'⟩ | ⟨ts, ts', ht, ht', hts⟩
    · simp [ht, ht']
    cases TypeHead.basesOf? parts form with
    | none => simp [ht, ht']
    | some =>
      rcases both_of_map_eq (ConstraintClause.among?_bare common source parts) with
        ⟨hc, hc'⟩ | ⟨cs, cs', hc, hc', hcs⟩
      · simp [ht, ht', hc, hc']
      · simp [ht, ht', hc, hc', withoutSpans, hform, hts, hcs]

end

section

variable {common source : List Char}

mutual

theorem Member.ofTree?_bare (h : source <:+: common) : (t : Tree) →
    (Member.ofTree? common (t.bare common source)).map withoutSpans =
      (Member.ofTree? source t).map withoutSpans
  | .leaf _ => by rw [Tree.bare_leaf, Member.ofTree?.eq_3, Member.ofTree?.eq_3] <;> simp
  | .node r parts e => by
    rw [Tree.bare_node]
    by_cases hr : r = .member ∨ r = .typeDeclaration
    · have hof : ∀ source parts e, Member.ofTree? source (.node r parts e) =
          (Surroundings.among? source parts e).bind fun s => Member.ofParts? source s parts := by
        rcases hr with rfl | rfl <;> intro source parts e <;> rw [Member.ofTree?] <;> rfl
      have hsilent : ¬ r.isSilent := by rcases hr with rfl | rfl <;> decide
      rw [if_neg hsilent, hof, hof]
      generalize (if r.keepsText then _ else none) = e'
      rcases both_of_map_eq (Surroundings.among?_bare h parts e e') with
        ⟨hs, hs'⟩ | ⟨s', s, hs, hs', haround⟩
      · simp only [hs, hs', Option.bind_none]
      · simp only [hs, hs', Option.bind_some]
        exact Member.ofParts?_bare h haround parts
    · simp only [not_or] at hr
      rw [Member.ofTree?.eq_3, Member.ofTree?.eq_3] <;> simp [hr]

theorem Member.ofParts?_bare (h : source <:+: common) {around around' : Surroundings}
    (haround : around'.withoutSpans = around.withoutSpans) : (parts : List Tree) →
    (Member.ofParts? common around' (parts.map (Tree.bare common source))).map withoutSpans =
      (Member.ofParts? source around parts).map withoutSpans
  | [] => by rw [List.map_nil, Member.ofParts?, Member.ofParts?]
  | .leaf _ :: rest => by
    rw [List.map_cons, Tree.bare_leaf, Member.ofParts?, Member.ofParts?]
    exact Member.ofParts?_bare h haround rest
  | .node r parts e :: rest => by
    have hrest := Member.ofParts?_bare h haround rest
    have hbody := Member.ofBody?_bare h parts
    rw [List.map_cons, Tree.bare_node, Member.ofParts?, Member.ofParts?]
    by_cases hsilent : r.isSilent
    · obtain rfl | rfl : r = .block ∨ r = .expression := by
        revert hsilent
        cases r <;> decide
      all_goals simp [MemberKind.ofRule?, TypeForm.ofParts?]
    rw [if_neg hsilent]
    split_ifs with hskip hmethod
    · exact hrest
    · rcases both_of_map_eq (MethodDeclaration.ofParts?_bare h haround parts) with
        ⟨hm, hm'⟩ | ⟨m', m, hm, hm', hforget⟩
      · simp [hm, hm']
      · simp [hm, hm', Member.withoutSpans, hforget]
    · cases MemberKind.ofRule? r with
      | some kind =>
        rcases both_of_map_eq (OtherMember.ofParts?_bare common source haround
          kind parts) with ⟨hm, hm'⟩ | ⟨m', m, hm, hm', hforget⟩
        · simp [hm, hm']
        · simp [hm, hm', Member.withoutSpans, hforget]
      | none =>
        rcases both_of_map_eq (TypeForm.ofParts?_bare h r parts) with
          ⟨hf, hf'⟩ | ⟨f', f, hf, hf', hform⟩
        · simp [hf, hf']
        rcases both_of_map_eq (TypeHead.ofParts?_bare common source haround
          hform parts) with ⟨hh, hh'⟩ | ⟨head', head, hh, hh', hhead⟩
        · simp [hf, hf', hh, hh']
        rcases both_of_map_eq hbody with ⟨hms, hms'⟩ | ⟨ms', ms, hms, hms', hmembers⟩
        · simp [hf, hf', hms, hms']
        · simp only [hf, hf', Option.bind_eq_bind, Option.bind_some, hh, hh', hms, hms',
            Option.pure_def, Option.map_some, Member.withoutSpans, hhead, hmembers]

theorem Member.ofBody?_bare (h : source <:+: common) : (parts : List Tree) →
    (Member.ofBody? common (parts.map (Tree.bare common source))).map withoutSpansAll =
      (Member.ofBody? source parts).map withoutSpansAll
  | [] => by rw [List.map_nil, Member.ofBody?, Member.ofBody?]
  | .leaf _ :: rest => by
    rw [List.map_cons, Tree.bare_leaf, Member.ofBody?, Member.ofBody?]
    · exact Member.ofBody?_bare h rest
    · simp
    · simp
  | .node r parts e :: rest => by
    have hrest := Member.ofBody?_bare h rest
    rw [List.map_cons, Tree.bare_node]
    by_cases hr : r = .classBody
    · subst hr
      rw [if_neg (by decide), Member.ofBody?, Member.ofBody?]
      exact Member.ofTrees?_bare h parts
    · rw [Member.ofBody?.eq_3, Member.ofBody?.eq_3, hrest] <;> simp [hr]

theorem Member.ofTrees?_bare (h : source <:+: common) : (ts : List Tree) →
    (Member.ofTrees? common (ts.map (Tree.bare common source))).map withoutSpansAll =
      (Member.ofTrees? source ts).map withoutSpansAll
  | [] => by rw [List.map_nil, Member.ofTrees?, Member.ofTrees?]
  | t :: ts => by
    rw [List.map_cons, Member.ofTrees?, Member.ofTrees?]
    rcases both_of_map_eq (Member.ofTree?_bare h t) with ⟨hm, hm'⟩ | ⟨m', m, hm, hm', hforget⟩
    · simp [hm, hm']
    rcases both_of_map_eq (Member.ofTrees?_bare h ts) with ⟨hms, hms'⟩ | ⟨ms', ms, hms, hms', hmembers⟩
    · simp [hm, hm', hms, hms']
    · simp [hm, hm', hms, hms', withoutSpansAll, hforget, hmembers]

end

/-! ## Namespaces and sources -/

theorem TypeDeclaration.ofTree?_bare (h : source <:+: common) (t : Tree) :
    (TypeDeclaration.ofTree? common (t.bare common source)).map withoutSpans =
      (TypeDeclaration.ofTree? source t).map withoutSpans := by
  unfold ofTree?
  rcases both_of_map_eq (Member.ofTree?_bare h t) with ⟨hm, hm'⟩ | ⟨m', m, hm, hm', hforget⟩
  · rw [hm, hm']
  · rw [hm, hm']
    cases m' <;> cases m <;> simp_all [Member.withoutSpans, withoutSpans]

variable (common source) in
theorem NamespaceHead.ofParts?_bare (isFileScoped : Bool) (parts : List Tree)
    (e e' : Option Extent) :
    (NamespaceHead.ofParts? isFileScoped (parts.map (Tree.bare common source)) e').map
        withoutSpans =
      (NamespaceHead.ofParts? isFileScoped parts e).map withoutSpans := by
  have hname := Tree.partsOf_bare common source (r := .qualifiedName) (by decide) parts
  simp only [ofParts?, Tree.phrase?_bare, hname, Tree.dottedName_bare]
  cases Tree.phrase? .qualifiedName parts with
  | none => simp
  | some =>
    rcases both_of_map_eq (UsingDirective.among_bare common source parts) with
      ⟨hu, hu'⟩ | ⟨us', us, hu, hu', hforget⟩
    · simp only [hu, hu', Option.bind_eq_bind, Option.map_some, Option.bind_some, Option.bind_none]
    · simp only [hu, hu', Option.bind_eq_bind, Option.map_some, Option.bind_some, Option.pure_def,
        withoutSpans, hforget]

mutual

theorem NamespaceMember.ofTree?_bare (h : source <:+: common) : (t : Tree) →
    (NamespaceMember.ofTree? common (t.bare common source)).map withoutSpans =
      (NamespaceMember.ofTree? source t).map withoutSpans
  | .leaf t => by
    rw [Tree.bare_leaf, NamespaceMember.ofTree?.eq_3, NamespaceMember.ofTree?.eq_3] <;>
      simp [TypeDeclaration.ofTree?, Member.ofTree?]
  | .node r parts e => by
    have htype := TypeDeclaration.ofTree?_bare h (.node r parts e)
    have hmembers := NamespaceMember.ofParts?_bare h parts
    rw [Tree.bare_node] at htype ⊢
    by_cases hr : r = .namespaceDeclaration ∨ r = .fileScopedNamespace
    · have hof : ∃ isFileScoped, ∀ source parts e, NamespaceMember.ofTree? source (.node r parts e) =
          (NamespaceHead.ofParts? isFileScoped parts e).bind fun head =>
            (NamespaceMember.ofParts? source parts).map (.space head) := by
        have hmap : ∀ (o : Option (List NamespaceMember)) (head : NamespaceHead),
            (o.bind fun ms => some (NamespaceMember.space head ms)) = o.map (.space head) :=
          fun o _ => by cases o <;> rfl
        rcases hr with rfl | rfl
        · exact ⟨false, fun source parts e => by simp [NamespaceMember.ofTree?, hmap]⟩
        · exact ⟨true, fun source parts e => by simp [NamespaceMember.ofTree?, hmap]⟩
      have hsilent : ¬ r.isSilent := by rcases hr with rfl | rfl <;> decide
      obtain ⟨isFileScoped, hof⟩ := hof
      rw [if_neg hsilent, hof, hof]
      generalize (if r.keepsText then _ else none) = e'
      rcases both_of_map_eq (NamespaceHead.ofParts?_bare common source
        isFileScoped parts e e') with ⟨hh, hh'⟩ | ⟨head', head, hh, hh', hhead⟩
      · simp [hh, hh']
      rcases both_of_map_eq hmembers with ⟨hms, hms'⟩ | ⟨ms', ms, hms, hms', hforget⟩
      · simp [hh, hh', hms, hms']
      · simp [hh, hh', hms, hms', withoutSpans, hhead, hforget]
    · simp only [not_or] at hr
      rw [NamespaceMember.ofTree?.eq_3, NamespaceMember.ofTree?.eq_3]
      · rcases both_of_map_eq htype with ⟨hd, hd'⟩ | ⟨d', d, hd, hd', hforget⟩
        · simp [hd, hd']
        · simp [hd, hd', withoutSpans, hforget]
      all_goals simp [hr]

theorem NamespaceMember.ofParts?_bare (h : source <:+: common) : (parts : List Tree) →
    (NamespaceMember.ofParts? common (parts.map (Tree.bare common source))).map withoutSpansAll =
      (NamespaceMember.ofParts? source parts).map withoutSpansAll
  | [] => by rw [List.map_nil, NamespaceMember.ofParts?, NamespaceMember.ofParts?]
  | .leaf _ :: rest => by
    rw [List.map_cons, Tree.bare_leaf, NamespaceMember.ofParts?, NamespaceMember.ofParts?]
    exact NamespaceMember.ofParts?_bare h rest
  | .node r parts e :: rest => by
    have hrest := NamespaceMember.ofParts?_bare h rest
    have hmember := NamespaceMember.ofTree?_bare h (.node r parts e)
    by_cases hr : r = .usingDirective ∨ r = .qualifiedName
    · rw [List.map_cons, Tree.bare_node]
      rcases hr with rfl | rfl <;> rw [NamespaceMember.ofParts?, NamespaceMember.ofParts?] <;>
        exact hrest
    · simp only [not_or] at hr
      rw [List.map_cons, NamespaceMember.ofParts?.eq_5, NamespaceMember.ofParts?.eq_5]
      · rcases both_of_map_eq hmember with ⟨hm, hm'⟩ | ⟨m', m, hm, hm', hforget⟩
        · simp [hm, hm']
        rcases both_of_map_eq hrest with ⟨hms, hms'⟩ | ⟨ms', ms, hms, hms', hforget'⟩
        · simp [hm, hm', hms, hms']
        · simp [hm, hm', hms, hms', withoutSpansAll, hforget, hforget']
      all_goals simp [Tree.bare_node, hr]

end

/-- **A bare tree stands for the same source but for its spans.** -/
theorem CompilationUnit.ofTree?_bare (h : source <:+: common) (path : String) (t : Tree) :
    (CompilationUnit.ofTree? common path (t.bare common source)).map withoutSpans =
      (CompilationUnit.ofTree? source path t).map withoutSpans := by
  cases t with
  | leaf => simp [ofTree?]
  | node r parts e =>
    rw [Tree.bare_node]
    by_cases hr : r = .source
    · subst hr
      simp only [Rule.isSilent, Bool.false_eq_true, if_false, ofTree?, Option.bind_eq_bind]
      rcases both_of_map_eq (UsingDirective.among_bare common source parts) with
        ⟨hu, hu'⟩ | ⟨us', us, hu, hu', hforget⟩
      · rw [hu, hu', Option.bind_none, Option.bind_none]
      rcases both_of_map_eq (NamespaceMember.ofParts?_bare h parts) with
        ⟨hms, hms'⟩ | ⟨ms', ms, hms, hms', hmembers⟩
      · simp only [hu, hu', hms, hms', Option.bind_some, Option.bind_none]
      · simp only [hu, hu', hms, hms', Option.bind_some, Option.pure_def, Option.map_some,
          withoutSpans, hforget, hmembers]
    · simp [ofTree?, hr]

end

/-- **A source declares what another one does**, but for spans, if their trees say the same. -/
theorem CompilationUnit.exists_ofTree?_of_bare {path : String} {source other : List Char}
    {t t' : Tree} {unit : CompilationUnit} (h : ofTree? source path t = some unit)
    (hbare : t.bare (source ++ other) source = t'.bare (source ++ other) other) :
    ∃ unit', ofTree? other path t' = some unit' ∧ unit'.withoutSpans = unit.withoutSpans := by
  -- Both trees say what the bare one does, each in its own source.
  have hsame := ofTree?_bare (List.prefix_append source other).isInfix path t
  rw [hbare, ofTree?_bare (List.suffix_append source other).isInfix path t', h, Option.map_some,
    Option.map_eq_some_iff] at hsame
  exact hsame

end Facade
