import Facade.Proofs.Grammar.PhraseParts
import Facade.Proofs.Syntax.SourceOrder

/-!
# The parts of declarations are found

What a declaration is made of is picked out of its phrase by kind and place. In a tree of the plain
grammar all that is picked is there.

* `TypeSyntax.Found`, **`TypeSyntax.found`**: written types, phrase by phrase;
* `UsingDirective.exists_of_tree`, `ParameterSyntax.exists_of_tree`: directives and parameters;
* `MethodDeclaration.exists_of_parts`, `OtherMember.exists_of_parts`, `TypeHead.exists_of_parts`: members
  and heads of types.
-/

namespace Facade

open Facade.Tree Facade.Pattern

variable {good : Tree → Prop}

theorem exists_mapM {α β : Type} {f : α → Option β} {xs : List α} (h : ∀ x ∈ xs, ∃ y, f x = some y) :
    ∃ ys, xs.mapM f = some ys := by
  induction xs with
  | nil => exact ⟨[], rfl⟩
  | cons x xs ih =>
    obtain ⟨hx, hxs⟩ := List.forall_mem_cons.mp h
    obtain ⟨y, hy⟩ := hx
    obtain ⟨ys, hys⟩ := ih hxs
    exact ⟨y :: ys, by simp [List.mapM_cons, hy, hys]⟩

theorem exists_mapM_then {α β γ : Type} {f : α → Option β} {xs : List α} (g : List β → γ)
    (h : ∀ x ∈ xs, ∃ y, f x = some y) :
    ∃ z, (do let ys ← xs.mapM f; return g ys : Option γ) = some z := by
  obtain ⟨ys, hys⟩ := exists_mapM h
  exact ⟨g ys, by rw [hys]; rfl⟩

theorem Pattern.Spells.kind_mem_filter {p : Pattern} {parts : List Tree} (h : p.Spells parts) {r : Rule}
    {t : Tree} (ht : t ∈ parts.filter (isKept r)) : t.kind ∈ p.kinds.filter (PartKind.isKept r) := by
  obtain ⟨hmem, hkept⟩ := List.mem_filter.mp ht
  exact List.mem_filter.mpr ⟨h.kind_mem hmem, isKept_eq r t ▸ hkept⟩

theorem Pattern.spells_oneOf {t : Terminal} {ts : List Terminal} {parts : List Tree}
    (h : (oneOf t ts).Spells parts) : ∃ found : Token, parts = [.leaf found] := by
  unfold oneOf at h
  induction ts generalizing t with
  | nil =>
    obtain ⟨found, -, rfl⟩ := h
    exact ⟨found, rfl⟩
  | cons t' ts ih =>
    rcases h with ⟨found, -, rfl⟩ | h
    · exact ⟨found, rfl⟩
    · exact ih h

/-! ## Types -/

namespace TypeSyntax

/-- What is picked of a phrase in a written type is there. -/
def Found : Tree → Prop
  | .node .type children e => ∃ u, ofTree? (.node .type children e) = some u
  | .node .namedType children e => ∃ u, ofBase? (.node .namedType children e) = some u
  | .node .predefinedType children e => ∃ u, ofBase? (.node .predefinedType children e) = some u
  | .node .tupleType children e => ∃ u, ofBase? (.node .tupleType children e) = some u
  | .node .typeSuffix children _ => ∀ u : TypeSyntax, ∃ v, u.withSuffix (words children) = some v
  | .node .simpleName children e => ∃ q, ∀ rest,
      NamePart.ofTrees? (.node .simpleName children e :: rest) =
        (NamePart.ofTrees? rest).map (q :: ·)
  | .node .typeArgumentList children _ => ∃ us, ofTrees? children = some us
  | .node .tupleElement children e => ∃ x, ∀ rest,
      ofElements? (.node .tupleElement children e :: rest) = (ofElements? rest).map (x :: ·)
  | _ => True

/-- Some phrases of one rule, of each of which all is found. -/
def FoundAll (r : Rule) (ts : List Tree) : Prop := ∀ t ∈ ts, t.kind = .phrase r ∧ Found t

variable {r : Rule} {t : Tree} {ts : List Tree}

theorem FoundAll.of_cons (h : FoundAll r (t :: ts)) :
    (∃ children e, t = .node r children e) ∧ Found t ∧ FoundAll r ts :=
  ⟨exists_of_kind (h t List.mem_cons_self).1, (h t List.mem_cons_self).2,
    fun u hu => h u (List.mem_cons_of_mem _ hu)⟩

theorem FoundAll.exists_withSuffixes (h : FoundAll .typeSuffix ts) (u : TypeSyntax) :
    ∃ v, u.withSuffixes ts = some v := by
  induction ts generalizing u with
  | nil => exact ⟨u, rfl⟩
  | cons t ts ih =>
    obtain ⟨⟨children, e, rfl⟩, hfound, hrest⟩ := h.of_cons
    obtain ⟨v, hv⟩ := hfound u
    obtain ⟨w, hw⟩ := ih hrest v
    exact ⟨w, by simp [withSuffixes, hv, hw]⟩

theorem FoundAll.exists_ofTrees? (h : FoundAll .type ts) : ∃ us, ofTrees? ts = some us := by
  induction ts with
  | nil => exact ⟨[], rfl⟩
  | cons t ts ih =>
    obtain ⟨⟨children, e, rfl⟩, ⟨u, hu⟩, hrest⟩ := h.of_cons
    obtain ⟨us, hus⟩ := ih hrest
    exact ⟨u :: us, by simp [ofTrees?, hu, hus]⟩

theorem FoundAll.exists_ofParts? (h : FoundAll .simpleName ts) :
    ∃ qs, NamePart.ofTrees? ts = some qs := by
  induction ts with
  | nil => exact ⟨[], rfl⟩
  | cons t ts ih =>
    obtain ⟨⟨children, e, rfl⟩, ⟨q, hq⟩, hrest⟩ := h.of_cons
    obtain ⟨qs, hqs⟩ := ih hrest
    exact ⟨q :: qs, by rw [hq, hqs, Option.map_some]⟩

theorem FoundAll.exists_ofElements? (h : FoundAll .tupleElement ts) :
    ∃ es, ofElements? ts = some es := by
  induction ts with
  | nil => exact ⟨[], rfl⟩
  | cons t ts ih =>
    obtain ⟨⟨children, e, rfl⟩, ⟨x, hx⟩, hrest⟩ := h.of_cons
    obtain ⟨es, hes⟩ := ih hrest
    exact ⟨x :: es, by rw [hx, hes, Option.map_some]⟩

section

variable {parts : List Tree} (hfound : ∀ t ∈ parts, Found t)

include hfound

theorem foundAll_of_spells (r r' : Rule) {p : Pattern} {before behind : List Tree}
    (hparts : parts = before ++ behind) (h : p.Spells behind)
    (hkinds : p.kinds.filter (PartKind.isKept r) ⊆ [.phrase r']) :
    FoundAll r' (behind.filter (isKept r)) := fun t ht =>
  ⟨List.mem_singleton.mp (hkinds (h.kind_mem_filter ht)),
    hfound t (hparts ▸ List.mem_append_right _ (List.mem_filter.mp ht).1)⟩

theorem found_type (h : Rule.type.plainBody.Spells parts) (e : Option Extent) :
    Found (.node .type (parts.filter (isKept .type)) e) := by
  obtain ⟨base, suffixes, hbase, hsuffixes, rfl⟩ := h
  obtain ⟨t, u, rfl, hkept, hu⟩ :
      ∃ t u, base = [t] ∧ isKept .type t = true ∧ ofBase? t = some u := by
    rcases hbase with ⟨children, e, rfl⟩ | ⟨children, e, rfl⟩ | ⟨children, e, rfl⟩
    all_goals
      obtain ⟨u, hu⟩ := hfound _ (List.mem_append_left _ (List.mem_singleton.mpr rfl))
      exact ⟨_, u, rfl, rfl, hu⟩
  obtain ⟨v, hv⟩ :=
    (foundAll_of_spells hfound .type .typeSuffix rfl hsuffixes (by decide)).exists_withSuffixes u
  rw [List.singleton_append, List.filter_cons_of_pos hkept]
  exact ⟨v, by rw [ofTree?, hu]; exact hv⟩

theorem found_namedType (h : Rule.namedType.plainBody.Spells parts) (e : Option Extent) :
    Found (.node .namedType (parts.filter (isKept .namedType)) e) := by
  obtain ⟨mark, names, hmark, hnames, rfl⟩ := h
  obtain ⟨qs, hqs⟩ :=
    (foundAll_of_spells hfound .namedType .simpleName rfl hnames (by decide)).exists_ofParts?
  obtain ⟨_, rest, ⟨children, e', rfl⟩, -, rfl⟩ := hnames
  rw [List.singleton_append, List.filter_cons_of_pos rfl] at hqs
  rcases hmark with rfl | ⟨children', e'', rfl⟩
  · rw [List.nil_append, List.singleton_append, List.filter_cons_of_pos rfl]
    refine ⟨.named false qs, ?_⟩
    rw [ofBase?, hqs]
    · rfl
    · simp
  · rw [List.singleton_append, List.singleton_append, List.filter_cons_of_pos rfl,
      List.filter_cons_of_pos rfl]
    exact ⟨.named true qs, by rw [ofBase?, hqs]; rfl⟩

theorem found_tupleType (h : Rule.tupleType.plainBody.Spells parts) (e : Option Extent) :
    Found (.node .tupleType (parts.filter (isKept .tupleType)) e) := by
  obtain ⟨es, hes⟩ := (foundAll_of_spells hfound .tupleType .tupleElement (List.nil_append _).symm h
    (by decide)).exists_ofElements?
  exact ⟨.tuple es, by rw [ofBase?, hes]; rfl⟩

theorem found_typeArgumentList (h : Rule.typeArgumentList.plainBody.Spells parts) (e : Option Extent) :
    Found (.node .typeArgumentList (parts.filter (isKept .typeArgumentList)) e) :=
  (foundAll_of_spells hfound .typeArgumentList .type (List.nil_append _).symm h
    (by decide)).exists_ofTrees?

theorem found_simpleName (h : Rule.simpleName.plainBody.Spells parts) (e : Option Extent) :
    Found (.node .simpleName (parts.filter (isKept .simpleName)) e) := by
  obtain ⟨_, arguments, ⟨n, hn, rfl⟩, harguments, rfl⟩ := h
  have hkept : isKept .simpleName (.leaf n) = true := by simp [isKept, hn, Terminal.isNamed]
  rw [List.singleton_append, List.filter_cons_of_pos hkept]
  rcases harguments with rfl | ⟨children, e', rfl⟩
  · refine ⟨.mk n.text [], fun rest => ?_⟩
    rw [List.filter_nil, NamePart.ofTrees?]
    cases NamePart.ofTrees? rest <;> rfl
  · obtain ⟨us, hus⟩ := hfound (.node .typeArgumentList children e') (by simp)
    refine ⟨.mk n.text us, fun rest => ?_⟩
    rw [List.filter_cons_of_pos rfl, List.filter_nil, NamePart.ofTrees?, hus]
    cases NamePart.ofTrees? rest <;> rfl

theorem found_tupleElement (h : Rule.tupleElement.plainBody.Spells parts) (e : Option Extent) :
    Found (.node .tupleElement (parts.filter (isKept .tupleElement)) e) := by
  obtain ⟨_, name, ⟨children, e', rfl⟩, hname, rfl⟩ := h
  obtain ⟨u, hu⟩ := hfound (.node .type children e') (by simp)
  rw [List.singleton_append, List.filter_cons_of_pos rfl]
  rcases hname with rfl | ⟨n, hn, rfl⟩
  · refine ⟨(u, none), fun rest => ?_⟩
    rw [List.filter_nil, ofElements?, hu]
    cases ofElements? rest <;> rfl
  · have hkept : isKept .tupleElement (.leaf n) = true := by simp [isKept, hn, Terminal.isNamed]
    refine ⟨(u, some n.text), fun rest => ?_⟩
    rw [List.filter_cons_of_pos hkept, List.filter_nil, ofElements?, hu]
    cases ofElements? rest <;> rfl

end

theorem found_predefinedType {parts : List Tree} (h : Rule.predefinedType.plainBody.Spells parts)
    (e : Option Extent) : Found (.node .predefinedType (parts.filter (isKept .predefinedType)) e) := by
  obtain ⟨t, rfl⟩ := spells_oneOf h
  exact ⟨.predefined t.text, by rw [filter_isKept rfl, ofBase?]⟩

theorem found_typeSuffix {parts : List Tree} (h : Rule.typeSuffix.plainBody.Spells parts)
    (hgrown : ∀ t ∈ parts, t.Grown good) (e : Option Extent) :
    Found (.node .typeSuffix (parts.filter (isKept .typeSuffix)) e) := by
  rw [filter_isKept rfl]
  intro u
  rcases h with ⟨t, ht, rfl⟩ | ⟨_, rest, ⟨t, ht, rfl⟩, -, rfl⟩ | ⟨t, ht, rfl⟩
  · have htext := Tree.text_of_spelled (hgrown _ List.mem_cons_self) ht rfl
    exact ⟨.nullable u, by rw [words, words, htext]; rfl⟩
  · have htext := Tree.text_of_spelled (hgrown _ List.mem_cons_self) ht rfl
    exact ⟨_, by rw [List.singleton_append, words, htext]; rfl⟩
  · have htext := Tree.text_of_spelled (hgrown _ List.mem_cons_self) ht rfl
    exact ⟨.pointer u, by rw [words, words, htext]; rfl⟩

/-- **All that is picked of the phrases in a written type is there.** -/
theorem found {t : Tree} (h : t.Grown good) : Found t := by
  induction h with
  | leaf => trivial
  | @node r parts hspells hgrown _ ih =>
    cases r with
    | type => exact found_type ih hspells _
    | namedType => exact found_namedType ih hspells _
    | predefinedType => exact found_predefinedType hspells _
    | tupleType => exact found_tupleType ih hspells _
    | typeSuffix => exact found_typeSuffix hspells hgrown _
    | simpleName => exact found_simpleName ih hspells _
    | typeArgumentList => exact found_typeArgumentList ih hspells _
    | tupleElement => exact found_tupleElement ih hspells _
    | _ => trivial

theorem exists_of_tree {t : Tree} (h : t.Grown good) (hk : t.kind = .phrase .type) :
    ∃ u, ofTree? t = some u := by
  obtain ⟨children, e, rfl⟩ := exists_of_kind hk
  exact found h

theorem exists_among {parts : List Tree} (h : ∀ t ∈ parts, t.Grown good) {t : Tree} (ht : t ∈ parts)
    (hk : t.kind = .phrase .type) : ∃ u, among? parts = some u := by
  obtain ⟨inner, e, hphrase, hmem⟩ := phrase?_of_kind ht hk
  obtain ⟨u, hu⟩ := exists_of_tree (h _ hmem) rfl
  exact ⟨u, by rw [among?, hphrase]; exact hu⟩

theorem exists_among_of_needs {r : Rule} {parts : List Tree} {e : Option Extent}
    (h : (Tree.node r parts e).Grown good) (hrequires : r.plainBody.requires [.phrase .type]) :
    ∃ u, among? parts = some u := by
  obtain ⟨t, ht, hk⟩ := h.exists_kind _ hrequires (by simp [PartKind.isKept])
  exact exists_among (fun t ht => h.of_mem ht) ht (List.mem_singleton.mp hk)

end TypeSyntax

/-! ## Parts of declarations -/

section

variable {parts : List Tree} {e : Option Extent}

/-- Directives name a namespace, or else an alias and a type. -/
theorem UsingTarget.exists_of_parts (h : (Tree.node .usingDirective parts e).Grown good) :
    ∃ u, ofParts? parts = some u := by
  unfold ofParts?
  cases hphrase : phrase? .qualifiedName parts with
  | some t => exact ⟨_, rfl⟩
  | none =>
    have hnot : ∀ t ∈ parts, t.kind ≠ .phrase .qualifiedName := fun t ht hk => by
      obtain ⟨_, _, hsome, -⟩ := phrase?_of_kind ht hk
      rw [hsome] at hphrase
      cases hphrase
    obtain ⟨t, ht, hk⟩ := h.exists_kind [.phrase .qualifiedName, .token .name] (by decide)
      (by decide)
    obtain ⟨t', ht', hk'⟩ := h.exists_kind [.phrase .qualifiedName, .phrase .type] (by decide)
      (by decide)
    obtain ⟨n, hn⟩ := name?_of_kind ht (by simpa [hnot t ht] using hk)
    obtain ⟨u, hu⟩ := TypeSyntax.exists_among (fun t ht => h.of_mem ht) ht'
      (by simpa [hnot t' ht'] using hk')
    exact ⟨.alias n.text u, by simp [hn, hu]⟩

theorem UsingDirective.exists_of_tree {t : Tree} (h : t.Grown good)
    (hk : t.kind = .phrase .usingDirective) : ∃ u, ofTree? t = some u := by
  obtain ⟨parts, e, rfl⟩ := exists_of_kind hk
  obtain ⟨u, hu⟩ := UsingTarget.exists_of_parts h
  exact ⟨_, by simp only [ofTree?, hu]; rfl⟩

theorem TypeParameterSyntax.exists_of_tree {t : Tree} (h : t.Grown good)
    (hk : t.kind = .phrase .typeParameter) : ∃ p, ofTree? t = some p := by
  obtain ⟨parts, e, rfl⟩ := exists_of_kind hk
  obtain ⟨n, hn⟩ := h.exists_name (by decide)
  exact ⟨_, by simp only [ofTree?, hn]; rfl⟩

theorem ConstraintSyntax.exists_of_tree {t : Tree} (h : t.Grown good)
    (hk : t.kind = .phrase .constraint) : ∃ c, ofTree? t = some c := by
  obtain ⟨parts, e, rfl⟩ := exists_of_kind hk
  simp only [ofTree?]
  cases hphrase : phrase? .type parts with
  | none => exact ⟨_, rfl⟩
  | some t =>
    obtain ⟨hmem, inner, e', rfl⟩ := phrase?_eq_some hphrase
    obtain ⟨u, hu⟩ := TypeSyntax.exists_of_tree (h.of_mem hmem) rfl
    exact ⟨.type u, by simp [hu]⟩

theorem ConstraintClause.exists_of_tree {t : Tree} (h : t.Grown good)
    (hk : t.kind = .phrase .constraintClause) : ∃ c, ofTree? t = some c := by
  obtain ⟨parts, e, rfl⟩ := exists_of_kind hk
  obtain ⟨n, hn⟩ := h.exists_name (by decide)
  obtain ⟨cs, hcs⟩ := exists_mapM fun t (ht : t ∈ phrases .constraint parts) =>
    ConstraintSyntax.exists_of_tree (h.of_mem (mem_phrases ht).1)
      (isPhrase_iff.mp (List.mem_filter.mp ht).2)
  exact ⟨_, by simp only [ofTree?, hn, hcs]; rfl⟩

theorem Tree.exists_headWords {r : Rule} {t : Terminal} {ts : List Terminal}
    (hbody : r.plainBody = oneOf t ts) (hr : r.keepsTokens = true) (h : ∀ t ∈ parts, t.Grown good) :
    ∃ ws, headWords? r parts = some ws := by
  refine exists_mapM fun t ht => ?_
  obtain ⟨hmem, children, e, rfl⟩ := mem_phrases ht
  cases h _ hmem with
  | node hspells _ _ =>
    rw [hbody] at hspells
    obtain ⟨found, rfl⟩ := spells_oneOf hspells
    exact ⟨found.text, by rw [filter_isKept hr]⟩

theorem ParameterSyntax.exists_of_tree {t : Tree} (h : t.Grown good)
    (hk : t.kind = .phrase .parameter) (source : List Char) : ∃ p, ofTree? source t = some p := by
  obtain ⟨parts, e, rfl⟩ := exists_of_kind hk
  obtain ⟨n, hn⟩ := h.exists_name (by decide)
  obtain ⟨u, hu⟩ := TypeSyntax.exists_among_of_needs h (by decide)
  obtain ⟨ws, hws⟩ := exists_headWords (r := .parameterModifier) rfl rfl fun t ht => h.of_mem ht
  exact ⟨_, by simp only [ofTree?, hn, hu, hws]; rfl⟩

section

variable (h : ∀ t ∈ parts, t.Grown good)

include h

theorem TypeParameterSyntax.exists_among : ∃ ps, among? parts = some ps := by
  have hkinds : ∀ k ∈ Rule.typeParameterList.keptKinds, k = .phrase .typeParameter := by decide
  refine exists_mapM fun t ht => ?_
  obtain ⟨hgrown, hk⟩ := Grown.of_mem_partsOf h ht
  exact TypeParameterSyntax.exists_of_tree hgrown (hkinds _ hk)

theorem ConstraintClause.exists_among : ∃ cs, among? parts = some cs :=
  exists_mapM fun _ ht => ConstraintClause.exists_of_tree (h _ (mem_phrases ht).1)
    (isPhrase_iff.mp (List.mem_filter.mp ht).2)

theorem ParameterSyntax.exists_among (source : List Char) : ∃ ps, among? source parts = some ps := by
  have hkinds : ∀ k ∈ Rule.parameterList.keptKinds, k = .phrase .parameter := by decide
  refine exists_mapM fun t ht => ?_
  obtain ⟨hgrown, hk⟩ := Grown.of_mem_partsOf h ht
  exact ParameterSyntax.exists_of_tree hgrown (hkinds _ hk) source

theorem Surroundings.exists_among (source : List Char) (e : Option Extent) :
    ∃ around, among? source parts e = some around := by
  obtain ⟨ws, hws⟩ := exists_headWords (r := .modifier) rfl rfl h
  exact ⟨_, by simp only [among?, hws]; rfl⟩

end

/-! ## Members -/

variable (source : List Char) (around : Surroundings)

theorem MethodDeclaration.exists_of_parts (h : (Tree.node .methodDeclaration parts e).Grown good) :
    ∃ m, ofParts? source around parts = some m ∧ m.span = around.span := by
  have hparts : ∀ t ∈ parts, t.Grown good := fun t ht => h.of_mem ht
  obtain ⟨inner, e', hname, -⟩ := h.exists_phrase .memberName (by decide)
  obtain ⟨u, hu⟩ := TypeSyntax.exists_among_of_needs h (by decide)
  obtain ⟨ps, hps⟩ := ParameterSyntax.exists_among hparts source
  obtain ⟨tps, htps⟩ := TypeParameterSyntax.exists_among hparts
  obtain ⟨cs, hcs⟩ := ConstraintClause.exists_among hparts
  exact ⟨_, by simp only [ofParts?, hname, hu, hps, htps, hcs]; rfl, rfl⟩

theorem Tree.exists_operatorSign (h : (Tree.node .operatorDeclaration parts e).Grown good) :
    ∃ t sign rest, parts = t :: .leaf sign :: rest := by
  cases h with
  | node hspells _ _ =>
    obtain ⟨_, _, ⟨children, e', rfl⟩, ⟨_, _, ⟨word, hword, rfl⟩, ⟨_, rest, ⟨sign, hsign, rfl⟩, -, rfl⟩,
      rfl⟩, rfl⟩ := hspells
    refine ⟨.node .type children e', sign, rest.filter (isKept .operatorDeclaration), ?_⟩
    simp [List.filter_cons, isKept, Rule.keepsTokens, Terminal.isNamed, hword, hsign]

theorem OtherMember.exists_nameOf {r : Rule} {kind : MemberKind} (hr : MemberKind.ofRule? r = some kind)
    (h : (Tree.node r parts e).Grown good) : ∃ n, nameOf? parts kind = some n := by
  unfold MemberKind.ofRule? at hr
  split at hr
  all_goals cases hr
  · obtain ⟨n, hn⟩ := h.exists_name (by decide)
    exact ⟨n.text, by rw [nameOf?, hn]; rfl⟩
  · obtain ⟨n, hn⟩ := h.exists_name (by decide)
    exact ⟨n.text, by rw [nameOf?, hn]; rfl⟩
  · obtain ⟨inner, e', hname, -⟩ := h.exists_phrase .memberName (by decide)
    exact ⟨_, by rw [nameOf?, hname]; rfl⟩
  · exact ⟨_, rfl⟩
  · refine exists_mapM_then commaSeparated fun t ht => ?_
    obtain ⟨hmem, inner, e', rfl⟩ := mem_phrases ht
    obtain ⟨n, hn⟩ := (h.of_mem hmem).exists_name (by decide)
    exact ⟨n.text, congrArg (Option.map Token.text) hn⟩
  · obtain ⟨t, sign, rest, rfl⟩ := exists_operatorSign h
    exact ⟨_, rfl⟩
  · obtain ⟨u, hu⟩ := TypeSyntax.exists_among_of_needs h (by decide)
    exact ⟨_, by rw [nameOf?, hu]; rfl⟩

theorem OtherMember.exists_of_parts {r : Rule} {kind : MemberKind} (hr : MemberKind.ofRule? r = some kind)
    (h : (Tree.node r parts e).Grown good) : ∃ n, ofParts? around kind parts =
      some ⟨kind, n, around.modifiers, around.attributes, around.span⟩ := by
  obtain ⟨n, hn⟩ := OtherMember.exists_nameOf hr h
  exact ⟨n, by rw [ofParts?, hn]; rfl⟩

/-- Every declaration of a type has a form. -/
theorem TypeForm.exists_of_parts {r : Rule} (hr : r ∈ Rule.typeDeclarations)
    (h : (Tree.node r parts e).Grown good) : ∃ form, ofParts? source parts r = some form := by
  simp only [Rule.typeDeclarations, List.mem_cons, List.not_mem_nil, or_false] at hr
  rcases hr with rfl | rfl | rfl | rfl | rfl | rfl
  case inr.inr.inr.inr.inr =>
    obtain ⟨u, hu⟩ := TypeSyntax.exists_among_of_needs h (by decide)
    obtain ⟨ps, hps⟩ := ParameterSyntax.exists_among (fun t ht => h.of_mem ht) source
    exact ⟨.delegateForm u ps, by rw [ofParts?, hu, hps]; rfl⟩
  all_goals exact ⟨_, rfl⟩

theorem TypeHead.exists_basesOf (h : ∀ t ∈ parts, t.Grown good) (form : TypeForm) :
    ∃ bases, basesOf? parts form = some bases := by
  unfold basesOf?
  split
  · refine exists_mapM fun t ht => ?_
    obtain ⟨hmem, inner, e, rfl⟩ := phrase?_eq_some (Option.mem_toList.mp ht)
    exact TypeSyntax.exists_of_tree (h _ hmem) rfl
  · have hkinds : ∀ k ∈ Rule.baseList.keptKinds, k = .phrase .baseType := by decide
    refine exists_mapM fun t ht => ?_
    obtain ⟨hgrown, hk⟩ := Grown.of_mem_partsOf h ht
    obtain ⟨inner, e, rfl⟩ := exists_of_kind (hkinds _ hk)
    exact TypeSyntax.exists_among_of_needs hgrown (by decide)

theorem TypeHead.exists_of_parts {r : Rule} (hr : r ∈ Rule.typeDeclarations)
    (h : (Tree.node r parts e).Grown good) (form : TypeForm) :
    ∃ head, ofParts? around form parts = some head ∧ head.form = form ∧ head.span = around.span := by
  have hparts : ∀ t ∈ parts, t.Grown good := fun t ht => h.of_mem ht
  have hrequires : ∀ r ∈ Rule.typeDeclarations, r.plainBody.requires [.token .name] := by decide
  obtain ⟨n, hn⟩ := h.exists_name (hrequires r hr)
  obtain ⟨tps, htps⟩ := TypeParameterSyntax.exists_among hparts
  obtain ⟨bases, hbases⟩ := TypeHead.exists_basesOf hparts form
  obtain ⟨cs, hcs⟩ := ConstraintClause.exists_among hparts
  exact ⟨_, by simp only [ofParts?, hn, htps, hbases, hcs]; rfl, rfl, rfl⟩

end

end Facade
