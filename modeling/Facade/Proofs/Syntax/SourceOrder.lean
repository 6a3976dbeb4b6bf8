import Facade.Proofs.Grammar.PartOrder
import Facade.Proofs.Syntax.Characters
import Facade.Proofs.Syntax.NodeTree
import Facade.Proofs.Syntax.WrittenSource

/-!
# Declarations in the order of the source

The nodes of a source take their spans from the phrases that they stand for. So each node covers those
that it holds, which stand in a row behind its name, and candidates come in the order in which they begin.

* `NodeTree.Nested`: the name of a node and what it holds stand in a row in its span;
* `StandFor`: nodes that stand for trees;
* `MethodDeclaration.row_of_parts`, `TypeHead.row_of_parts`: methods and heads of types;
* `Member.nested_of_tree`, `NamespaceMember.nested_of_tree`: members, by induction on trees;
* **`CompilationUnit.nested_of_parse`**: the nodes of a source;
* `NodeTree.Nested.increase`: the candidates in a node begin one behind the other;
* **`CompilationUnit.source_order`**: spans nest, and candidates come in the order of the source.
-/

namespace Facade

namespace Node

/-- The span of a node. -/
def span? : Node → Option Span
  | unit u => u.span
  | directive u => u.span
  | space h => h.span
  | type d => d.head.span
  | typeParameter p => p.span
  | constraints c => c.span
  | method m => m.span
  | parameter p => p.span
  | other m => m.span

/-- Types, methods and parameters keep the span of their name. -/
def isNamed : Node → Bool
  | type _ | method _ | parameter _ => true
  | _ => false

/-- The span of the name of a node, where that is kept. -/
def nameSpan? : Node → Option Span
  | type d => d.head.nameSpan
  | method m => m.nameSpan
  | parameter p => p.nameSpan
  | _ => none

theorem nameSpan?_eq_none {n : Node} (h : n.isNamed = false) : n.nameSpan? = none := by
  cases n <;> first | rfl | cases h

theorem isNamed_of_isCandidate {n : Node} (h : n.isCandidate = true) : n.isNamed = true := by
  cases n <;> first | rfl | cases h

end Node

namespace NodeTree

/-- The stretch of a node that has one. -/
def stretch (n : NodeTree) : Span := n.node.span?.getD default

/-- The name of the node, if it is named, and what it holds stand in a row in its span, and so it is with
each node that it holds. -/
inductive Nested : NodeTree → Prop
  | mk {s n parts span} : n.span? = some span → span.start < span.stop →
      (n.isNamed = true → n.nameSpan?.isSome = true) →
      Row span.start span.stop (n.nameSpan?.toList ++ parts.map stretch) →
      (∀ p ∈ parts, Nested p) → Nested (.mk s n parts)

end NodeTree

/-- The nodes stand for these trees, each for the one at its place. -/
structure StandFor (ns : List NodeTree) (ts : List Tree) : Prop where
  nested : ∀ n ∈ ns, n.Nested
  stretch : ns.map NodeTree.stretch = ts.map Tree.stretch

namespace StandFor

open NodeTree

variable {ns ns' : List NodeTree} {ts ts' : List Tree}

theorem nil : StandFor [] [] := ⟨fun _ h => absurd h List.not_mem_nil, rfl⟩

theorem cons {n : NodeTree} {t : Tree} (hn : n.Nested) (hstretch : n.stretch = t.stretch)
    (h : StandFor ns ts) : StandFor (n :: ns) (t :: ts) where
  nested := List.forall_mem_cons.mpr ⟨hn, h.nested⟩
  stretch := by rw [List.map_cons, List.map_cons, hstretch, h.stretch]

theorem append (h : StandFor ns ts) (h' : StandFor ns' ts') : StandFor (ns ++ ns') (ts ++ ts') where
  nested n hn := (List.mem_append.mp hn).elim (h.nested n) (h'.nested n)
  stretch := by rw [List.map_append, List.map_append, h.stretch, h'.stretch]

theorem of_mapM {α : Type} {f : Tree → Option α} {g : α → NodeTree}
    (hf : ∀ t ∈ ts, ∀ x, f t = some x → (g x).Nested ∧ (g x).stretch = t.stretch) {xs : List α}
    (h : ts.mapM f = some xs) : StandFor (xs.map g) ts := by
  induction ts generalizing xs with
  | nil =>
    simp only [List.mapM_nil, Option.pure_def, Option.some.injEq] at h
    subst h
    exact .nil
  | cons t ts ih =>
    simp only [List.mapM_cons, Option.pure_def, Option.bind_eq_bind, Option.bind_eq_some_iff,
      Option.some.injEq] at h
    obtain ⟨x, hx, xs, hxs, rfl⟩ := h
    obtain ⟨hnested, hstretch⟩ := hf t List.mem_cons_self x hx
    exact .cons hnested hstretch (ih (fun t ht => hf t (List.mem_cons_of_mem _ ht)) hxs)

end StandFor

/-! ## Trees of a parse -/

namespace Tree

/-- The tree is laid, and one of the plain grammar. -/
structure IsSet (t : Tree) : Prop where
  laid : t.Laid
  grown : t.Grown fun _ => True

variable {r : Rule} {parts : List Tree} {extent : Option Extent} {t : Tree}

theorem IsSet.of_mem (h : (node r parts extent).IsSet) (ht : t ∈ parts) : t.IsSet where
  laid := by
    cases h.laid with
    | node hparts _ _ => exact hparts t ht
  grown := h.grown.of_mem ht

theorem IsSet.of_partsOf (h : ∀ t ∈ parts, t.IsSet) : ∀ t ∈ partsOf r parts, t.IsSet := by
  unfold partsOf
  split
  · next hphrase =>
    have hnode := h _ (phrase?_eq_some hphrase).1
    exact fun t ht => hnode.of_mem ht
  · simp

theorem IsSet.exists_row (h : (node r parts extent).IsSet) :
    ∃ e, extent = some e ∧ Row e.span.start e.span.stop (parts.map stretch) := by
  cases h.laid with
  | node _ _ hrow => exact ⟨_, rfl, hrow⟩

/-- What a list of type parameters, parameters or members holds; any other tree as it is. -/
def exposed : Tree → List Tree
  | node .typeParameterList parts _ | node .parameterList parts _ | node .classBody parts _ => parts
  | t => [t]

theorem Laid.row_exposed (h : t.Laid) :
    Row t.stretch.start t.stretch.stop (t.exposed.map stretch) := by
  unfold exposed
  split
  · cases h with
    | node _ _ hrow => exact hrow
  · cases h with
    | node _ _ hrow => exact hrow
  · cases h with
    | node _ _ hrow => exact hrow
  · exact .singleton (le_refl _) h.proper (le_refl _)

theorem row_flatMap_exposed {lo hi : Place} {ts : List Tree} (hts : ∀ t ∈ ts, t.Laid)
    (h : Row lo hi (ts.map stretch)) : Row lo hi ((ts.flatMap exposed).map stretch) := by
  induction ts generalizing lo with
  | nil => exact h
  | cons t ts ih =>
    obtain ⟨ht, hts⟩ := List.forall_mem_cons.mp hts
    rw [List.map_cons] at h
    cases h with
    | cons hstart _ hrest =>
      rw [List.flatMap_cons, List.map_append]
      exact (ht.row_exposed.widen hstart (le_refl _)).append (ih hts hrest)

theorem filter_kind_phrase (r : Rule) (parts : List Tree) :
    (parts.filter fun t => t.kind ∈ [.phrase r]) = phrases r parts := by
  refine List.filter_congr fun t _ => ?_
  cases t with
  | leaf t => simp [kind, isPhrase]
  | node r' inner e =>
    rw [Bool.eq_iff_iff]
    simp [kind, isPhrase]

/-- The parts of some kinds, those of lists in the place of the lists. -/
def exposing (parts : List Tree) (ks : List PartKind) : List Tree :=
  (parts.filter fun t => t.kind ∈ ks).flatMap exposed

theorem partsOf_sublist (hr : ∀ inner e, exposed (node r inner e) = inner) :
    (partsOf r parts).Sublist (exposing parts [.phrase r]) := by
  unfold partsOf
  split
  · next r' inner e hphrase =>
    obtain ⟨hmem, _, _, heq⟩ := phrase?_eq_some hphrase
    cases heq
    have hexposed : inner ∈ (parts.filter fun t => t.kind ∈ [.phrase r]).map exposed :=
      List.mem_map.mpr ⟨_, List.mem_filter.mpr ⟨hmem, by simp [kind]⟩, hr inner e⟩
    exact List.sublist_flatten_of_mem hexposed
  · exact List.nil_sublist _

theorem sizeOf_partsOf (r : Rule) (parts : List Tree) : sizeOf (partsOf r parts) ≤ sizeOf parts := by
  unfold partsOf
  split
  · next r' inner e hphrase =>
    have hmem := List.sizeOf_lt_of_mem (phrase?_eq_some hphrase).1
    simp only [node.sizeOf_spec] at hmem
    omega
  · cases parts with
    | nil => exact le_refl _
    | cons t ts => simp only [List.nil.sizeOf_spec, List.cons.sizeOf_spec]; omega

theorem phrases_sublist (hr : ∀ inner e, exposed (node r inner e) = [node r inner e]) :
    (phrases r parts).Sublist (exposing parts [.phrase r]) := by
  have hsame : (phrases r parts).flatMap exposed = phrases r parts := by
    refine (List.flatMap_congr fun t ht => ?_).trans (List.flatMap_singleton' _)
    obtain ⟨-, inner, e, rfl⟩ := mem_phrases ht
    exact hr inner e
  rw [exposing, filter_kind_phrase, hsame]

theorem singleton_sublist {k : PartKind} (ht : t ∈ parts) (hk : t.kind = k)
    (hexposed : t.exposed = [t]) : [t].Sublist (exposing parts [k]) := by
  have hmem : t ∈ parts.filter fun u => u.kind ∈ [k] := List.mem_filter.mpr ⟨ht, by simp [hk]⟩
  exact List.sublist_flatten_of_mem (List.mem_map.mpr ⟨t, hmem, hexposed⟩)

/-- **Parts of a phrase and of lists in it** stand in a row if they are taken group by group in the order of
its pattern. -/
theorem IsSet.row_of_pieces {e : Extent} (h : (node r parts (some e)).IsSet)
    {groups : List (List PartKind)} {pieces : List (List Tree)}
    (hpieces : List.Forall₂ (fun ts ks => ts.Sublist (exposing parts ks)) pieces groups)
    (hgroups : groups.Pairwise fun as bs => (∀ k ∈ as, k ∉ bs) ∧ r.plainBody.puts as bs) :
    Row e.span.start e.span.stop (pieces.flatten.map stretch) := by
  have hrow : Row e.span.start e.span.stop ((groups.flatMap (exposing parts)).map stretch) := by
    have hselected := row_flatMap_exposed (fun t ht => ?_) (h.laid.select h.grown groups hgroups)
    · rwa [List.flatMap_assoc] at hselected
    · obtain ⟨ks, -, ht⟩ := List.mem_flatMap.mp ht
      exact (h.of_mem (List.mem_filter.mp ht).1).laid
  have hsub : pieces.flatten.Sublist (groups.flatMap (exposing parts)) := by
    clear hgroups hrow
    induction hpieces with
    | nil => exact List.nil_sublist _
    | cons hts _ ih => exact hts.append ih
  exact hrow.sublist (hsub.map stretch)

end Tree

open NodeTree

/-! ## Parts of declarations -/

theorem NodeTree.nested_leaf {t : Tree} (ht : t.Laid) {n : Node} (hspan : n.span? = t.span)
    (hname : n.isNamed = false) (s : Site) :
    (leaf s n).Nested ∧ (leaf s n).stretch = t.stretch := by
  have hstretch : n.span? = some t.stretch := hspan.trans ht.span_eq
  refine ⟨.mk hstretch ht.proper (by simp [hname]) ?_ fun p hp => absurd hp List.not_mem_nil, ?_⟩
  · rw [Node.nameSpan?_eq_none hname]
    exact .nil ht.proper.le
  · change n.span?.getD default = _
    rw [hstretch]
    rfl

theorem UsingDirective.span_of_tree {t : Tree} {u : UsingDirective} (h : ofTree? t = some u) :
    u.span = t.span := by
  unfold ofTree? at h
  split at h
  · simp only [Option.pure_def, Option.bind_eq_bind, Option.bind_eq_some_iff, Option.some.injEq] at h
    obtain ⟨_, -, rfl⟩ := h
    rfl
  · cases h

theorem TypeParameterSyntax.span_of_tree {t : Tree} {p : TypeParameterSyntax}
    (h : ofTree? t = some p) : p.span = t.span := by
  unfold ofTree? at h
  split at h
  · simp only [Option.pure_def, Option.bind_eq_bind, Option.bind_eq_some_iff, Option.some.injEq] at h
    obtain ⟨_, -, rfl⟩ := h
    rfl
  · cases h

theorem ConstraintClause.span_of_tree {t : Tree} {c : ConstraintClause} (h : ofTree? t = some c) :
    c.span = t.span := by
  unfold ofTree? at h
  split at h
  · simp only [Option.pure_def, Option.bind_eq_bind, Option.bind_eq_some_iff, Option.some.injEq] at h
    obtain ⟨_, -, _, -, rfl⟩ := h
    rfl
  · cases h

/-- A parameter covers its name. -/
theorem ParameterSyntax.nested_of_tree {source : List Char} {t : Tree} (ht : t.IsSet)
    {p : ParameterSyntax} (h : ofTree? source t = some p) (s : Site) :
    (leaf s (.parameter p)).Nested ∧ (leaf s (.parameter p)).stretch = t.stretch := by
  unfold ofTree? at h
  split at h
  · next parts extent =>
    simp only [Option.pure_def, Option.bind_eq_bind, Option.bind_eq_some_iff, Option.some.injEq] at h
    obtain ⟨name, hname, _, -, _, -, rfl⟩ := h
    obtain ⟨e, rfl, hrow⟩ := ht.exists_row
    have hsub : [Tree.leaf name].Sublist parts :=
      List.singleton_sublist.mpr (Tree.name?_eq_some hname).1
    refine ⟨.mk rfl ht.laid.proper (fun _ => rfl) ?_ fun p hp => absurd hp List.not_mem_nil, rfl⟩
    exact hrow.sublist (hsub.map Tree.stretch)
  · cases h

section

variable {source : List Char} {parts : List Tree} (h : ∀ t ∈ parts, t.IsSet) (s : Site)

include h

theorem UsingDirective.standFor {us : List UsingDirective}
    (hus : (Tree.phrases .usingDirective parts).mapM UsingDirective.ofTree? = some us) :
    StandFor (us.map fun u => leaf s (.directive u)) (Tree.phrases .usingDirective parts) :=
  .of_mapM (fun _ ht u hu => nested_leaf (n := .directive u) (h _ (Tree.mem_phrases ht).1).laid
    (UsingDirective.span_of_tree hu) rfl s) hus

theorem TypeParameterSyntax.standFor {ps : List TypeParameterSyntax}
    (hps : TypeParameterSyntax.among? parts = some ps) :
    StandFor (ps.map fun p => leaf s (.typeParameter p)) (Tree.partsOf .typeParameterList parts) :=
  .of_mapM (fun _ ht p hp => nested_leaf (n := .typeParameter p) (Tree.IsSet.of_partsOf h _ ht).laid
    (TypeParameterSyntax.span_of_tree hp) rfl s) hps

theorem ConstraintClause.standFor {cs : List ConstraintClause}
    (hcs : ConstraintClause.among? parts = some cs) :
    StandFor (cs.map fun c => leaf s (.constraints c)) (Tree.phrases .constraintClause parts) :=
  .of_mapM (fun _ ht c hc => nested_leaf (n := .constraints c) (h _ (Tree.mem_phrases ht).1).laid
    (ConstraintClause.span_of_tree hc) rfl s) hcs

theorem ParameterSyntax.standFor {ps : List ParameterSyntax}
    (hps : ParameterSyntax.among? source parts = some ps) :
    StandFor (ps.map fun p => leaf s (.parameter p)) (Tree.partsOf .parameterList parts) :=
  .of_mapM (fun _ ht _ hp => ParameterSyntax.nested_of_tree (Tree.IsSet.of_partsOf h _ ht) hp s) hps

end

/-- A method covers its name and what it holds, in this order. -/
theorem MethodDeclaration.row_of_parts {source : List Char} {around : Surroundings}
    {parts : List Tree} {e : Extent} (h : (Tree.node .methodDeclaration parts (some e)).IsSet)
    {m : MethodDeclaration} (hm : ofParts? source around parts = some m) (s : Site) :
    Row e.span.start e.span.stop (m.nameSpan.toList ++ (m.nodeTree s).parts.map NodeTree.stretch) ∧
      (∀ p ∈ (m.nodeTree s).parts, p.Nested) ∧ m.nameSpan.isSome = true ∧ m.span = around.span := by
  have hparts : ∀ t ∈ parts, t.IsSet := fun t ht => h.of_mem ht
  unfold ofParts? at hm
  simp only [Option.pure_def, Option.bind_eq_bind, Option.bind_eq_some_iff, Option.some.injEq] at hm
  obtain ⟨name, hname, returnType, -, ps, hps, tps, htps, cs, hcs, rfl⟩ := hm
  have hstand := ((TypeParameterSyntax.standFor hparts s htps).append
    (ParameterSyntax.standFor hparts s hps)).append (ConstraintClause.standFor hparts s hcs)
  obtain ⟨hmem, inner, extent, rfl⟩ := Tree.phrase?_eq_some hname
  have hnameSpan := (hparts _ hmem).laid.span_eq
  refine ⟨?_, hstand.nested, by rw [hnameSpan]; rfl, rfl⟩
  have hrow := h.row_of_pieces (.cons (Tree.singleton_sublist (k := .phrase .memberName) hmem rfl rfl)
    (.cons (Tree.partsOf_sublist (r := .typeParameterList) fun _ _ => rfl)
      (.cons (Tree.partsOf_sublist (r := .parameterList) fun _ _ => rfl)
        (.cons (Tree.phrases_sublist (r := .constraintClause) fun _ _ => rfl) .nil)))) (by decide)
  simp only [nodeTree, NodeTree.parts, hstand.stretch, hnameSpan, Option.toList_some]
  simpa using hrow

/-- The rules of type declarations. -/
def Rule.typeDeclarations : List Rule :=
  [.classDeclaration, .structDeclaration, .interfaceDeclaration, .recordDeclaration,
    .enumDeclaration, .delegateDeclaration]

theorem TypeForm.mem_of_parts {source : List Char} {parts : List Tree} {r : Rule} {form : TypeForm}
    (h : ofParts? source parts r = some form) : r ∈ Rule.typeDeclarations := by
  unfold ofParts? at h
  split at h <;> first | cases h; done | decide

theorem Member.ofBody?_eq (source : List Char) (parts : List Tree) :
    Member.ofBody? source parts = Member.ofTrees? source (Tree.partsOf .classBody parts) := by
  induction parts with
  | nil => rfl
  | cons t ts ih =>
    have hskip (ht : t.isPhrase .classBody = false) :
        Tree.partsOf .classBody (t :: ts) = Tree.partsOf .classBody ts := by
      simp only [Tree.partsOf, Tree.phrase?, List.find?_cons, ht]
    unfold Member.ofBody?
    split
    · next hnil => cases hnil
    · next hcons => cases hcons; rfl
    · next hnot hcons =>
      cases hcons
      have ht : t.isPhrase .classBody = false := by
        cases t with
        | leaf => rfl
        | node r inner e => exact beq_false_of_ne fun hr => hnot inner e (by rw [hr])
      rw [ih, hskip ht]

/-- A type declaration covers its name and what it holds, in this order. -/
theorem TypeHead.row_of_parts {around : Surroundings} {form : TypeForm}
    {r : Rule} (hr : r ∈ Rule.typeDeclarations) {parts : List Tree} {e : Extent}
    (h : (Tree.node r parts (some e)).IsSet) {head : TypeHead}
    (hhead : ofParts? around form parts = some head) {s : Site} {i : Nat} {members : List Member}
    (hmembers : StandFor (Member.nodeTrees (s.inType i head) 0 members)
      (Tree.partsOf .classBody parts)) :
    Row e.span.start e.span.stop (head.nameSpan.toList ++
        ((Member.type head members).nodeTree s i).parts.map NodeTree.stretch) ∧
      (∀ p ∈ ((Member.type head members).nodeTree s i).parts, p.Nested) ∧
      head.nameSpan.isSome = true ∧ head.span = around.span := by
  have hparts : ∀ t ∈ parts, t.IsSet := fun t ht => h.of_mem ht
  unfold ofParts? at hhead
  simp only [Option.pure_def, Option.bind_eq_bind, Option.bind_eq_some_iff, Option.some.injEq] at hhead
  obtain ⟨name, hname, tps, htps, bases, -, cs, hcs, hhead⟩ := hhead
  have hfields : head.typeParameters = tps ∧ head.constraints = cs ∧
      head.nameSpan = some name.extent.span ∧ head.span = around.span := by
    rw [← hhead]
    exact ⟨rfl, rfl, rfl, rfl⟩
  obtain ⟨rfl, rfl, hnameSpan, hspan⟩ := hfields
  have hstand := ((TypeParameterSyntax.standFor hparts (s.inType i head) htps).append
    (ConstraintClause.standFor hparts (s.inType i head) hcs)).append hmembers
  refine ⟨?_, hstand.nested, by rw [hnameSpan]; rfl, hspan⟩
  obtain ⟨hmem, hterminal⟩ := Tree.name?_eq_some hname
  have hputs : [[PartKind.token .name], [.phrase .typeParameterList], [.phrase .constraintClause],
      [.phrase .classBody]].Pairwise
        fun as bs => (∀ k ∈ as, k ∉ bs) ∧ r.plainBody.puts as bs := by
    clear h hmembers
    revert r
    decide
  have hrow := h.row_of_pieces (.cons (Tree.singleton_sublist (k := .token .name) hmem
    (by rw [Tree.kind, hterminal]) rfl) (.cons (Tree.partsOf_sublist (r := .typeParameterList)
      fun _ _ => rfl) (.cons (Tree.phrases_sublist (r := .constraintClause) fun _ _ => rfl)
        (.cons (Tree.partsOf_sublist (r := .classBody) fun _ _ => rfl) .nil)))) hputs
  have hstretch : (Tree.leaf name).stretch = name.extent.span := rfl
  simp only [Member.nodeTree, NodeTree.parts, hstand.stretch, hnameSpan, Option.toList_some]
  simpa [hstretch] using hrow

/-! ## Members -/

section

variable {source : List Char}

/-- What is known of the members whose trees are smaller. -/
def Member.NestedBelow (source : List Char) (size : Nat) : Prop :=
  ∀ t : Tree, sizeOf t < size → t.IsSet → ∀ m, Member.ofTree? source t = some m → ∀ s i,
    (m.nodeTree s i).Nested ∧ (m.nodeTree s i).stretch = t.stretch

theorem Member.standFor_of_trees {size : Nat} (ih : Member.NestedBelow source size) {ts : List Tree}
    (hsize : sizeOf ts ≤ size) (h : ∀ t ∈ ts, t.IsSet) {ms : List Member}
    (hms : Member.ofTrees? source ts = some ms) (s : Site) (i : Nat) :
    StandFor (Member.nodeTrees s i ms) ts := by
  induction ts generalizing ms i with
  | nil =>
    simp only [Member.ofTrees?, Option.some.injEq] at hms
    subst hms
    exact .nil
  | cons t ts iht =>
    simp only [Member.ofTrees?, Option.pure_def, Option.bind_eq_bind, Option.bind_eq_some_iff,
      Option.some.injEq] at hms
    obtain ⟨m, hm, ms, hms, rfl⟩ := hms
    simp only [List.cons.sizeOf_spec] at hsize
    obtain ⟨hnested, hstretch⟩ := ih t (by omega) (h t List.mem_cons_self) m hm s i
    exact .cons hnested hstretch
      (iht (by omega) (fun t ht => h t (List.mem_cons_of_mem _ ht)) hms (i + 1))

theorem OtherMember.span_of_parts {around : Surroundings} {kind : MemberKind} {parts : List Tree}
    {o : OtherMember} (h : ofParts? around kind parts = some o) : o.span = around.span := by
  simp only [ofParts?, Option.pure_def, Option.bind_eq_bind, Option.bind_eq_some_iff,
    Option.some.injEq] at h
  obtain ⟨_, -, rfl⟩ := h
  rfl

theorem Member.nested_of_parts {size : Nat} (ih : Member.NestedBelow source size)
    {around : Surroundings} {outer : Span} (hspan : around.span = some outer)
    (hproper : outer.start < outer.stop) {ts : List Tree} (hsize : sizeOf ts ≤ size)
    (h : ∀ t ∈ ts, t.IsSet) (hrow : Row outer.start outer.stop (ts.map Tree.stretch)) {m : Member}
    (hm : Member.ofParts? source around ts = some m) (s : Site) (i : Nat) :
    (m.nodeTree s i).Nested ∧ (m.nodeTree s i).stretch = outer := by
  induction ts with
  | nil => simp [Member.ofParts?] at hm
  | cons t ts iht =>
    have hrest : Member.ofParts? source around ts = some m →
        (m.nodeTree s i).Nested ∧ (m.nodeTree s i).stretch = outer :=
      iht (by simp only [List.cons.sizeOf_spec] at hsize; omega)
        (fun t ht => h t (List.mem_cons_of_mem _ ht)) (hrow.sublist (List.sublist_cons_self _ _))
    have ht := h t List.mem_cons_self
    cases t with
    | leaf => exact hrest hm
    | node r parts extent =>
      obtain ⟨e, rfl, -⟩ := ht.exists_row
      obtain ⟨hstart, -, hstop⟩ := hrow.bounds (List.mem_map_of_mem List.mem_cons_self)
      simp only [Member.ofParts?] at hm
      split_ifs at hm with hbefore hmethod
      · exact hrest hm
      · simp only [Option.pure_def, Option.bind_eq_bind, Option.bind_eq_some_iff,
          Option.some.injEq] at hm
        obtain ⟨d, hd, rfl⟩ := hm
        subst hmethod
        obtain ⟨hinner, hnested, hname, hd⟩ := MethodDeclaration.row_of_parts ht hd s
        have hd := hd.trans hspan
        exact ⟨.mk hd hproper (fun _ => hname) (hinner.widen hstart hstop) hnested,
          congrArg (Option.getD · _) hd⟩
      · split at hm
        · simp only [Option.pure_def, Option.bind_eq_bind, Option.bind_eq_some_iff,
            Option.some.injEq] at hm
          obtain ⟨o, ho, rfl⟩ := hm
          have hd := (OtherMember.span_of_parts ho).trans hspan
          exact ⟨.mk hd hproper (fun h => by cases h) (.nil hproper.le)
            fun p hp => absurd hp List.not_mem_nil, congrArg (Option.getD · _) hd⟩
        · simp only [Option.pure_def, Option.bind_eq_bind, Option.bind_eq_some_iff,
            Option.some.injEq] at hm
          obtain ⟨form, hform, head, hhead, members, hmembers, rfl⟩ := hm
          rw [Member.ofBody?_eq] at hmembers
          have hstand : StandFor (Member.nodeTrees (s.inType i head) 0 members)
              (Tree.partsOf .classBody parts) := by
            refine Member.standFor_of_trees ih ?_ (Tree.IsSet.of_partsOf fun t hmem => ht.of_mem hmem)
              hmembers _ 0
            have hle := Tree.sizeOf_partsOf .classBody parts
            simp only [List.cons.sizeOf_spec, Tree.node.sizeOf_spec] at hsize
            omega
          obtain ⟨hinner, hnested, hname, hd⟩ :=
            TypeHead.row_of_parts (TypeForm.mem_of_parts hform) ht hhead hstand
          have hd := hd.trans hspan
          exact ⟨.mk hd hproper (fun _ => hname) (hinner.widen hstart hstop) hnested,
            congrArg (Option.getD · _) hd⟩

theorem Surroundings.span_of_parts {parts : List Tree} {extent : Option Extent}
    {around : Surroundings} (h : among? source parts extent = some around) :
    around.span = extent.map Extent.span := by
  simp only [among?, Option.pure_def, Option.bind_eq_bind, Option.bind_eq_some_iff,
    Option.some.injEq] at h
  obtain ⟨_, -, rfl⟩ := h
  rfl

/-- **A member covers what it holds**, and stands for its tree. -/
theorem Member.nested_of_tree {t : Tree} (h : t.IsSet) {m : Member}
    (hm : Member.ofTree? source t = some m) (s : Site) (i : Nat) :
    (m.nodeTree s i).Nested ∧ (m.nodeTree s i).stretch = t.stretch := by
  have hbelow : ∀ size, Member.NestedBelow source size := by
    intro size
    induction size with
    | zero => exact fun t ht => absurd ht (Nat.not_lt_zero _)
    | succ size ih =>
      intro t hsize ht m hm s i
      have hmember {r : Rule} {parts : List Tree} {extent : Option Extent}
          (htree : t = .node r parts extent) (hbind : ((Surroundings.among? source parts extent).bind
            fun around => Member.ofParts? source around parts) = some m) :
          (m.nodeTree s i).Nested ∧ (m.nodeTree s i).stretch = t.stretch := by
        subst htree
        obtain ⟨around, haround, hparts⟩ := Option.bind_eq_some_iff.mp hbind
        obtain ⟨e, rfl, hrow⟩ := ht.exists_row
        refine Member.nested_of_parts ih (Surroundings.span_of_parts haround) ht.laid.proper ?_
          (fun t hmem => ht.of_mem hmem) hrow hparts s i
        simp only [Tree.node.sizeOf_spec] at hsize
        omega
      unfold Member.ofTree? at hm
      split at hm
      · exact hmember rfl hm
      · exact hmember rfl hm
      · cases hm
  exact hbelow (sizeOf t + 1) t (Nat.lt_succ_self _) h m hm s i

/-! ## Namespaces and sources -/

/-- The kinds of parts that are members where they stand in a namespace or source. -/
def memberKinds : List PartKind :=
  [.phrase .namespaceDeclaration, .phrase .fileScopedNamespace, .phrase .typeDeclaration,
    .phrase .member]

theorem Member.kind_of_tree {t : Tree} {m : Member} (h : Member.ofTree? source t = some m) :
    t.kind ∈ memberKinds := by
  unfold Member.ofTree? at h
  split at h
  · simp [Tree.kind, memberKinds]
  · simp [Tree.kind, memberKinds]
  · cases h

theorem NamespaceMember.kind_of_tree {t : Tree} {m : NamespaceMember}
    (h : NamespaceMember.ofTree? source t = some m) : t.kind ∈ memberKinds := by
  unfold NamespaceMember.ofTree? at h
  split at h
  · simp [Tree.kind, memberKinds]
  · simp [Tree.kind, memberKinds]
  · simp only [Option.pure_def, Option.bind_eq_bind, Option.bind_eq_some_iff] at h
    obtain ⟨d, hd, -⟩ := h
    unfold TypeDeclaration.ofTree? at hd
    split at hd
    · next hmember => exact Member.kind_of_tree hmember
    · cases hd

/-- What is known of the members of namespaces whose trees are smaller. -/
def NamespaceMember.NestedBelow (source : List Char) (size : Nat) : Prop :=
  ∀ t : Tree, sizeOf t < size → t.IsSet → ∀ m, NamespaceMember.ofTree? source t = some m → ∀ s i,
    (m.nodeTree s i).Nested ∧ (m.nodeTree s i).stretch = t.stretch

theorem NamespaceMember.standFor_of_parts {size : Nat} (ih : NamespaceMember.NestedBelow source size)
    {ts : List Tree} (hsize : sizeOf ts ≤ size) (h : ∀ t ∈ ts, t.IsSet) {ms : List NamespaceMember}
    (hms : NamespaceMember.ofParts? source ts = some ms) (s : Site) (i : Nat) :
    StandFor (NamespaceMember.nodeTrees s i ms) (ts.filter fun t => t.kind ∈ memberKinds) := by
  induction ts generalizing ms i with
  | nil =>
    simp only [NamespaceMember.ofParts?, Option.some.injEq] at hms
    subst hms
    exact .nil
  | cons t ts iht =>
    simp only [List.cons.sizeOf_spec] at hsize
    have hrest : ∀ {ms i}, NamespaceMember.ofParts? source ts = some ms →
        StandFor (NamespaceMember.nodeTrees s i ms) (ts.filter fun t => t.kind ∈ memberKinds) :=
      fun hms => iht (by omega) (fun t ht => h t (List.mem_cons_of_mem _ ht)) hms _
    have hskip (ht : t.kind ∉ memberKinds) (hms : NamespaceMember.ofParts? source ts = some ms) :
        StandFor (NamespaceMember.nodeTrees s i ms)
          ((t :: ts).filter fun t => t.kind ∈ memberKinds) := by
      rw [List.filter_cons_of_neg (by simpa using ht)]
      exact hrest hms
    unfold NamespaceMember.ofParts? at hms
    split at hms
    · next hnil => cases hnil
    · next hcons => cases hcons; exact hskip (by simp [Tree.kind, memberKinds]) hms
    · next hcons => cases hcons; exact hskip (by simp [Tree.kind, memberKinds]) hms
    · next hcons => cases hcons; exact hskip (by simp [Tree.kind, memberKinds]) hms
    · next hcons =>
      cases hcons
      simp only [Option.pure_def, Option.bind_eq_bind, Option.bind_eq_some_iff,
        Option.some.injEq] at hms
      obtain ⟨m, hm, ms, hms, rfl⟩ := hms
      obtain ⟨hnested, hstretch⟩ := ih t (by omega) (h t List.mem_cons_self) m hm s i
      rw [List.filter_cons_of_pos (by simpa using NamespaceMember.kind_of_tree hm)]
      exact .cons hnested hstretch (hrest hms)

theorem Tree.IsSet.row_of_members {r : Rule}
    (hr : r ∈ [Rule.source, .namespaceDeclaration, .fileScopedNamespace]) {parts : List Tree}
    {e : Extent} (h : (Tree.node r parts (some e)).IsSet) :
    Row e.span.start e.span.stop ((Tree.phrases .usingDirective parts ++
      parts.filter fun t => t.kind ∈ memberKinds).map Tree.stretch) := by
  have hputs : [[PartKind.phrase .usingDirective], memberKinds].Pairwise
      fun as bs => (∀ k ∈ as, k ∉ bs) ∧ r.plainBody.puts as bs := by
    clear h
    revert r
    decide
  have hrow := h.laid.select h.grown _ hputs
  rwa [List.flatMap_cons, List.flatMap_cons, List.flatMap_nil, List.append_nil,
    Tree.filter_kind_phrase] at hrow

theorem NamespaceHead.fields_of_parts {isFileScoped : Bool} {parts : List Tree}
    {extent : Option Extent} {head : NamespaceHead}
    (h : NamespaceHead.ofParts? isFileScoped parts extent = some head) :
    (Tree.phrases .usingDirective parts).mapM UsingDirective.ofTree? = some head.usings ∧
      head.span = extent.map Extent.span := by
  simp only [ofParts?, Option.pure_def, Option.bind_eq_bind, Option.bind_eq_some_iff,
    Option.some.injEq] at h
  obtain ⟨_, -, us, hus, rfl⟩ := h
  exact ⟨hus, rfl⟩

/-- **A member of a namespace covers what it holds**, and stands for its tree. -/
theorem NamespaceMember.nested_of_tree {t : Tree} (h : t.IsSet) {m : NamespaceMember}
    (hm : NamespaceMember.ofTree? source t = some m) (s : Site) (i : Nat) :
    (m.nodeTree s i).Nested ∧ (m.nodeTree s i).stretch = t.stretch := by
  have hbelow : ∀ size, NamespaceMember.NestedBelow source size := by
    intro size
    induction size with
    | zero => exact fun t ht => absurd ht (Nat.not_lt_zero _)
    | succ size ih =>
      intro t hsize ht m hm s i
      have hspace {r : Rule} {isFileScoped : Bool} {parts : List Tree} {extent : Option Extent}
          {head : NamespaceHead} {ms : List NamespaceMember} (htree : t = .node r parts extent)
          (hr : r ∈ [Rule.source, .namespaceDeclaration, .fileScopedNamespace])
          (hhead : NamespaceHead.ofParts? isFileScoped parts extent = some head)
          (hms : NamespaceMember.ofParts? source parts = some ms) :
          ((NamespaceMember.space head ms).nodeTree s i).Nested ∧
            ((NamespaceMember.space head ms).nodeTree s i).stretch = t.stretch := by
        subst htree
        have hparts : ∀ t ∈ parts, t.IsSet := fun t hmem => ht.of_mem hmem
        obtain ⟨e, rfl, -⟩ := ht.exists_row
        obtain ⟨husings, hspan⟩ := NamespaceHead.fields_of_parts hhead
        have hstand := (UsingDirective.standFor hparts (s.inNamespace i head) husings).append
          (NamespaceMember.standFor_of_parts ih (by
            simp only [Tree.node.sizeOf_spec] at hsize; omega) hparts hms (s.inNamespace i head) 0)
        refine ⟨.mk hspan ht.laid.proper (fun h => by cases h) ?_ hstand.nested,
          congrArg (Option.getD · _) hspan⟩
        have hrow := ht.row_of_members hr
        rwa [← hstand.stretch] at hrow
      unfold NamespaceMember.ofTree? at hm
      split at hm
      · simp only [Option.pure_def, Option.bind_eq_bind, Option.bind_eq_some_iff,
          Option.some.injEq] at hm
        obtain ⟨head, hhead, ms, hms, rfl⟩ := hm
        exact hspace rfl (by decide) hhead hms
      · simp only [Option.pure_def, Option.bind_eq_bind, Option.bind_eq_some_iff,
          Option.some.injEq] at hm
        obtain ⟨head, hhead, ms, hms, rfl⟩ := hm
        exact hspace rfl (by decide) hhead hms
      · simp only [Option.pure_def, Option.bind_eq_bind, Option.bind_eq_some_iff,
          Option.some.injEq] at hm
        obtain ⟨d, hd, rfl⟩ := hm
        unfold TypeDeclaration.ofTree? at hd
        split at hd
        · next hmember =>
          cases hd
          exact Member.nested_of_tree ht hmember s i
        · cases hd
  exact hbelow (sizeOf t + 1) t (Nat.lt_succ_self _) h m hm s i

end

/-- **The nodes of a source are nested**, unless it declares nothing. -/
theorem CompilationUnit.nested_of_parse {path source : String} {unit : CompilationUnit}
    (h : CompilationUnit.parse path source = .ok unit) (tree : Nat) :
    (unit.nodeTree tree).Nested ∨ unit.span = none ∧ (unit.nodeTree tree).parts = [] := by
  obtain ⟨t, ht, hunit⟩ := CompilationUnit.parse_eq_ok.mp h
  unfold CompilationUnit.ofTree? at hunit
  split at hunit
  · next parts extent =>
    simp only [Option.pure_def, Option.bind_eq_bind, Option.bind_eq_some_iff,
      Option.some.injEq] at hunit
    obtain ⟨us, hus, ms, hms, hunit⟩ := hunit
    have hfields : unit.usings = us ∧ unit.members = ms ∧ unit.span = extent.map Extent.span := by
      rw [← hunit]
      exact ⟨rfl, rfl, rfl⟩
    obtain ⟨rfl, rfl, hspan⟩ := hfields
    rcases Tree.laid_of_parse ht with hlaid | heq
    · have hset : (Tree.node .source parts extent).IsSet :=
        ⟨hlaid, Tree.grown_of_parse (fun _ _ => trivial) ht⟩
      have hparts : ∀ t ∈ parts, t.IsSet := fun t hmem => hset.of_mem hmem
      obtain ⟨e, rfl, -⟩ := hset.exists_row
      have hstand := (UsingDirective.standFor hparts (.ofUnit tree unit) hus).append
        (NamespaceMember.standFor_of_parts (fun t _ ht m hm => NamespaceMember.nested_of_tree ht hm)
          (Nat.le_refl _) hparts hms (.ofUnit tree unit) 0)
      refine Or.inl (.mk hspan hset.laid.proper (fun h => by cases h) ?_ hstand.nested)
      have hrow := hset.row_of_members (by decide)
      rwa [← hstand.stretch] at hrow
    · cases heq
      have husings : unit.usings = [] := by simpa [Tree.phrases, eq_comm] using hus
      have hmembers : unit.members = [] := by simpa [NamespaceMember.ofParts?, eq_comm] using hms
      refine Or.inr ⟨hspan, ?_⟩
      rw [CompilationUnit.nodeTree, husings, hmembers]
      rfl
  · cases hunit

/-! ## Candidates -/

namespace NodeTree

/-- Where the candidates among some nodes begin. -/
def starts (ns : List NodeTree) : List Place :=
  (ns.filter fun n => n.node.isCandidate).map fun n => n.stretch.start

theorem starts_cons_of_pos {n : NodeTree} (h : n.node.isCandidate = true) (ns : List NodeTree) :
    starts (n :: ns) = [n.stretch.start] ++ starts ns := by
  simp [starts, h]

theorem starts_cons_of_neg {n : NodeTree} (h : ¬n.node.isCandidate = true) (ns : List NodeTree) :
    starts (n :: ns) = starts ns := by
  simp [starts, h]

theorem starts_append (ns ns' : List NodeTree) : starts (ns ++ ns') = starts ns ++ starts ns' := by
  simp only [starts, List.filter_append, List.map_append]

/-- Places that increase between two places. -/
structure Increase (lo hi : Place) (places : List Place) : Prop where
  order : places.Pairwise (· < ·)
  bounds : ∀ p ∈ places, lo ≤ p ∧ p < hi

theorem Increase.append {lo mid hi : Place} {xs ys : List Place} (h : Increase lo mid xs)
    (h' : Increase mid hi ys) (hlo : lo ≤ mid) (hhi : mid ≤ hi) : Increase lo hi (xs ++ ys) where
  order := List.pairwise_append.mpr ⟨h.order, h'.order, fun p hp q hq =>
    (h.bounds p hp).2.trans_le (h'.bounds q hq).1⟩
  bounds p hp := (List.mem_append.mp hp).elim
    (fun hp => ⟨(h.bounds p hp).1, (h.bounds p hp).2.trans_le hhi⟩)
    fun hp => ⟨hlo.trans (h'.bounds p hp).1, (h'.bounds p hp).2⟩

theorem increase_of_row {ns : List NodeTree} {lo hi : Place} (hrow : Row lo hi (ns.map stretch))
    (h : ∀ n ∈ ns, Increase n.stretch.start n.stretch.stop (starts n.preorder)) :
    Increase lo hi (starts (preorderAll ns)) := by
  induction ns generalizing lo with
  | nil => exact ⟨.nil, fun p hp => absurd hp List.not_mem_nil⟩
  | cons n ns ih =>
    rw [List.map_cons] at hrow
    cases hrow with
    | cons hstart hproper hrest =>
      obtain ⟨hn, hns⟩ := List.forall_mem_cons.mp h
      have hwide : Increase lo n.stretch.stop (starts n.preorder) :=
        ⟨hn.order, fun p hp => ⟨hstart.trans (hn.bounds p hp).1, (hn.bounds p hp).2⟩⟩
      rw [preorderAll, starts_append]
      exact hwide.append (ih hrest hns) (hstart.trans hproper.le) hrest.le

/-- **The candidates in a node increase**: those that it holds begin behind its name. -/
theorem Nested.increase {n : NodeTree} (h : n.Nested) :
    Increase n.stretch.start n.stretch.stop (starts n.preorder) := by
  induction h with
  | @mk s n parts span hspan hproper hnamed hrow _ ih =>
    have hstretch : (NodeTree.mk s n parts).stretch = span := congrArg (Option.getD · _) hspan
    obtain ⟨mid, hname, hparts⟩ := hrow.split
    have hinner := increase_of_row hparts ih
    rw [hstretch, preorder]
    by_cases hcandidate : n.isCandidate = true
    · obtain ⟨name, hname?⟩ := Option.isSome_iff_exists.mp
        (hnamed (Node.isNamed_of_isCandidate hcandidate))
      rw [hname?, Option.toList_some] at hname
      cases hname with
      | cons hstart hproper' hrest =>
        have hbefore : span.start < mid := hstart.trans_lt (hproper'.trans_le hrest.le)
        have hhead : Increase span.start mid [span.start] :=
          ⟨List.pairwise_singleton .., fun p hp => by
            rw [List.mem_singleton.mp hp]
            exact ⟨le_refl _, hbefore⟩⟩
        rw [starts_cons_of_pos (n := .mk s n parts) hcandidate, hstretch]
        exact hhead.append hinner hbefore.le hparts.le
    · rw [starts_cons_of_neg (n := .mk s n parts) hcandidate]
      exact ⟨hinner.order, fun p hp => ⟨hname.le.trans (hinner.bounds p hp).1, (hinner.bounds p hp).2⟩⟩

theorem Nested.of_mem_preorder {n : NodeTree} (h : n.Nested) : ∀ m ∈ n.preorder, m.Nested := by
  induction h with
  | mk hspan hproper hnamed hrow hparts ih =>
    intro m hm
    rcases List.mem_cons.mp hm with rfl | hm
    · exact .mk hspan hproper hnamed hrow hparts
    · rw [preorderAll_eq] at hm
      obtain ⟨p, hp, hm⟩ := List.mem_flatMap.mp hm
      exact ih p hp m hm

theorem preorder_of_parts {n : NodeTree} (h : n.parts = []) : n.preorder = [n] := by
  obtain ⟨s, node, parts⟩ := n
  cases h
  rfl

theorem spans_of_candidates (ns : List NodeTree) :
    (((ns.map placed).filterMap fun n => n.2.type?).filter fun t => t.head.canHost).map
        (fun t => t.head.span) =
      (ns.filter fun n => n.node.isCandidate).map fun n => n.node.span? := by
  induction ns with
  | nil => rfl
  | cons n ns ih =>
    obtain ⟨s, node, parts⟩ := n
    cases node with
    | type d =>
      by_cases hhost : d.head.canHost = true
      · simpa [placed, Node.type?, NodeTree.node, Node.isCandidate, hhost, Node.span?] using ih
      · simpa [placed, Node.type?, NodeTree.node, Node.isCandidate, hhost] using ih
    | _ => simpa [placed, Node.type?, NodeTree.node, Node.isCandidate] using ih

/-- The span covers what the node holds, which is in the order of the source, and its name. -/
structure Covered (n : NodeTree) (span : Span) : Prop where
  parts : ∀ p ∈ n.parts, ∃ inner, p.node.span? = some inner ∧ inner.start < inner.stop ∧
    inner.Within span
  order : n.parts.Pairwise fun p p' => p.stretch.Before p'.stretch
  name : n.node.isNamed = true → ∃ name, n.node.nameSpan? = some name ∧ name.Within span

theorem Nested.span_eq {n : NodeTree} (h : n.Nested) : n.node.span? = some n.stretch := by
  cases h with
  | mk hspan _ _ _ _ => exact hspan.trans (congrArg (fun s => some (Option.getD s _)) hspan).symm

theorem Nested.covered {n : NodeTree} (h : n.Nested) : n.Covered n.stretch := by
  cases h with
  | @mk s n parts span hspan _ hnamed hrow hparts =>
    have hstretch : (NodeTree.mk s n parts).stretch = span := congrArg (Option.getD · _) hspan
    rw [hstretch]
    refine ⟨fun p hp => ?_, ?_, fun hname => ?_⟩
    · obtain ⟨hstart, hproper, hstop⟩ :=
        hrow.bounds (List.mem_append_right _ (List.mem_map_of_mem hp))
      exact ⟨p.stretch, (hparts p hp).span_eq, hproper, hstart, hstop⟩
    · exact List.pairwise_map.mp (List.pairwise_append.mp hrow.pairwise).2.1
    · obtain ⟨name, heq⟩ := Option.isSome_iff_exists.mp (hnamed hname)
      obtain ⟨hstart, -, hstop⟩ := hrow.bounds (s := name) (List.mem_append_left _ (by simp [heq]))
      exact ⟨name, heq, hstart, hstop⟩

end NodeTree

namespace CompilationUnit

/-- **Spans nest, and candidates come in the order of the source.** A walk comes to all nodes of a source,
each before what it holds. A node that has a span covers its name and what it holds, which is in the order
of the source, and only a source that holds nothing has no span. The candidates begin one behind the other,
and are the classes, structs and records of the source, each of them once. -/
theorem source_order {path source : String} {unit : CompilationUnit}
    (h : parse path source = .ok unit) (tree : Nat) :
    (unit.nodeTree tree).preorder.map placed = unit.walk tree ∧
    (∀ n ∈ (unit.nodeTree tree).preorder, ∀ span, n.node.span? = some span → n.Covered span) ∧
    (∀ n ∈ (unit.nodeTree tree).preorder, n.node.span? = none → (unit.nodeTree tree).parts = []) ∧
    (∃ spans : List Span, (unit.candidates tree).map (fun t => t.head.span) = spans.map some ∧
      spans.Pairwise fun s s' => s.start < s'.start) ∧
    (∀ t ∈ unit.candidates tree, ∃ way, t.id = ⟨tree, way⟩ ∧
      unit.declarationAt? way = some t.declaration ∧ t.head.canHost = true) ∧
    ∀ way d, unit.declarationAt? way = some d → d.head.canHost = true →
      ∃ t, (unit.candidates tree).filter (fun t => t.id = ⟨tree, way⟩) = [t] ∧ t.declaration = d := by
  have hwalk := unit.preorder_nodeTree tree
  have hcandidates : (unit.candidates tree).map (fun t => t.head.span) =
      ((unit.nodeTree tree).preorder.filter fun n => n.node.isCandidate).map
        fun n => n.node.span? := by
    rw [candidates, typeSites, ← hwalk, spans_of_candidates]
  refine ⟨hwalk, ?_, ?_, ?_, unit.filter_candidates tree⟩
  · intro n hn span hspan
    rcases nested_of_parse h tree with hnested | ⟨hnone, hempty⟩
    · have hn := hnested.of_mem_preorder n hn
      have heq : n.stretch = span := Option.some.inj (hn.span_eq.symm.trans hspan)
      exact heq ▸ hn.covered
    · rw [preorder_of_parts hempty, List.mem_singleton] at hn
      rw [hn] at hspan
      cases hnone.symm.trans hspan
  · intro n hn hspan
    rcases nested_of_parse h tree with hnested | ⟨-, hempty⟩
    · rw [(hnested.of_mem_preorder n hn).span_eq] at hspan
      cases hspan
    · exact hempty
  · rw [hcandidates]
    rcases nested_of_parse h tree with hnested | ⟨-, hempty⟩
    · refine ⟨_, ?_, List.pairwise_map.mpr (List.pairwise_map.mp hnested.increase.order)⟩
      rw [List.map_map]
      exact List.map_congr_left fun n hn =>
        (hnested.of_mem_preorder n (List.mem_filter.mp hn).1).span_eq
    · rw [preorder_of_parts hempty]
      exact ⟨[], rfl, .nil⟩

/-- Types in types, with modifiers and attributes, and a method among them. -/
def nestedTypesSource : String :=
  "using System;\nnamespace N \x7b\n [A] public class Outer<T> where T : class \x7b\n" ++
    "  partial record Inner \x7b \x7d enum E \x7b X \x7d\n  [B] void M<U>(int a, U b) \x7b \x7d \x7d\n" ++
    " struct S \x7b \x7d\n\x7d\n"

/-- Each of the thirteen nodes covers what it holds, and the declaration at the way `0, 0, 0` is the second
one of three candidates. -/
theorem source_order_nestedTypes : ∃ unit, parse "src0.cs" nestedTypesSource = .ok unit ∧
    (unit.walk 0).length = 13 ∧
    (∀ n ∈ (unit.nodeTree 0).preorder, ∃ span, n.node.span? = some span ∧ n.Covered span) ∧
    (unit.candidates 0).map (fun t => (t.head.name, t.head.span.map Span.line)) =
      [("Outer", some 3), ("Inner", some 4), ("S", some 6)] ∧
    (∃ spans : List Span, (unit.candidates 0).map (fun t => t.head.span) = spans.map some ∧
      spans.Pairwise fun s s' => s.start < s'.start) ∧
    ∃ t, (unit.candidates 0).filter (fun t => t.id = ⟨0, [0, 0, 0]⟩) = [t] ∧
      t.head.name = "Inner" := by
  have hprogram : ((parse "src0.cs" nestedTypesSource).toOption >>= some).any
      (fun (unit : CompilationUnit) => decide ((unit.walk 0).length = 13 ∧
        (unit.candidates 0).map (fun t => (t.head.name, t.head.span.map Span.line)) =
          [("Outer", some 3), ("Inner", some 4), ("S", some 6)] ∧
        (unit.declarationAt? [0, 0, 0]).map (fun d => (d.head.name, d.head.canHost)) =
          some ("Inner", true))) = true := by
    refine any_of_ofCharacters
      (toList_append_eq (toList_append_eq String.toList_ofList String.toList_ofList)
        String.toList_ofList) ?_
    decide +kernel
  obtain ⟨unit, hx, hfacts⟩ := (Option.any_eq_true _ _).mp hprogram
  obtain ⟨hlength, hcandidates, hway⟩ := of_decide_eq_true hfacts
  have hparse : parse "src0.cs" nestedTypesSource = .ok unit :=
    eq_ok_of_toOption (by simpa using hx)
  obtain ⟨hwalk, hcovered, hnone, horder, -, honce⟩ := source_order hparse 0
  obtain ⟨d, hd, hfields⟩ := Option.map_eq_some_iff.mp hway
  obtain ⟨hname, hhost⟩ := Prod.mk.inj hfields
  obtain ⟨t, ht, rfl⟩ := honce _ d hd hhost
  refine ⟨unit, hparse, hlength, fun n hn => ?_, hcandidates, horder, t, ht, hname⟩
  cases hspan? : n.node.span? with
  | some span => exact ⟨span, rfl, hcovered n hn span hspan?⟩
  | none =>
    rw [← hwalk, preorder_of_parts (hnone n hn hspan?)] at hlength
    cases hlength

end CompilationUnit

end Facade
