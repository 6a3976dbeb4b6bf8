import Mathlib.Tactic.Common
import Facade.Proofs.Grammar.Growth
import Facade.Syntax.OfTree

/-!
# Declarations as they can be written

What holds of the declarations of every source: names are names, words are words of the language, and
lists that cannot be empty are not.

* `TypeSyntax.IsWritten`: types that can be written;
* `CompilationUnit.IsWritten`: declarations that can be written, given what is known of the texts of
  default values;
* `Tree.Grown.leaf_mem`: the tokens that a phrase of a grown tree keeps;
* **`TypeSyntax.isWritten_of_tree`**: the type of a grown tree can be written.
-/

namespace Facade

/-- The text is a name. -/
def Named (n : String) : Prop := Scan.IsName n.toList

/-- The text is one or more names, divided by dots. -/
def Dotted (n : String) : Prop :=
  ∃ names, names ≠ [] ∧ (∀ m ∈ names, Named m) ∧ n = ".".intercalate names

/-- The words that name a type. -/
def predefinedWords : List String := ["bool", "byte", "sbyte", "char", "decimal", "double",
  "float", "int", "uint", "long", "ulong", "short", "ushort", "object", "string", "void"]

/-- The constraints that name no type. -/
def specialConstraints : List String := ["class", "class?", "struct", "new()", "default"]

/-- The words that stand before a parameter. -/
def parameterWords : List String := ["ref", "out", "in", "params", "this", "scoped", "readonly"]

/-- The words that declare a type with a body for members. -/
def bodyWords : List String := ["class", "struct", "interface", "record", "record struct"]

/-- A type that can be written. -/
inductive TypeSyntax.IsWritten : TypeSyntax → Prop
  | predefined {k} : k ∈ predefinedWords → IsWritten (.predefined k)
  | named {isGlobal parts} : parts ≠ [] → (∀ q ∈ parts, Named (NamePart.name q)) →
      (∀ q ∈ parts, ∀ a ∈ NamePart.arguments q, IsWritten a) → IsWritten (.named isGlobal parts)
  | array {e rank} : IsWritten e → 1 ≤ rank → IsWritten (.array e rank)
  | nullable {e} : IsWritten e → IsWritten (.nullable e)
  | pointer {e} : IsWritten e → IsWritten (.pointer e)
  | tuple {es} : 2 ≤ es.length → (∀ e ∈ es, IsWritten (Prod.fst e)) →
      (∀ e ∈ es, ∀ n ∈ e.2, Named n) → IsWritten (.tuple es)

/-- A constraint that can be written. -/
def ConstraintSyntax.IsWritten : ConstraintSyntax → Prop
  | .special text => text ∈ specialConstraints
  | .type t => t.IsWritten

/-- A constraint clause that can be written. -/
structure ConstraintClause.IsWritten (c : ConstraintClause) : Prop where
  typeParameter : Named c.typeParameter
  ne_nil : c.constraints ≠ []
  constraints : ∀ k ∈ c.constraints, k.IsWritten

/-- What a using directive brings into scope can be written. -/
def UsingTarget.IsWritten : UsingTarget → Prop
  | .space n | .membersOf n => Dotted n
  | .alias n t => Named n ∧ t.IsWritten

section

variable (P : String → Prop)

/-- A parameter that can be written; its default value satisfies `P`. -/
structure ParameterSyntax.IsWritten (p : ParameterSyntax) : Prop where
  name : Named p.name
  type : p.type.IsWritten
  modifiers : ∀ m ∈ p.modifiers, m ∈ parameterWords
  defaultText : ∀ d ∈ p.defaultText, P d

/-- A method that can be written. -/
structure MethodDeclaration.IsWritten (m : MethodDeclaration) : Prop where
  name : Dotted m.name
  returnType : m.returnType.IsWritten
  parameters : ∀ p ∈ m.parameters, p.IsWritten P
  typeParameters : ∀ p ∈ m.typeParameters, Named p.name
  constraints : ∀ c ∈ m.constraints, c.IsWritten

/-- A type declaration that can be written, but for its members. -/
structure TypeHead.IsWritten (h : TypeHead) : Prop where
  name : Named h.name
  typeParameters : ∀ p ∈ h.typeParameters, Named p.name
  baseTypes : ∀ t ∈ h.baseTypes, t.IsWritten

/-- A member that can be written. Of members that are neither methods nor types nothing is asked. -/
inductive Member.IsWritten : Member → Prop
  | type {head members} : TypeHead.IsWritten head → (∀ m ∈ members, IsWritten m) →
      IsWritten (.type head members)
  | method {m} : MethodDeclaration.IsWritten P m → IsWritten (.method m)
  | other {m} : IsWritten (.other m)

/-- A namespace that can be written, but for its members. -/
structure NamespaceHead.IsWritten (h : NamespaceHead) : Prop where
  name : Dotted h.name
  usings : ∀ u ∈ h.usings, u.target.IsWritten

/-- A member of a namespace that can be written. -/
inductive NamespaceMember.IsWritten : NamespaceMember → Prop
  | space {head members} : NamespaceHead.IsWritten head → (∀ m ∈ members, IsWritten m) →
      IsWritten (.space head members)
  | type {d} : Member.IsWritten P (.type d.head d.members) → IsWritten (.type d)

/-- Declarations of a source that can be written. -/
structure CompilationUnit.IsWritten (u : CompilationUnit) : Prop where
  usings : ∀ d ∈ u.usings, d.target.IsWritten
  members : ∀ m ∈ u.members, m.IsWritten P

end

/-! ## Trees of types -/

namespace Pattern

/-- The terminals that a pattern names. -/
def terminals : Pattern → List Terminal
  | token t => [t]
  | rule _ => []
  | seq p q | alt p q => p.terminals ++ q.terminals
  | opt p | plus _ p | resume _ _ p => p.terminals

theorem Spells.mem_terminals {p : Pattern} {parts : List Tree} (h : p.Spells parts) {t : Token}
    (ht : Tree.leaf t ∈ parts) : t.terminal ∈ p.terminals := by
  induction p generalizing parts with
  | token k =>
    obtain ⟨found, rfl, rfl⟩ := h
    simp only [List.mem_singleton, Tree.leaf.injEq] at ht
    simp [terminals, ht]
  | rule r =>
    obtain ⟨children, extent, rfl⟩ := h
    simp at ht
  | seq p q ihp ihq =>
    obtain ⟨before, behind, hp, hq, rfl⟩ := h
    rcases List.mem_append.mp ht with ht | ht
    · exact List.mem_append_left _ (ihp hp ht)
    · exact List.mem_append_right _ (ihq hq ht)
  | alt p q ihp ihq =>
    rcases h with h | h
    · exact List.mem_append_left _ (ihp h ht)
    · exact List.mem_append_right _ (ihq h ht)
  | opt p ih =>
    rcases h with rfl | h
    · cases ht
    · exact ih h ht
  | plus after p ih =>
    obtain ⟨items, -, hitems, rfl⟩ := h
    obtain ⟨item, hitem, ht⟩ := List.mem_flatten.mp ht
    exact ih (hitems item hitem) ht
  | resume r n p ih => cases h

end Pattern

namespace Tree

variable {good : Tree → Prop}

/-- The tokens that a phrase keeps are spelled, and those that its pattern names. -/
theorem Grown.leaf_mem {r : Rule} {children : List Tree} {extent : Option Extent} {t : Token}
    (h : (Tree.node r children extent).Grown good) (ht : Tree.leaf t ∈ children) :
    t.IsSpelled ∧ t.terminal ∈ r.plainBody.terminals ∧ isKept r (Tree.leaf t) = true := by
  cases h with
  | node hspells hparts _ =>
    obtain ⟨hmem, hkept⟩ := List.mem_filter.mp ht
    have hleaf := hparts _ hmem
    cases hleaf with
    | leaf hspelled => exact ⟨hspelled, hspells.mem_terminals hmem, hkept⟩

theorem Grown.of_mem {r : Rule} {children : List Tree} {extent : Option Extent} {t : Tree}
    (h : (Tree.node r children extent).Grown good) (ht : t ∈ children) : t.Grown good := by
  cases h with
  | node _ hparts _ => exact hparts t (List.mem_filter.mp ht).1

/-- The only tokens that a phrase keeps are names. -/
def keepsNames (r : Rule) : Bool :=
  !r.keepsTokens && r.plainBody.terminals.all fun t => !t.isNamed || t == .name

theorem Grown.named_leaf {r : Rule} {children : List Tree} {extent : Option Extent} {t : Token}
    (h : (Tree.node r children extent).Grown good) (hr : keepsNames r) (ht : Tree.leaf t ∈ children) :
    Named t.text := by
  obtain ⟨hspelled, hterminal, hkept⟩ := h.leaf_mem ht
  simp only [keepsNames, Bool.and_eq_true, List.all_eq_true, Bool.or_eq_true, Bool.not_eq_true',
    beq_iff_eq] at hr
  simp only [isKept, hr.1, Bool.or_false] at hkept
  refine hspelled.name ?_
  rcases hr.2 _ hterminal with hnot | hname
  · rw [hnot] at hkept; cases hkept
  · exact hname

theorem mem_phrases {r : Rule} {parts : List Tree} {t : Tree} (h : t ∈ phrases r parts) :
    t ∈ parts ∧ ∃ children extent, t = .node r children extent := by
  obtain ⟨hmem, hr⟩ := List.mem_filter.mp h
  cases t with
  | leaf => cases hr
  | node r' children extent =>
    simp only [isPhrase, beq_iff_eq] at hr
    exact ⟨hmem, children, extent, by rw [hr]⟩

theorem phrase?_eq_some {r : Rule} {parts : List Tree} {t : Tree}
    (h : phrase? r parts = some t) :
    t ∈ parts ∧ ∃ children extent, t = .node r children extent :=
  mem_phrases (List.mem_filter.mpr ⟨List.mem_of_find?_eq_some h, List.find?_some h⟩)

theorem name?_eq_some {parts : List Tree} {n : Token} (h : name? parts = some n) :
    Tree.leaf n ∈ parts ∧ n.terminal = .name := by
  induction parts with
  | nil => cases h
  | cons t parts ih =>
    cases t with
    | node => exact ⟨List.mem_cons_of_mem _ (ih h).1, (ih h).2⟩
    | leaf t =>
      simp only [name?] at h
      split_ifs at h with ht
      · cases h
        exact ⟨List.mem_cons_self, ht⟩
      · exact ⟨List.mem_cons_of_mem _ (ih h).1, (ih h).2⟩

theorem Grown.named_name? {parts : List Tree} {n : Token} (h : ∀ t ∈ parts, t.Grown good)
    (hn : name? parts = some n) : Named n.text := by
  obtain ⟨hmem, hname⟩ := name?_eq_some hn
  have hleaf := h _ hmem
  cases hleaf with
  | leaf hspelled => exact hspelled.name hname

end Tree

namespace TypeSyntax

variable {good : Tree → Prop}

theorem IsWritten.withSuffix {t t' : TypeSyntax} (h : t.IsWritten) {suffix : List String}
    (ht : t.withSuffix suffix = some t') : t'.IsWritten := by
  unfold TypeSyntax.withSuffix at ht
  split at ht
  · cases ht; exact .nullable h
  · cases ht; exact .pointer h
  · cases ht; exact .array h (Nat.le_add_left _ _)
  · cases ht

theorem IsWritten.withSuffixes {t t' : TypeSyntax} (h : t.IsWritten) {suffixes : List Tree}
    (ht : t.withSuffixes suffixes = some t') : t'.IsWritten := by
  induction suffixes generalizing t with
  | nil =>
    cases ht
    exact h
  | cons s suffixes ih =>
    unfold TypeSyntax.withSuffixes at ht
    split at ht
    · next hnil => cases hnil
    · next hcons =>
      cases hcons
      obtain ⟨u, hu, ht⟩ := Option.bind_eq_some_iff.mp ht
      exact ih (h.withSuffix hu) ht
    · cases ht

theorem exists_simpleName {children : List Tree} {extent : Option Extent}
    (h : (Tree.node .namedType children extent).Grown good) :
    ∃ before name extent' rest,
      children = before ++ .node .simpleName name extent' :: rest ∧
      (before = [] ∨ ∃ inner extent'', before = [.node .globalPrefix inner extent'']) := by
  cases h with
  | node hspells _ _ =>
    obtain ⟨before, _, hbefore, ⟨_, rest, ⟨name, extent', rfl⟩, -, rfl⟩, rfl⟩ := hspells
    refine ⟨before.filter (Tree.isKept .namedType), name, extent', _, List.filter_append _ _, ?_⟩
    rcases hbefore with rfl | ⟨inner, extent'', rfl⟩
    · exact Or.inl rfl
    · exact Or.inr ⟨inner, extent'', rfl⟩

theorem two_le_of_tuple {children : List Tree} {extent : Option Extent}
    (h : (Tree.node .tupleType children extent).Grown good) : 2 ≤ children.length := by
  cases h with
  | @node _ parts hspells _ _ =>
    obtain ⟨_, _, -, ⟨_, _, ⟨inner, extent₁, rfl⟩, ⟨_, last, ⟨items, hitems, hspelled, rfl⟩, -, rfl⟩,
      rfl⟩, rfl⟩ := hspells
    obtain ⟨item, items, rfl⟩ := List.exists_cons_of_ne_nil hitems
    obtain ⟨_, _, -, ⟨inner', extent₂, rfl⟩, rfl⟩ := hspelled item List.mem_cons_self
    simp only [List.filter_append, List.length_append, List.flatten_cons, List.filter_cons,
      Tree.isKept, List.length_cons, if_true]
    omega

/-- What is known of the trees up to some size. -/
def WrittenBelow (good : Tree → Prop) (size : Nat) : Prop :=
  ∀ t : Tree, sizeOf t < size → t.Grown good → ∀ u, TypeSyntax.ofTree? t = some u → u.IsWritten

theorem isWritten_of_trees {size : Nat} (ih : WrittenBelow good size) {ts : List Tree}
    (hsize : sizeOf ts ≤ size) (hgrown : ∀ t ∈ ts, t.Grown good) {us : List TypeSyntax}
    (h : TypeSyntax.ofTrees? ts = some us) : ∀ u ∈ us, u.IsWritten := by
  induction ts generalizing us with
  | nil =>
    simp only [TypeSyntax.ofTrees?, Option.some.injEq] at h
    simp [← h]
  | cons t ts iht =>
    simp only [TypeSyntax.ofTrees?, Option.pure_def, Option.bind_eq_bind,
      Option.bind_eq_some_iff, Option.some.injEq] at h
    obtain ⟨u, hu, us, hus, rfl⟩ := h
    simp only [List.cons.sizeOf_spec] at hsize
    intro v hv
    rcases List.mem_cons.mp hv with rfl | hv
    · exact ih t (by omega) (hgrown t List.mem_cons_self) v hu
    · exact iht (by omega) (fun t ht => hgrown t (List.mem_cons_of_mem _ ht)) hus v hv

theorem isWritten_of_elements {size : Nat} (ih : WrittenBelow good size) {ts : List Tree}
    (hsize : sizeOf ts ≤ size) (hgrown : ∀ t ∈ ts, t.Grown good)
    {es : List (TypeSyntax × Option String)} (h : TypeSyntax.ofElements? ts = some es) :
    es.length = ts.length ∧ (∀ e ∈ es, e.1.IsWritten) ∧ ∀ e ∈ es, ∀ n ∈ e.2, Named n := by
  induction ts generalizing es with
  | nil =>
    simp only [TypeSyntax.ofElements?, Option.some.injEq] at h
    simp [← h]
  | cons t ts iht =>
    have hrest : ∀ {es}, TypeSyntax.ofElements? ts = some es → es.length = ts.length ∧
        (∀ e ∈ es, e.1.IsWritten) ∧ ∀ e ∈ es, ∀ n ∈ e.2, Named n := fun {es} hes =>
      iht (by simp only [List.cons.sizeOf_spec] at hsize; omega)
        (fun t ht => hgrown t (List.mem_cons_of_mem _ ht)) hes
    have ht := hgrown t List.mem_cons_self
    unfold TypeSyntax.ofElements? at h
    split at h
    · next hnil => cases hnil
    · next hcons =>
      cases hcons
      simp only [Option.pure_def, Option.bind_eq_bind, Option.bind_eq_some_iff,
        Option.some.injEq] at h
      obtain ⟨u, hu, es, hes, rfl⟩ := h
      obtain ⟨hlength, htypes, hnames⟩ := hrest hes
      have huw := ih _ (by simp at hsize ⊢; omega) (ht.of_mem List.mem_cons_self) u hu
      refine ⟨by simp [hlength], ?_, ?_⟩
      · simpa using ⟨huw, fun a b hab => htypes _ hab⟩
      · simpa using fun a b hab n hn => hnames _ hab n hn
    · next n _ _ hcons =>
      cases hcons
      simp only [Option.pure_def, Option.bind_eq_bind, Option.bind_eq_some_iff,
        Option.some.injEq] at h
      obtain ⟨u, hu, es, hes, rfl⟩ := h
      obtain ⟨hlength, htypes, hnames⟩ := hrest hes
      have huw := ih _ (by simp at hsize ⊢; omega) (ht.of_mem List.mem_cons_self) u hu
      have hn : Named n.text := ht.named_leaf (by decide) (by simp)
      refine ⟨by simp [hlength], ?_, ?_⟩
      · simpa using ⟨huw, fun a b hab => htypes _ hab⟩
      · simpa using ⟨hn, fun a b hab n hn => hnames _ hab n hn⟩
    · cases h

theorem isWritten_of_parts {size : Nat} (ih : WrittenBelow good size) {ts : List Tree}
    (hsize : sizeOf ts ≤ size) (hgrown : ∀ t ∈ ts, t.Grown good) {ps : List NamePart}
    (h : NamePart.ofTrees? ts = some ps) :
    ps.length = ts.length ∧ (∀ q ∈ ps, Named q.name) ∧
      ∀ q ∈ ps, ∀ a ∈ q.arguments, a.IsWritten := by
  induction ts generalizing ps with
  | nil =>
    simp only [NamePart.ofTrees?, Option.some.injEq] at h
    simp [← h]
  | cons t ts iht =>
    have hrest : ∀ {ps}, NamePart.ofTrees? ts = some ps → ps.length = ts.length ∧
        (∀ q ∈ ps, Named q.name) ∧ ∀ q ∈ ps, ∀ a ∈ q.arguments, a.IsWritten := fun {ps} hps =>
      iht (by simp only [List.cons.sizeOf_spec] at hsize; omega)
        (fun t ht => hgrown t (List.mem_cons_of_mem _ ht)) hps
    have ht := hgrown t List.mem_cons_self
    unfold NamePart.ofTrees? at h
    split at h
    · next hnil => cases hnil
    · next n _ _ hcons =>
      cases hcons
      simp only [Option.pure_def, Option.bind_eq_bind, Option.bind_eq_some_iff,
        Option.some.injEq] at h
      obtain ⟨ps, hps, rfl⟩ := h
      obtain ⟨hlength, hnames, harguments⟩ := hrest hps
      have hn : Named n.text := ht.named_leaf (by decide) (by simp)
      refine ⟨by simp [hlength], ?_, ?_⟩
      · simpa [NamePart.name] using ⟨hn, hnames⟩
      · simpa [NamePart.arguments] using harguments
    · next n as _ _ _ hcons =>
      cases hcons
      simp only [Option.pure_def, Option.bind_eq_bind, Option.bind_eq_some_iff,
        Option.some.injEq] at h
      obtain ⟨as', has, ps, hps, rfl⟩ := h
      obtain ⟨hlength, hnames, harguments⟩ := hrest hps
      have hn : Named n.text := ht.named_leaf (by decide) (by simp)
      have hlist := ht.of_mem (List.mem_cons_of_mem _ List.mem_cons_self)
      have hasw := isWritten_of_trees ih (by simp at hsize ⊢; omega)
        (fun t ht => hlist.of_mem ht) has
      refine ⟨by simp [hlength], ?_, ?_⟩
      · simpa [NamePart.name] using ⟨hn, hnames⟩
      · simpa [NamePart.arguments] using ⟨hasw, harguments⟩
    · cases h

theorem isWritten_of_base {size : Nat} (ih : WrittenBelow good size) {t : Tree}
    (hsize : sizeOf t ≤ size) (hgrown : t.Grown good) {u : TypeSyntax}
    (h : TypeSyntax.ofBase? t = some u) : u.IsWritten := by
  unfold TypeSyntax.ofBase? at h
  split at h
  · next t' _ =>
    cases h
    obtain ⟨hspelled, hterminal, -⟩ := hgrown.leaf_mem List.mem_cons_self
    have hwords : ∀ k ∈ Rule.predefinedType.plainBody.terminals,
        ∃ w ∈ predefinedWords, k.spelling? = some w := by decide
    obtain ⟨w, hw, hspelling⟩ := hwords _ hterminal
    exact .predefined (hspelled.word w hspelling ▸ hw)
  · next inner _ parts extent =>
    simp only [Option.pure_def, Option.bind_eq_bind, Option.bind_eq_some_iff,
      Option.some.injEq] at h
    obtain ⟨ps, hps, rfl⟩ := h
    obtain ⟨hlength, hnames, harguments⟩ := isWritten_of_parts ih (by simp at hsize ⊢; omega)
      (fun t ht => hgrown.of_mem (List.mem_cons_of_mem _ ht)) hps
    obtain ⟨before, name, extent', rest, hparts, hbefore⟩ := exists_simpleName hgrown
    refine .named ?_ hnames harguments
    rintro rfl
    have hnil : parts = [] := List.length_eq_zero_iff.mp hlength.symm
    subst hnil
    rcases hbefore with rfl | ⟨_, _, rfl⟩ <;> simp at hparts
  · next parts extent _ =>
    simp only [Option.pure_def, Option.bind_eq_bind, Option.bind_eq_some_iff,
      Option.some.injEq] at h
    obtain ⟨ps, hps, rfl⟩ := h
    obtain ⟨hlength, hnames, harguments⟩ := isWritten_of_parts ih (by simp at hsize ⊢; omega)
      (fun t ht => hgrown.of_mem ht) hps
    obtain ⟨before, name, extent', rest, rfl, -⟩ := exists_simpleName hgrown
    refine .named ?_ hnames harguments
    rintro rfl
    simp at hlength
  · next parts extent =>
    simp only [Option.pure_def, Option.bind_eq_bind, Option.bind_eq_some_iff,
      Option.some.injEq] at h
    obtain ⟨es, hes, rfl⟩ := h
    obtain ⟨hlength, htypes, hnames⟩ := isWritten_of_elements ih (by simp at hsize ⊢; omega)
      (fun t ht => hgrown.of_mem ht) hes
    exact .tuple (hlength ▸ two_le_of_tuple hgrown) htypes hnames
  · cases h

/-- **The type of a grown tree can be written.** -/
theorem isWritten_of_tree {t : Tree} (hgrown : t.Grown good) {u : TypeSyntax}
    (h : TypeSyntax.ofTree? t = some u) : u.IsWritten := by
  have hbelow : ∀ size, WrittenBelow good size := by
    intro size
    induction size with
    | zero => exact fun t ht => absurd ht (Nat.not_lt_zero _)
    | succ size ih =>
      intro t ht hgrown u h
      unfold TypeSyntax.ofTree? at h
      split at h
      · next base suffixes extent =>
        obtain ⟨v, hv, hu⟩ := Option.bind_eq_some_iff.mp h
        have hbase := isWritten_of_base ih (by simp at ht ⊢; omega)
          (hgrown.of_mem List.mem_cons_self) hv
        exact hbase.withSuffixes hu
      · cases h
  exact hbelow (sizeOf t + 1) t (Nat.lt_succ_self _) hgrown u h

theorem isWritten_among {parts : List Tree} (hgrown : ∀ t ∈ parts, t.Grown good) {u : TypeSyntax}
    (h : TypeSyntax.among? parts = some u) : u.IsWritten := by
  obtain ⟨t, ht, hu⟩ := Option.bind_eq_some_iff.mp h
  exact isWritten_of_tree (hgrown t (Tree.phrase?_eq_some ht).1) hu

end TypeSyntax

end Facade
