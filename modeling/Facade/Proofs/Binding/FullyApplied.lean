import Facade.Proofs.Binding.Declared
import Facade.Proofs.Symbol.Mentioned
import Facade.Proofs.Syntax.WrittenSource

/-!
# Constructed types are fully applied

A name is given as many type arguments as the type that it means has type parameters, so a declared type
stands alone only where it has none. Base lists, signatures and aliases hold such types, and putting types
in the place of type parameters makes more of them. No type parameter is left without a type argument.

* `Program.IsApplied`: each declared type in a symbol has all its type arguments;
* `Program.IsApplied.substitute`, `Program.IsApplied.map_arguments`: what is put in, and for what;
* `Program.named`, `TypeSymbol.components`, `Model.Obtained`: the ways from one type to others;
* `Model.namesApplied_ofUnits`: what declarations name;
* **`Model.fully_applied`**: all types that are obtained from a program.
-/

namespace Facade

/-! ## Symbols -/

/-- A symbol in which each declared type has a type argument for each of its type parameters; without type
parameters it is the declared type itself. -/
inductive Program.IsApplied (p : Program) : TypeSymbol → Prop
  | special {k} : IsApplied p (.special k)
  | parameter {q} : IsApplied p (.parameter q)
  | unresolved {n as} : (∀ a ∈ as, IsApplied p a) → IsApplied p (.unresolved n as)
  | array {t rank} : IsApplied p t → IsApplied p (.array t rank)
  | nullable {t} : IsApplied p t → IsApplied p (.nullable t)
  | pointer {t} : IsApplied p t → IsApplied p (.pointer t)
  | tuple {es} : (∀ e ∈ es, IsApplied p (Prod.fst e)) → IsApplied p (.tuple es)
  | definition {k d} : p.definition? k = some d → d.typeParameters = [] → IsApplied p (.definition k)
  | constructed {k as d} : p.definition? k = some d → as ≠ [] →
      as.length = d.typeParameters.length → (∀ a ∈ as, IsApplied p a) →
      IsApplied p (.constructed k as)

/-- The types that a type is made of, other than its type arguments. -/
def TypeSymbol.components : TypeSymbol → List TypeSymbol
  | array e _ | nullable e | pointer e => [e]
  | tuple es => es.map Prod.fst
  | _ => []

namespace Program

variable {p : Program} {t u : TypeSymbol} {k : DefinitionKey} {as : List TypeSymbol} {m : Substitution}

theorem IsApplied.substitute (h : p.IsApplied t) (hm : ∀ e ∈ m, p.IsApplied e.2) :
    p.IsApplied (t.substitute m) := by
  induction h with
  | special => exact .special
  | @parameter q =>
    rw [TypeSymbol.substitute, Substitution.apply]
    split
    · next e he => exact hm e (List.mem_of_find?_eq_some he)
    · exact .parameter
  | unresolved _ ih =>
    rw [TypeSymbol.substitute, TypeSymbol.substituteAll_eq_map]
    exact .unresolved (by simpa using ih)
  | array _ ih => exact .array ih
  | nullable _ ih => exact .nullable ih
  | pointer _ ih => exact .pointer ih
  | tuple _ ih =>
    rw [TypeSymbol.substitute, TypeSymbol.substituteElements_eq_map]
    refine .tuple fun e he => ?_
    obtain ⟨e', he', rfl⟩ := List.mem_map.mp he
    exact ih e' he'
  | definition hd hnone => exact .definition hd hnone
  | constructed hd hne hlength _ ih =>
    rw [substitute_constructed_eq]
    exact .constructed hd (by simpa using hne) (by simpa using hlength) (by simpa using ih)

theorem IsApplied.length_eq (h : p.IsApplied (.constructed k as)) :
    as.length = (p.typeParameters k).length := by
  cases h with
  | constructed hd _ hlength _ => rw [typeParameters, hd, hlength]

/-- Each type parameter has its type argument. -/
theorem IsApplied.map_arguments (h : p.IsApplied (.constructed k as)) :
    (p.arguments (.constructed k as)).map Prod.fst = p.typeParameters k ∧
      (p.arguments (.constructed k as)).map Prod.snd = as :=
  ⟨List.map_fst_zip h.length_eq.ge, List.map_snd_zip h.length_eq.le⟩

theorem IsApplied.of_mem_arguments (h : p.IsApplied t) : ∀ e ∈ p.arguments t, p.IsApplied e.2 := by
  cases h with
  | constructed _ _ _ has => exact fun e he => has e.2 (List.of_mem_zip he).2
  | _ => exact fun _ he => absurd he List.not_mem_nil

theorem IsApplied.of_mem_typeArguments (h : p.IsApplied t) (hu : u ∈ p.typeArguments t) :
    p.IsApplied u := by
  cases h with
  | unresolved has => exact has u hu
  | constructed _ _ _ has => exact has u hu
  | definition =>
    obtain ⟨q, -, rfl⟩ := List.mem_map.mp hu
    exact .parameter
  | _ => cases hu

theorem IsApplied.of_mem_components (h : p.IsApplied t) (hu : u ∈ t.components) : p.IsApplied u := by
  cases h with
  | array h => exact List.mem_singleton.mp hu ▸ h
  | nullable h => exact List.mem_singleton.mp hu ▸ h
  | pointer h => exact List.mem_singleton.mp hu ▸ h
  | tuple h =>
    obtain ⟨e, he, rfl⟩ := List.mem_map.mp hu
    exact h e he
  | _ => cases hu

/-! ## What declarations name -/

/-- The types that a type names: its interfaces with all those these are based on, its base class, those in
the signatures of its methods, and its type arguments. -/
def named (p : Program) (t : TypeSymbol) : List TypeSymbol :=
  p.interfaces t ++ p.allInterfaces t ++ (p.baseType? t).toList ++
    (p.methods t).flatMap MethodSymbol.types ++ p.typeArguments t

/-- The base lists and signatures of all declarations hold such types only. -/
def NamesApplied (p : Program) : Prop :=
  ∀ d ∈ p.definitions, ∀ t ∈ d.interfaces ++ d.baseType.toList ++ d.methods.flatMap MethodSymbol.types,
    p.IsApplied t

section

variable (hp : p.NamesApplied) (ht : ∀ e ∈ p.arguments t, p.IsApplied e.2)

include hp ht

theorem NamesApplied.interfaces (hu : u ∈ p.interfaces t) : p.IsApplied u := by
  unfold Program.interfaces at hu
  split at hu
  · next d hd =>
    obtain ⟨k, -, hd⟩ := Option.bind_eq_some_iff.mp hd
    obtain ⟨i, hi, rfl⟩ := List.mem_map.mp hu
    exact (hp d (definition?_eq_some hd).1 i (by simp [hi])).substitute ht
  · cases hu

theorem NamesApplied.baseType (hu : p.baseType? t = some u) : p.IsApplied u := by
  unfold Program.baseType? at hu
  obtain ⟨d, hd, hu⟩ := Option.bind_eq_some_iff.mp hu
  obtain ⟨k, -, hd⟩ := Option.bind_eq_some_iff.mp hd
  obtain ⟨b, hb, hu⟩ := Option.bind_eq_some_iff.mp hu
  exact Option.some.inj hu ▸ (hp d (definition?_eq_some hd).1 b (by simp [hb])).substitute ht

theorem NamesApplied.types {f : MethodSymbol} (hf : f ∈ p.methods t) (hu : u ∈ f.types) :
    p.IsApplied u := by
  unfold Program.methods at hf
  split at hf
  · next d hd =>
    obtain ⟨k, -, hd⟩ := Option.bind_eq_some_iff.mp hd
    obtain ⟨f', hf', rfl⟩ := List.mem_map.mp hf
    rw [MethodSymbol.types_substitute] at hu
    obtain ⟨u', hu', rfl⟩ := List.mem_map.mp hu
    refine (hp d (definition?_eq_some hd).1 u' ?_).substitute ht
    exact List.mem_append_right _ (List.mem_flatMap.mpr ⟨f', hf', hu'⟩)
  · cases hf

theorem NamesApplied.edge (h : p.Edge t u) : p.IsApplied u :=
  h.elim (hp.baseType ht) (hp.interfaces ht)

theorem NamesApplied.transGen (h : Relation.TransGen p.Edge t u) : p.IsApplied u := by
  induction h with
  | single h => exact hp.edge ht h
  | tail _ h ih => exact hp.edge ih.of_mem_arguments h

theorem NamesApplied.allInterfaces (hu : u ∈ p.allInterfaces t) : p.IsApplied u := by
  rcases (p.typeSearch_searchDepth t).reaches (List.mem_filter.mp hu).1 with hu | hu
  · cases hu
  · exact hp.transGen ht hu.transGen

end

/-- **What a type names has all its type arguments**, if the type arguments of the type itself do. -/
theorem NamesApplied.of_mem_named (hp : p.NamesApplied)
    (ht : ∀ e ∈ p.arguments t, p.IsApplied e.2) (harguments : ∀ a ∈ p.typeArguments t, p.IsApplied a)
    (hu : u ∈ p.named t) : p.IsApplied u := by
  unfold named at hu
  rcases List.mem_append.mp hu with hu | hu
  · rcases List.mem_append.mp hu with hu | hu
    · rcases List.mem_append.mp hu with hu | hu
      · rcases List.mem_append.mp hu with hu | hu
        · exact hp.interfaces ht hu
        · exact hp.allInterfaces ht hu
      · exact hp.baseType ht (by simpa using hu)
    · obtain ⟨f, hf, hu⟩ := List.mem_flatMap.mp hu
      exact hp.types ht hf hu
  · exact harguments u hu

end Program

/-! ## Bound programs -/

namespace Model

open Program

/-- The types that are obtained from a program: by resolving written types in any scope and aliases, by what
the declared types and other such types name and are made of, and by putting such types in the place of
type parameters. -/
inductive Obtained (m : Model) : TypeSymbol → Prop
  | resolved (s : Scope) (t : TypeSyntax) : Obtained m (m.environment.resolve s t)
  | aliased (a : Alias) : Obtained m (m.environment.declarations.resolveAlias a)
  | declared {d t} : d ∈ m.program.definitions → t ∈ m.program.named (.definition (Definition.key d)) →
      Obtained m t
  | named {s t} : Obtained m s → t ∈ m.program.named s → Obtained m t
  | component {s t} : Obtained m s → t ∈ s.components → Obtained m t
  | substituted {t l} : Obtained m t → (∀ e ∈ l, Obtained m (Prod.snd e)) → Obtained m (t.substitute l)

variable {units : List CompilationUnit}

/-- Types made of such that have all their type arguments have them too. -/
theorem permits_isApplied :
    (Declarations.ofUnits units).Permits (ofUnits units).program.IsApplied where
  special _ := .special
  unresolved _ _ h := .unresolved h
  array _ _ h := .array h
  nullable h := .nullable h
  pointer h := .pointer h
  tuple h := .tuple h
  construct {k as} hk hlength has := by
    obtain ⟨d, hd⟩ := Declarations.exists_definition hk
    have hparameters : d.typeParameters.length = k.arity := by
      have hall := Declarations.length_typeParameters hk
      rwa [Program.typeParameters, hd] at hall
    unfold DefinitionKey.construct
    split_ifs with hempty
    · rw [List.isEmpty_iff.mp hempty] at hlength
      exact .definition hd (List.length_eq_zero_iff.mp (hparameters.trans hlength.symm))
    · exact .constructed hd (by simpa using hempty) (hlength.trans hparameters.symm) has

theorem isApplied_resolve (s : Scope) (t : TypeSyntax) :
    (ofUnits units).program.IsApplied ((Environment.ofUnits units).resolve s t) :=
  Environment.holds_resolve permits_isApplied (fun _ _ => .parameter) t

theorem isApplied_types_bindMethod (owner : DefinitionKey) (kind : TypeKind) (s : Scope)
    (m : MethodDeclaration) {t : TypeSymbol}
    (ht : t ∈ ((Environment.ofUnits units).bindMethod owner kind s m).types) :
    (ofUnits units).program.IsApplied t := by
  unfold MethodSymbol.types at ht
  rcases List.mem_append.mp ht with ht | ht
  · rcases List.mem_cons.mp ht with rfl | ht
    · exact isApplied_resolve _ _
    · obtain ⟨q, hq, rfl⟩ := List.mem_map.mp ht
      obtain ⟨p, -, rfl⟩ := List.mem_map.mp hq
      exact isApplied_resolve _ _
  · obtain ⟨c, hc, ht⟩ := List.mem_flatMap.mp ht
    obtain ⟨clause, -, rfl⟩ := List.mem_map.mp hc
    obtain ⟨k, hk, ht⟩ := List.mem_filterMap.mp ht
    obtain ⟨written, -, rfl⟩ := List.mem_map.mp hk
    cases written with
    | special => cases ht
    | type w => exact Option.some.inj ht ▸ isApplied_resolve _ _

variable (units) in
/-- **Declarations name types with all their type arguments.** -/
theorem namesApplied_ofUnits : (ofUnits units).program.NamesApplied := by
  intro bound hbound t ht
  obtain ⟨d, hd, rfl⟩ := List.mem_map.mp hbound
  rcases List.mem_append.mp ht with ht | ht
  · obtain ⟨s, -, w, -, rfl⟩ := Environment.exists_of_mem_bind hd ht
    exact isApplied_resolve _ w
  · obtain ⟨f, hf, ht⟩ := List.mem_flatMap.mp ht
    obtain ⟨s, -, m, rfl⟩ := Environment.exists_of_mem_methods hd hf
    exact isApplied_types_bindMethod _ _ _ m ht

theorem Obtained.isApplied {t : TypeSymbol} (h : (ofUnits units).Obtained t) :
    (ofUnits units).program.IsApplied t := by
  have hnames := namesApplied_ofUnits units
  induction h with
  | resolved s t => exact isApplied_resolve s t
  | aliased a => exact permits_isApplied.resolveAlias a
  | declared _ ht =>
    refine hnames.of_mem_named (fun _ he => absurd he List.not_mem_nil) (fun a ha => ?_) ht
    obtain ⟨q, -, rfl⟩ := List.mem_map.mp ha
    exact .parameter
  | named _ ht ih => exact hnames.of_mem_named ih.of_mem_arguments (fun _ => ih.of_mem_typeArguments) ht
  | component _ ht ih => exact ih.of_mem_components ht
  | substituted _ _ ih ihs => exact ih.substitute ihs

/-- **All types that are obtained from a program have all their type arguments**, and those in them: a
constructed type has at least one, as many as its definition has type parameters, and each type parameter
is given one. -/
theorem fully_applied {t : TypeSymbol} (h : (ofUnits units).Obtained t) :
    (ofUnits units).program.IsApplied t ∧
      ∀ k as, t = .constructed k as →
        as ≠ [] ∧ as.length = ((ofUnits units).program.typeParameters k).length ∧
        ((ofUnits units).program.arguments t).map Prod.fst = (ofUnits units).program.typeParameters k ∧
        ((ofUnits units).program.arguments t).map Prod.snd = as := by
  refine ⟨h.isApplied, ?_⟩
  rintro k as rfl
  have happlied := h.isApplied
  have hne : as ≠ [] := by cases happlied; assumption
  exact ⟨hne, happlied.length_eq, happlied.map_arguments⟩

/-- A class whose base class is given a type argument, which it hands on to an interface in two forms; the
interface has it in a signature, beside an alias of a constructed type. -/
def handedOnSources : List String :=
  ["using L = N.Box<int>; namespace N { interface I<T> { void Put(Pair<T, L> p); } }",
    "namespace N { class Pair<A, B> { } class Box<T> : I<Pair<T, T[]>> { }
      class D : Box<string> { } }"]

/-- The parameter of the interface as the class has it, all type arguments put in. -/
def handedOn : TypeSymbol :=
  .constructed (.topLevel (some "N") "Pair" 2)
    [.constructed (.topLevel (some "N") "Pair" 2) [.special "string", .array (.special "string") 1],
      .constructed (.topLevel (some "N") "Box" 1) [.special "int"]]

/-- What a class hands on through its base class and an interface is fully applied. -/
theorem fully_applied_handedOn : ∃ units,
    CompilationUnit.parseAll? handedOnSources = some units ∧
    (ofUnits units).Obtained handedOn ∧ (ofUnits units).program.IsApplied handedOn ∧
    ((ofUnits units).program.arguments handedOn).map Prod.fst =
      (ofUnits units).program.typeParameters (.topLevel (some "N") "Pair" 2) ∧
    ((ofUnits units).program.arguments handedOn).map (fun e => e.1.name) = ["A", "B"] := by
  have hchecks : (CompilationUnit.parseAll? handedOnSources).any (fun units =>
      ((ofUnits units).program.definitions.any fun d =>
        ((ofUnits units).program.named (.definition d.key)).any fun b =>
          ((ofUnits units).program.named b).any fun i =>
            decide (handedOn ∈ (ofUnits units).program.named i)) &&
      ((ofUnits units).program.arguments handedOn).map (fun e => e.1.name) == ["A", "B"]) = true := by
    decide +kernel
  simp only [Option.any_eq_true, List.any_eq_true, Bool.and_eq_true, decide_eq_true_eq,
    beq_iff_eq] at hchecks
  obtain ⟨units, hunits, ⟨d, hd, b, hb, i, hi, ht⟩, hnames⟩ := hchecks
  have hobtained : (ofUnits units).Obtained handedOn := .named (.named (.declared hd hb) hi) ht
  obtain ⟨happlied, hall⟩ := fully_applied hobtained
  exact ⟨units, hunits, hobtained, happlied, (hall _ _ rfl).2.2.1, hnames⟩

end Model

end Facade
