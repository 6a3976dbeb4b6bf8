import Facade.Proofs.Binding.MetadataNames
import Facade.Proofs.Binding.TypeLevel

/-!
# The owners of type parameters

A type parameter is told from others by its name, its number, its variance and the name of its owner. A
type owns its type parameters under its metadata name, but without the number of them: so types of one
place and name, which differ in that number only, can have a type parameter in common.

* `DefinitionKey.bare`, **`DefinitionKey.ownerName_eq_iff`**: types that own under one name;
* `Model.owner_of_mem`, `Model.owner_of_method`: the owners of the type parameters of a program;
* `Model.substitute_arguments_of_not_mem`: type arguments of a type leave other type parameters as they are;
* **`Model.parameters_apart`**: which type parameters definitions have in common;
* `Model.not_parameters_apart`: types that differ in the number of their type parameters.
-/

namespace Facade

namespace DefinitionKey

/-- The type of this place and name that has no type parameters. -/
def bare : DefinitionKey → DefinitionKey
  | topLevel s n _ => topLevel s n 0
  | nested o n _ => nested o n 0

theorem metadataName_bare (k : DefinitionKey) : k.bare.metadataName = k.ownerName := by
  cases k <;> simp [bare, metadataName, ownerName, mark]

theorem IsWritten.bare {k : DefinitionKey} (h : k.IsWritten) : k.bare.IsWritten := by
  cases k <;> exact h

/-- **Types own their type parameters under one name** exactly if they are declared in one place under one
name. -/
theorem ownerName_eq_iff {k l : DefinitionKey} (hk : k.IsWritten) (hl : l.IsWritten) :
    k.ownerName = l.ownerName ↔ k.bare = l.bare := by
  rw [← metadataName_bare, ← metadataName_bare]
  exact ⟨metadataName_injective hk.bare hl.bare, congrArg metadataName⟩

end DefinitionKey

namespace Model

variable {units : List CompilationUnit} {s t : Definition} {q : TypeParameter}

/-! ## Owners -/

theorem owner_of_mem (hs : s ∈ (ofUnits units).program.definitions) (hq : q ∈ s.typeParameters) :
    q.owner = s.key.ownerName := by
  obtain ⟨d, hd, rfl⟩ := List.mem_map.mp hs
  obtain ⟨-, ⟨site, -, hparameters⟩, -⟩ := Environment.mem_definitions hd
  rw [Environment.typeParameters_bind, hparameters] at hq
  rw [Environment.key_bind]
  exact owner_of_mem_ofSyntax hq

theorem exists_of_mem_methods {u : TypeSymbol} {f : MethodSymbol}
    (hf : f ∈ (ofUnits units).program.methods u) :
    ∃ d ∈ (ofUnits units).program.definitions, ∃ g ∈ d.methods, f.typeParameters = g.typeParameters := by
  unfold Program.methods at hf
  split at hf
  · next d hd =>
    obtain ⟨k, -, hk⟩ := Option.bind_eq_some_iff.mp hd
    obtain ⟨g, hg, rfl⟩ := List.mem_map.mp hf
    exact ⟨d, (Program.definition?_eq_some hk).1, g, hg, rfl⟩
  · cases hf

/-- The owner of the type parameters of a method has their number at its end. -/
theorem owner_of_method {u : TypeSymbol} {f : MethodSymbol}
    (hf : f ∈ (ofUnits units).program.methods u) (hq : q ∈ f.typeParameters) :
    ∃ method i, q.owner = method ++ "`" ++ toString (i : Nat) := by
  obtain ⟨bound, hbound, g, hg, hparameters⟩ := exists_of_mem_methods hf
  obtain ⟨d, hd, rfl⟩ := List.mem_map.mp hbound
  obtain ⟨site, -, m, rfl⟩ := Environment.exists_of_mem_methods hd hg
  rw [hparameters] at hq
  exact ⟨_, _, owner_of_mem_ofSyntax hq⟩

/-! ## Type arguments -/

/-- A type parameter that is none of a type stays where the type gets type arguments. -/
theorem substitute_arguments_of_not_mem (ht : t ∈ (ofUnits units).program.definitions)
    (hq : q ∉ t.typeParameters) (as : List TypeSymbol) :
    (TypeSymbol.parameter q).substitute
      ((ofUnits units).program.arguments (.constructed t.key as)) = .parameter q := by
  rw [Program.arguments, Program.typeParameters, definition?_of_mem ht]
  exact Substitution.apply_zip_of_not_mem hq

/-- **Type parameters belong to one place.** Definitions that are not declared under one name in one place
have no type parameter in common, and type arguments of the one leave those of the other as they are.
Definitions that are have those in common that agree in name, number and variance. No type parameter of a
definition is one of a method, and type arguments of a definition leave those of methods as they are. -/
theorem parameters_apart
    (hparsed : ∀ u ∈ units, ∃ path source, CompilationUnit.parse path source = .ok u)
    (hs : s ∈ (ofUnits units).program.definitions) (ht : t ∈ (ofUnits units).program.definitions) :
    (s.key.bare ≠ t.key.bare →
      (∀ q ∈ s.typeParameters, q ∉ t.typeParameters) ∧
      ∀ q ∈ s.typeParameters, ∀ as, (TypeSymbol.parameter q).substitute
        ((ofUnits units).program.arguments (.constructed t.key as)) = .parameter q) ∧
    (s.key.bare = t.key.bare → ∀ q ∈ s.typeParameters, ∀ q' ∈ t.typeParameters,
      (q = q' ↔ q.name = q'.name ∧ q.ordinal = q'.ordinal ∧ q.variance = q'.variance)) ∧
    ∀ u, ∀ f ∈ (ofUnits units).program.methods u, ∀ q ∈ f.typeParameters,
      q ∉ s.typeParameters ∧
      ∀ as, (TypeSymbol.parameter q).substitute
        ((ofUnits units).program.arguments (.constructed s.key as)) = .parameter q := by
  have hunits : ∀ u ∈ units, u.IsWritten fun _ => True := by
    intro u hu
    obtain ⟨path, source, hparse⟩ := hparsed u hu
    exact CompilationUnit.isWritten_of_parse (fun _ _ => trivial) hparse
  have howner := DefinitionKey.ownerName_eq_iff (isWritten_key hunits hs) (isWritten_key hunits ht)
  refine ⟨fun hne => ?places, fun heq => ?overloads, fun u f hf q hq => ?methods⟩
  case places =>
    have hnot : ∀ q ∈ s.typeParameters, q ∉ t.typeParameters := fun q hq hq' =>
      hne (howner.mp ((owner_of_mem hs hq).symm.trans (owner_of_mem ht hq')))
    exact ⟨hnot, fun q hq => substitute_arguments_of_not_mem ht (hnot q hq)⟩
  case overloads =>
    intro q hq q' hq'
    have hsame : q.owner = q'.owner := by
      rw [owner_of_mem hs hq, owner_of_mem ht hq', howner.mpr heq]
    refine ⟨by rintro rfl; exact ⟨rfl, rfl, rfl⟩, fun ⟨hname, hordinal, hvariance⟩ => ?_⟩
    cases q
    cases q'
    simp_all only
  case methods =>
    have hnot : q ∉ s.typeParameters := fun hmem => by
      obtain ⟨method, i, hmethod⟩ := owner_of_method hf hq
      exact (isWritten_key hunits hs).ownerName_ne method i ((owner_of_mem hs hmem).symm.trans hmethod)
    exact ⟨hnot, substitute_arguments_of_not_mem hs hnot⟩

/-- Types with a type parameter of one name: in each other, in another namespace, and in a method. -/
def likeOwnedSources : List String :=
  ["namespace N \x7b class C<T> \x7b class C<T> \x7b \x7d void M<T>() \x7b \x7d \x7d \x7d",
    "namespace M \x7b class C<T> \x7b \x7d \x7d"]

/-- Type parameters of one name, number and variance are told apart by their owners. -/
theorem parameters_apart_likeOwned : ∃ units,
    CompilationUnit.parseAll? likeOwnedSources = some units ∧
    ∃ s ∈ (ofUnits units).program.definitions, ∃ t ∈ (ofUnits units).program.definitions,
      s.key.bare ≠ t.key.bare ∧
      s.typeParameters.map TypeParameter.name = ["T"] ∧ t.typeParameters.map TypeParameter.name = ["T"] ∧
      (∀ q ∈ s.typeParameters, q ∉ t.typeParameters) ∧
      ∀ q ∈ s.typeParameters, ∀ as, (TypeSymbol.parameter q).substitute
        ((ofUnits units).program.arguments (.constructed t.key as)) = .parameter q := by
  have hnames : (CompilationUnit.parseAll? likeOwnedSources).map (fun units =>
      (ofUnits units).program.definitions.map fun d =>
        (d.key, d.typeParameters.map TypeParameter.name)) =
        some [(.topLevel (some "N") "C" 1, ["T"]), (.nested (.topLevel (some "N") "C" 1) "C" 1, ["T"]),
          (.topLevel (some "M") "C" 1, ["T"])] := by
    decide +kernel
  obtain ⟨units, hunits, hnames⟩ := Option.map_eq_some_iff.mp hnames
  obtain ⟨s, hs, hkey⟩ := List.mem_map.mp (hnames ▸ List.mem_cons_self)
  obtain ⟨t, ht, hkey'⟩ := List.mem_map.mp (hnames ▸ List.mem_cons_of_mem _ List.mem_cons_self)
  obtain ⟨hs', hname⟩ := Prod.mk.inj hkey
  obtain ⟨ht', hname'⟩ := Prod.mk.inj hkey'
  have hne : s.key.bare ≠ t.key.bare := by rw [hs', ht']; decide
  exact ⟨units, hunits, s, hs, t, ht, hne, hname, hname',
    (parameters_apart (CompilationUnit.parsed_of_parseAll? hunits) hs ht).1 hne⟩

/-- Types of one name that differ in the number of their type parameters. -/
def overloadSource : String := "namespace N \x7b class C<T> \x7b \x7d class C<T, U> \x7b \x7d \x7d"

/-- Types that differ in the number of their type parameters have one in common, and type arguments of the
one are put in its place in the other. -/
theorem not_parameters_apart : ∃ units,
    CompilationUnit.parseAll? [overloadSource] = some units ∧
    ∃ s ∈ (ofUnits units).program.definitions, ∃ t ∈ (ofUnits units).program.definitions,
      s.key ≠ t.key ∧ ∃ q ∈ s.typeParameters, q ∈ t.typeParameters ∧
        (TypeSymbol.parameter q).substitute ((ofUnits units).program.arguments
          (.constructed t.key [.special "int", .special "int"])) = .special "int" := by
  have hchecks : (CompilationUnit.parseAll? [overloadSource]).any (fun units =>
      (ofUnits units).program.definitions.any fun s =>
        (ofUnits units).program.definitions.any fun t => s.key != t.key && s.typeParameters.any fun q =>
          q ∈ t.typeParameters && (TypeSymbol.parameter q).substitute ((ofUnits units).program.arguments
            (.constructed t.key [.special "int", .special "int"])) == .special "int") = true := by
    decide +kernel
  simpa [Option.any_eq_true, List.any_eq_true] using hchecks

end Model

end Facade
