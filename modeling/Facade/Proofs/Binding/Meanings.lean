import Mathlib.Data.Option.Basic
import Mathlib.Tactic.Common
import Facade.Binding.Model

/-!
# What holds of all meanings

Written types mean types that are made step by step: from words of the language, type parameters and
declared types with as many type arguments as they have type parameters. What passes from types to the
types made of them holds of all meanings.

* **`Declarations.Permits`**: a property that passes to the types that are made of others;
* `StandsFor`: what a simple name with type arguments may stand for;
* `Declarations.Permits.resolveName`, `TypeSyntax.holds_resolveWith`: dotted names and written types;
* `Declarations.Permits.resolveAlias`, **`Environment.holds_resolve`**: aliases, and written types in a
  scope.
-/

namespace Facade

/-- A property that passes from types to the types that are made of them. A declared type is given as
many type arguments as it has type parameters. -/
structure Declarations.Permits (d : Declarations) (holds : TypeSymbol → Prop) : Prop where
  special (k : String) : holds (.special k)
  unresolved (n : String) {as : List TypeSymbol} : (∀ a ∈ as, holds a) → holds (.unresolved n as)
  array (rank : Nat) {t : TypeSymbol} : holds t → holds (.array t rank)
  nullable {t : TypeSymbol} : holds t → holds (.nullable t)
  pointer {t : TypeSymbol} : holds t → holds (.pointer t)
  tuple {es : List (TypeSymbol × Option String)} : (∀ e ∈ es, holds e.1) → holds (.tuple es)
  construct {k : DefinitionKey} {as : List TypeSymbol} : k ∈ d.keys → as.length = k.arity →
    (∀ a ∈ as, holds a) → holds (k.construct as)

/-- What a name with `arity` type arguments may stand for: with any of them that have a property it
becomes a type that has it. -/
def StandsFor (holds : TypeSymbol → Prop) (arity : Nat) (t : TypeSymbol) : Prop :=
  ∀ q : ResolvedPart, q.arity = arity → (∀ a ∈ q.arguments, holds a) → holds (q.construct t)

theorem ResolvedPart.construct_of_arity_eq_zero {q : ResolvedPart} (h : q.arity = 0)
    (t : TypeSymbol) : q.construct t = t := by
  have hnil : q.arguments = [] := List.length_eq_zero_iff.mp h
  cases t with
  | definition k => simp [construct, DefinitionKey.construct, hnil]
  | _ => rfl

theorem standsFor_zero {holds : TypeSymbol → Prop} {t : TypeSymbol} (h : holds t) : StandsFor holds 0 t :=
  fun _ hq _ => (ResolvedPart.construct_of_arity_eq_zero hq t).symm ▸ h

namespace Declarations

variable {d : Declarations}

theorem eq_of_type? {k k' : DefinitionKey} (h : d.type? k = some k') : k' = k := by
  unfold type? at h
  split_ifs at h
  exact (Option.some.inj h).symm

theorem mem_of_type? {k l : DefinitionKey} (h : d.type? k = some l) : l ∈ d.keys := by
  unfold type? at h
  split_ifs at h with hmem
  exact Option.some.inj h ▸ hmem

theorem mem_of_inSpaces {spaces : List (Option String)} {name : String} {arity : Nat}
    {k : DefinitionKey} (h : d.inSpaces spaces name arity = some k) : k ∈ d.keys ∧ k.arity = arity := by
  obtain ⟨s, -, hs⟩ := List.exists_of_findSome?_eq_some h
  exact ⟨mem_of_type? hs, by rw [eq_of_type? hs]; rfl⟩

theorem mem_of_longestQualified {spaces : List (Option String)} {parts : List ResolvedPart}
    {k : DefinitionKey} {i : Nat} {part : ResolvedPart}
    (h : d.longestQualified spaces parts = some (k, i)) (hpart : parts[i]? = some part) :
    k ∈ d.keys ∧ part.arguments.length = k.arity := by
  obtain ⟨count, -, hcount⟩ := List.exists_of_findSome?_eq_some h
  obtain ⟨k', hk', heq⟩ := Option.map_eq_some_iff.mp hcount
  cases heq
  simp only [inQualified] at hk'
  split_ifs at hk'
  obtain ⟨last, hlast, hk'⟩ := Option.bind_eq_some_iff.mp hk'
  rw [hpart, Option.some.injEq] at hlast
  obtain ⟨s, -, hs⟩ := List.exists_of_findSome?_eq_some hk'
  split_ifs at hs
  exact ⟨mem_of_type? hs, by rw [eq_of_type? hs, hlast]; rfl⟩

/-! ## Names -/

namespace Permits

variable {holds : TypeSymbol → Prop} (hd : d.Permits holds)

include hd

theorem standsFor_definition {k : DefinitionKey} {arity : Nat} (hk : k ∈ d.keys) (h : k.arity = arity) :
    StandsFor holds arity (.definition k) :=
  fun _ hq has => hd.construct hk (hq.trans h.symm) has

theorem standsFor_inSpaces {spaces : List (Option String)} {name : String} {arity : Nat}
    {t : TypeSymbol} (h : (d.inSpaces spaces name arity).map TypeSymbol.definition = some t) :
    StandsFor holds arity t := by
  obtain ⟨k, hk, rfl⟩ := Option.map_eq_some_iff.mp h
  exact hd.standsFor_definition (mem_of_inSpaces hk).1 (mem_of_inSpaces hk).2

theorem unresolvedName {isGlobal : Bool} {parts : List ResolvedPart}
    (h : ∀ q ∈ parts, ∀ a ∈ q.arguments, holds a) : holds (unresolvedName isGlobal parts) := by
  unfold Facade.unresolvedName
  split
  · exact hd.unresolved _ (by simp)
  · next last hlast => exact hd.unresolved _ (h last (List.mem_of_getLast? hlast))

theorem step {t t' : TypeSymbol} {q : ResolvedPart} (hq : ∀ a ∈ q.arguments, holds a)
    (h : d.step t q = some t') : holds t' := by
  simp only [Declarations.step, Option.pure_def, Option.bind_eq_bind, Option.bind_eq_some_iff,
    Option.some.injEq] at h
  obtain ⟨k, -, nested, hnested, rfl⟩ := h
  exact hd.construct (mem_of_type? hnested) (by rw [eq_of_type? hnested]; rfl) hq

theorem descend {parts : List ResolvedPart} (hparts : ∀ q ∈ parts, ∀ a ∈ q.arguments, holds a)
    {t t' : TypeSymbol} (ht : holds t) (h : d.descend t parts = some t') : holds t' := by
  induction parts generalizing t with
  | nil =>
    simp only [Declarations.descend, List.foldlM_nil, Option.pure_def, Option.some.injEq] at h
    exact h ▸ ht
  | cons q parts ih =>
    simp only [Declarations.descend, List.foldlM_cons, Option.bind_eq_bind,
      Option.bind_eq_some_iff] at h
    obtain ⟨u, hu, h⟩ := h
    exact ih (fun q hq => hparts q (List.mem_cons_of_mem _ hq))
      (hd.step (hparts q List.mem_cons_self) hu) h

/-- **Dotted names**: what holds of all that simple names stand for holds of their meanings. -/
theorem resolveName {simple : String → Nat → Option TypeSymbol}
    (hsimple : ∀ n a t, simple n a = some t → StandsFor holds a t) {spaces : List (Option String)}
    {isGlobal : Bool} {parts : List ResolvedPart}
    (hparts : ∀ q ∈ parts, ∀ a ∈ q.arguments, holds a) :
    holds (d.resolveName simple spaces isGlobal parts) := by
  obtain ⟨found, hfound, hholds⟩ : ∃ found : Option TypeSymbol,
      d.resolveName simple spaces isGlobal parts =
        found.getD (Facade.unresolvedName isGlobal parts) ∧ ∀ t, found = some t → holds t := by
    refine ⟨_, rfl, fun t h => ?_⟩
    simp only [Option.bind_eq_bind, Option.bind_eq_some_iff] at h
    obtain ⟨head, hhead, h⟩ := h
    have hheado := hparts head (List.mem_of_mem_head? hhead)
    have htail : ∀ q ∈ parts.tail, ∀ a ∈ q.arguments, holds a :=
      fun q hq => hparts q (List.mem_of_mem_tail hq)
    split at h
    · next start hstart =>
      have hstarto : StandsFor holds head.arity start := by
        split_ifs at hstart
        · obtain ⟨k, hk, rfl⟩ := Option.map_eq_some_iff.mp hstart
          exact hd.standsFor_definition (mem_of_type? hk) (by rw [eq_of_type? hk]; rfl)
        · exact hsimple _ _ _ hstart
      exact hd.descend htail (hstarto head rfl hheado) h
    · obtain ⟨⟨k, i⟩, hk, h⟩ := Option.bind_eq_some_iff.mp h
      obtain ⟨part, hpart, h⟩ := Option.bind_eq_some_iff.mp h
      obtain ⟨hmem, hlength⟩ := mem_of_longestQualified hk hpart
      exact hd.descend (fun q hq => hparts q (List.mem_of_mem_drop hq))
        (hd.construct hmem hlength (hparts part (List.mem_of_getElem? hpart))) h
  rw [hfound]
  cases found with
  | none => exact hd.unresolvedName hparts
  | some t => exact hholds t rfl

end Permits

end Declarations

/-! ## Written types -/

section

variable {d : Declarations} {holds : TypeSymbol → Prop}
  {named : Bool → List ResolvedPart → TypeSymbol}

mutual

/-- **Written types**: what holds of the meanings of dotted names holds of all meanings. -/
theorem TypeSyntax.holds_resolveWith (hd : d.Permits holds)
    (hnamed : ∀ b parts, (∀ q ∈ parts, ∀ a ∈ ResolvedPart.arguments q, holds a) →
      holds (named b parts)) : (t : TypeSyntax) → holds (t.resolveWith named)
  | .predefined _ => hd.special _
  | .named _ parts => hnamed _ _ (NamePart.holds_resolveAll hd hnamed parts)
  | .array e _ => hd.array _ (e.holds_resolveWith hd hnamed)
  | .nullable e => hd.nullable (e.holds_resolveWith hd hnamed)
  | .pointer e => hd.pointer (e.holds_resolveWith hd hnamed)
  | .tuple es => hd.tuple (TypeSyntax.holds_resolveElements hd hnamed es)

theorem NamePart.holds_resolveAll (hd : d.Permits holds)
    (hnamed : ∀ b parts, (∀ q ∈ parts, ∀ a ∈ ResolvedPart.arguments q, holds a) →
      holds (named b parts)) : (ps : List NamePart) →
    ∀ q ∈ NamePart.resolveAll named ps, ∀ a ∈ q.arguments, holds a
  | [], _, hq => absurd hq List.not_mem_nil
  | .mk _ arguments :: ps, q, hq => by
    rw [NamePart.resolveAll] at hq
    rcases List.mem_cons.mp hq with rfl | hq
    · exact TypeSyntax.holds_resolveAll hd hnamed arguments
    · exact NamePart.holds_resolveAll hd hnamed ps q hq

theorem TypeSyntax.holds_resolveAll (hd : d.Permits holds)
    (hnamed : ∀ b parts, (∀ q ∈ parts, ∀ a ∈ ResolvedPart.arguments q, holds a) →
      holds (named b parts)) : (ts : List TypeSyntax) →
    ∀ t ∈ TypeSyntax.resolveAll named ts, holds t
  | [], _, ht => absurd ht List.not_mem_nil
  | u :: us, t, ht => by
    rw [TypeSyntax.resolveAll] at ht
    rcases List.mem_cons.mp ht with rfl | ht
    · exact u.holds_resolveWith hd hnamed
    · exact TypeSyntax.holds_resolveAll hd hnamed us t ht

theorem TypeSyntax.holds_resolveElements (hd : d.Permits holds)
    (hnamed : ∀ b parts, (∀ q ∈ parts, ∀ a ∈ ResolvedPart.arguments q, holds a) →
      holds (named b parts)) : (es : List (TypeSyntax × Option String)) →
    ∀ e ∈ TypeSyntax.resolveElements named es, holds e.1
  | [], _, he => absurd he List.not_mem_nil
  | (u, _) :: us, e, he => by
    rw [TypeSyntax.resolveElements] at he
    rcases List.mem_cons.mp he with rfl | he
    · exact u.holds_resolveWith hd hnamed
    · exact TypeSyntax.holds_resolveElements hd hnamed us e he

end

end

/-! ## Scopes -/

namespace Declarations.Permits

variable {d : Declarations} {holds : TypeSymbol → Prop} (hd : d.Permits holds)

include hd

/-- The meaning of an alias comes from declared types only. -/
theorem resolveAlias (a : Alias) : holds (d.resolveAlias a) := by
  refine TypeSyntax.holds_resolveWith hd (fun _ _ hparts => ?_) a.target
  refine hd.resolveName (fun n arity t ht => ?_) hparts
  obtain ⟨k, hk, rfl⟩ := Option.map_eq_some_iff.mp ht
  obtain ⟨l, -, hl⟩ := List.exists_of_findSome?_eq_some hk
  rw [Option.orElse_eq_some] at hl
  rcases hl with hl | ⟨-, hl⟩
  · exact hd.standsFor_definition (mem_of_inSpaces hl).1 (mem_of_inSpaces hl).2
  · exact hd.standsFor_definition (mem_of_inSpaces hl).1 (mem_of_inSpaces hl).2

theorem standsFor_lookupLevel {l : Level} {n : String} {arity : Nat} {t : TypeSymbol}
    (h : d.lookupLevel l n arity = some t) : StandsFor holds arity t := by
  unfold lookupLevel at h
  rw [Option.orElse_eq_some, Option.orElse_eq_some] at h
  rcases h with h | ⟨-, h | ⟨-, h⟩⟩
  · exact hd.standsFor_inSpaces h
  · split_ifs at h with harity
    obtain ⟨a, -, rfl⟩ := Option.map_eq_some_iff.mp h
    exact harity ▸ standsFor_zero (hd.resolveAlias a)
  · exact hd.standsFor_inSpaces h

end Declarations.Permits

theorem parameterNamed?_eq_some {ps : List TypeParameter} {n : String} {arity : Nat}
    {t : TypeSymbol} (h : parameterNamed? ps n arity = some t) :
    arity = 0 ∧ ∃ q ∈ ps, q.name = n ∧ t = .parameter q := by
  unfold parameterNamed? at h
  split_ifs at h with harity
  obtain ⟨q, hq, rfl⟩ := Option.map_eq_some_iff.mp h
  exact ⟨harity, q, List.mem_of_find?_eq_some hq, by simpa using List.find?_some hq, rfl⟩

namespace Environment

variable {e : Environment} {holds : TypeSymbol → Prop}

/-- The type parameter belongs to the method or to a type around the site. -/
def Has (e : Environment) (s : Scope) (q : TypeParameter) : Prop :=
  q ∈ s.methodParameters ∨ ∃ k ∈ s.containing, q ∈ e.program.typeParameters k

theorem standsFor_of_lookup (hd : e.declarations.Permits holds) {s : Scope} {n : String} {arity : Nat}
    {t : TypeSymbol} (h : e.lookup s n arity = some t)
    (hparameters : ∀ q, e.Has s q → arity = 0 → q.name = n → t = .parameter q →
      holds (.parameter q)) : StandsFor holds arity t := by
  have hparameter : ∀ {ps}, (∀ q ∈ ps, e.Has s q) → parameterNamed? ps n arity = some t →
      StandsFor holds arity t := by
    intro ps hhas hps
    obtain ⟨harity, q, hq, hname, rfl⟩ := parameterNamed?_eq_some hps
    exact harity ▸ standsFor_zero (hparameters q (hhas q hq) harity hname rfl)
  unfold lookup at h
  rw [Option.orElse_eq_some, Option.orElse_eq_some] at h
  rcases h with h | ⟨-, h | ⟨-, h⟩⟩
  · exact hparameter (fun q hq => Or.inl hq) h
  · obtain ⟨k, hk, h⟩ := List.exists_of_findSome?_eq_some h
    unfold lookupContaining at h
    rw [Option.orElse_eq_some] at h
    rcases h with h | ⟨-, h⟩
    · exact hparameter (fun q hq => Or.inr ⟨k, hk, hq⟩) h
    · obtain ⟨k', hk', rfl⟩ := Option.map_eq_some_iff.mp h
      exact hd.standsFor_definition (Declarations.mem_of_type? hk')
        (by rw [Declarations.eq_of_type? hk']; rfl)
  · obtain ⟨l, -, hl⟩ := List.exists_of_findSome?_eq_some h
    exact hd.standsFor_lookupLevel hl

/-- **All meanings in a scope have what its type parameters have**, if that passes to the types made
of others. -/
theorem holds_resolve (hd : e.declarations.Permits holds) {s : Scope}
    (hparameters : ∀ q, e.Has s q → holds (.parameter q)) (t : TypeSyntax) :
    holds (e.resolve s t) :=
  TypeSyntax.holds_resolveWith hd (fun _ _ hparts =>
    hd.resolveName (fun _ _ _ h => standsFor_of_lookup hd h fun q hq _ _ _ => hparameters q hq) hparts) t

end Environment

end Facade
