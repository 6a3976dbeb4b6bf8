import Facade.Proofs.Symbol.Closure
import Facade.Proofs.Symbol.Written

/-!
# Simultaneous substitution

Types in the place of type parameters, twice in a row, and what a constructed type declares when its
type arguments are replaced. A type nested in a generic one also sees type parameters that its own type
arguments say nothing about, so nothing of this holds there.

* `TypeSymbol.IsOver`, `MethodSymbol.IsOver`: the type parameters that a symbol may mention;
* `TypeSymbol.IsOver.substitute_substitute`: two substitutions are one;
* `Program.IsScoped`: base lists and methods mention the type parameters that are in scope there;
* **`Program.IsScoped.interfaces_substitute`**, `Program.IsScoped.baseType_substitute`,
  `Program.IsScoped.methods_substitute`: what a constructed type declares.
-/

namespace Facade

/-! ## Lookup -/

namespace Substitution

variable {q : TypeParameter} {ps : List TypeParameter} {as : List TypeSymbol}

theorem apply_of_forall_ne {m : Substitution} (h : ∀ e ∈ m, e.1 ≠ q) : m.apply q = .parameter q := by
  have hnone : m.find? (fun e => e.1 == q) = none :=
    List.find?_eq_none.mpr fun e he => by simpa using h e he
  rw [apply, hnone]

theorem apply_zip_of_not_mem (hq : q ∉ ps) : Substitution.apply (ps.zip as) q = .parameter q :=
  apply_of_forall_ne fun e he => by
    obtain ⟨q', t⟩ := e
    rintro rfl
    exact hq (List.of_mem_zip he).1

theorem apply_zip_cons (p : TypeParameter) (a : TypeSymbol) :
    Substitution.apply ((p :: ps).zip (a :: as)) q =
      if p = q then a else Substitution.apply (ps.zip as) q := by
  by_cases h : p = q <;> simp [apply, h]

theorem substitute_apply_zip (hlength : as.length = ps.length) (hq : q ∈ ps) (m : Substitution) :
    (Substitution.apply (ps.zip as) q).substitute m =
      Substitution.apply (ps.zip (as.map (TypeSymbol.substitute m))) q := by
  induction ps generalizing as with
  | nil => cases hq
  | cons p ps ih =>
    cases as with
    | nil => cases hlength
    | cons a as =>
      rw [List.map_cons, apply_zip_cons, apply_zip_cons]
      split_ifs with hpq
      · rfl
      · exact ih (Nat.succ.inj hlength) ((List.mem_cons.mp hq).resolve_left (Ne.symm hpq))

end Substitution

/-! ## The type parameters of a symbol -/

/-- A symbol that mentions only type parameters among `A`, and gives every declared type as many type
arguments as it has type parameters. -/
inductive TypeSymbol.IsOver (A : TypeParameter → Prop) : TypeSymbol → Prop
  | special {k} : IsOver A (.special k)
  | parameter {q} : A q → IsOver A (.parameter q)
  | unresolved {n as} : (∀ a ∈ as, IsOver A a) → IsOver A (.unresolved n as)
  | array {e rank} : IsOver A e → IsOver A (.array e rank)
  | nullable {e} : IsOver A e → IsOver A (.nullable e)
  | pointer {e} : IsOver A e → IsOver A (.pointer e)
  | tuple {es} : (∀ e ∈ es, IsOver A (Prod.fst e)) → IsOver A (.tuple es)
  | definition {k} : DefinitionKey.arity k = 0 → IsOver A (.definition k)
  | constructed {k as} : as.length = DefinitionKey.arity k → (∀ a ∈ as, IsOver A a) →
      IsOver A (.constructed k as)

namespace TypeSymbol

variable {A B : TypeParameter → Prop} {t : TypeSymbol} {l m n : Substitution}

/-- **Two substitutions are one**, if they are for each type parameter that is mentioned. -/
theorem IsOver.substitute_substitute (h : t.IsOver A)
    (hq : ∀ q, A q → (l.apply q).substitute m = n.apply q) :
    (t.substitute l).substitute m = t.substitute n := by
  induction h with
  | special => rfl
  | parameter h => exact hq _ h
  | unresolved _ ih =>
    simp only [substitute, substituteAll_eq_map, List.map_map]
    exact congrArg _ (List.map_congr_left ih)
  | array _ ih => rw [substitute, substitute, ih, substitute]
  | nullable _ ih => rw [substitute, substitute, ih, substitute]
  | pointer _ ih => rw [substitute, substitute, ih, substitute]
  | tuple _ ih =>
    simp only [substitute, substituteElements_eq_map, List.map_map]
    exact congrArg _ (List.map_congr_left fun e he => congrArg (·, e.2) (ih e he))
  | definition => rfl
  | constructed _ _ ih =>
    simp only [substitute, substituteAll_eq_map, List.map_map]
    exact congrArg _ (List.map_congr_left ih)

theorem IsOver.substitute_self (h : t.IsOver A) (hq : ∀ q, A q → m.apply q = .parameter q) :
    t.substitute m = t := by
  induction h with
  | special => rfl
  | parameter h => exact hq _ h
  | unresolved _ ih =>
    rw [substitute, substituteAll_eq_map, List.map_congr_left ih, List.map_id']
  | array _ ih => rw [substitute, ih]
  | nullable _ ih => rw [substitute, ih]
  | pointer _ ih => rw [substitute, ih]
  | tuple _ ih =>
    rw [substitute, substituteElements_eq_map,
      List.map_congr_left fun e he => congrArg (·, e.2) (ih e he), List.map_id']
  | definition => rfl
  | constructed _ _ ih =>
    rw [substitute, substituteAll_eq_map, List.map_congr_left ih, List.map_id']

theorem IsOver.substitute (h : t.IsOver A) (hq : ∀ q, A q → (m.apply q).IsOver B) :
    (t.substitute m).IsOver B := by
  induction h with
  | special => exact .special
  | parameter h => exact hq _ h
  | unresolved _ ih =>
    rw [TypeSymbol.substitute, substituteAll_eq_map]
    exact .unresolved (by simpa using ih)
  | array _ ih => exact .array ih
  | nullable _ ih => exact .nullable ih
  | pointer _ ih => exact .pointer ih
  | tuple _ ih =>
    rw [TypeSymbol.substitute, substituteElements_eq_map]
    refine .tuple fun e he => ?_
    obtain ⟨e', he', rfl⟩ := List.mem_map.mp he
    exact ih e' he'
  | definition h => exact .definition h
  | constructed h _ ih =>
    rw [TypeSymbol.substitute, substituteAll_eq_map]
    exact .constructed (by simpa using h) (by simpa using ih)

theorem IsOver.mono (h : t.IsOver A) (hAB : ∀ q, A q → B q) : t.IsOver B := by
  induction h with
  | special => exact .special
  | parameter h => exact .parameter (hAB _ h)
  | unresolved _ ih => exact .unresolved ih
  | array _ ih => exact .array ih
  | nullable _ ih => exact .nullable ih
  | pointer _ ih => exact .pointer ih
  | tuple _ ih => exact .tuple ih
  | definition h => exact .definition h
  | constructed h _ ih => exact .constructed h ih

end TypeSymbol

/-- A constraint that mentions only type parameters among `A`. -/
def ConstraintSymbol.IsOver (A : TypeParameter → Prop) : ConstraintSymbol → Prop
  | special _ => True
  | type t => t.IsOver A

/-- A method whose signature mentions only type parameters among `A`. -/
structure MethodSymbol.IsOver (A : TypeParameter → Prop) (f : MethodSymbol) : Prop where
  returnType : f.returnType.IsOver A
  parameters : ∀ q ∈ f.parameters, q.type.IsOver A
  constraints : ∀ c ∈ f.constraintClauses, ∀ k ∈ c.constraints, k.IsOver A

theorem MethodSymbol.IsOver.mono {A B : TypeParameter → Prop} {f : MethodSymbol} (h : f.IsOver A)
    (hAB : ∀ q, A q → B q) : f.IsOver B where
  returnType := h.returnType.mono hAB
  parameters q hq := (h.parameters q hq).mono hAB
  constraints c hc k hk := by
    have hover := h.constraints c hc k hk
    cases k with
    | special => trivial
    | type t => exact TypeSymbol.IsOver.mono hover hAB

/-- Two substitutions in a signature are one. -/
theorem MethodSymbol.IsOver.substitute_substitute {A : TypeParameter → Prop} {f : MethodSymbol}
    {l m n : Substitution} (h : f.IsOver A)
    (hq : ∀ q, A q → (l.apply q).substitute m = n.apply q) :
    (f.substitute l).substitute m = f.substitute n := by
  have hparameters : ∀ q ∈ f.parameters,
      (ParameterSymbol.substitute m ∘ ParameterSymbol.substitute l) q = q.substitute n :=
    fun q hmem => by
      simp only [Function.comp, ParameterSymbol.substitute,
        (h.parameters q hmem).substitute_substitute hq]
  have hclauses : ∀ c ∈ f.constraintClauses,
      (ConstraintClauseSymbol.substitute m ∘ ConstraintClauseSymbol.substitute l) c =
        c.substitute n := fun c hc => by
    have hconstraints : ∀ k ∈ c.constraints,
        (ConstraintSymbol.substitute m ∘ ConstraintSymbol.substitute l) k = k.substitute n :=
      fun k hk => by
        have hover := h.constraints c hc k hk
        cases k with
        | special => rfl
        | type t =>
          simp only [Function.comp, ConstraintSymbol.substitute,
            TypeSymbol.IsOver.substitute_substitute hover hq]
    simp only [Function.comp, ConstraintClauseSymbol.substitute, List.map_map,
      List.map_congr_left hconstraints]
  simp only [MethodSymbol.substitute, List.map_map, h.returnType.substitute_substitute hq,
    List.map_congr_left hparameters, List.map_congr_left hclauses]

/-! ## Programs -/

/-- The type is nested in a generic type. -/
def DefinitionKey.IsInGeneric (k : DefinitionKey) : Prop := ∃ o ∈ k.withOuter.tail, o.arity ≠ 0

instance (k : DefinitionKey) : Decidable k.IsInGeneric :=
  inferInstanceAs (Decidable (∃ o ∈ k.withOuter.tail, o.arity ≠ 0))

theorem DefinitionKey.withOuter_eq_cons (k : DefinitionKey) :
    k.withOuter = k :: k.withOuter.tail := by
  cases k <;> rfl

namespace Program

/-- The type parameter belongs to the type or to one that contains it. -/
def InScope (p : Program) (k : DefinitionKey) (q : TypeParameter) : Prop :=
  ∃ o ∈ k.withOuter, q ∈ p.typeParameters o

/-- The type parameters that base lists and methods mention are in scope where they stand. -/
structure IsScoped (p : Program) : Prop where
  arity : ∀ d ∈ p.definitions, d.typeParameters.length = d.key.arity
  bases : ∀ d ∈ p.definitions, ∀ b ∈ d.interfaces ++ d.baseType.toList, b.IsOver (p.InScope d.key)
  methods : ∀ d ∈ p.definitions, ∀ f ∈ d.methods,
    f.IsOver fun q => p.InScope d.key q ∨ q ∈ f.typeParameters

variable {p : Program}

theorem definition?_eq_some {k : DefinitionKey} {d : Definition} (h : p.definition? k = some d) :
    d ∈ p.definitions ∧ d.key = k :=
  ⟨List.mem_of_find?_eq_some h, by simpa using List.find?_some h⟩

theorem IsScoped.length_typeParameters (hp : p.IsScoped) (k : DefinitionKey) :
    p.typeParameters k = [] ∨ (p.typeParameters k).length = k.arity := by
  unfold typeParameters
  split
  · next d hd =>
    obtain ⟨hmem, rfl⟩ := definition?_eq_some hd
    exact Or.inr (hp.arity d hmem)
  · exact Or.inl rfl

theorem IsScoped.mem_of_inScope (hp : p.IsScoped) {k : DefinitionKey} (hk : ¬ k.IsInGeneric)
    {q : TypeParameter} (h : p.InScope k q) : q ∈ p.typeParameters k := by
  obtain ⟨o, ho, hq⟩ := h
  rw [DefinitionKey.withOuter_eq_cons, List.mem_cons] at ho
  rcases ho with rfl | ho
  · exact hq
  · have harity : o.arity = 0 := by_contra fun hne => hk ⟨o, ho, hne⟩
    have hnil : p.typeParameters o = [] := (hp.length_typeParameters o).elim id fun h =>
      List.length_eq_zero_iff.mp (h.trans harity)
    rw [hnil] at hq
    cases hq

section Constructed

variable {k : DefinitionKey} {as : List TypeSymbol}

theorem interfaces_constructed {d : Definition} (hd : p.definition? k = some d) :
    p.interfaces (.constructed k as) =
      d.interfaces.map (TypeSymbol.substitute ((p.typeParameters k).zip as)) := by
  simp only [interfaces, definitionOf?, TypeSymbol.key?, Option.bind_eq_bind, Option.bind_some, hd,
    arguments]

theorem baseType?_constructed {d : Definition} (hd : p.definition? k = some d) :
    p.baseType? (.constructed k as) =
      d.baseType.map (TypeSymbol.substitute ((p.typeParameters k).zip as)) := by
  simp only [baseType?, definitionOf?, TypeSymbol.key?, Option.bind_eq_bind, Option.bind_some, hd,
    arguments, Option.pure_def, Option.map_eq_bind, Function.comp_def]

theorem methods_constructed {d : Definition} (hd : p.definition? k = some d) :
    p.methods (.constructed k as) =
      d.methods.map (MethodSymbol.substitute ((p.typeParameters k).zip as)) := by
  simp only [methods, definitionOf?, TypeSymbol.key?, Option.bind_eq_bind, Option.bind_some, hd,
    arguments]

theorem methods_eq_nil_of_undefined {t : TypeSymbol} (ht : t.key? = some k)
    (hk : p.definition? k = none) : p.methods t = [] := by
  simp [methods, definitionOf?, ht, hk]

theorem substitute_constructed_eq (m : Substitution) :
    (TypeSymbol.constructed k as).substitute m =
      .constructed k (as.map (TypeSymbol.substitute m)) := by
  rw [TypeSymbol.substitute, TypeSymbol.substituteAll_eq_map]

theorem IsScoped.substitute_apply (hp : p.IsScoped) (hk : ¬ k.IsInGeneric)
    (has : as.length = k.arity) (m : Substitution) {q : TypeParameter} (hq : p.InScope k q) :
    (Substitution.apply ((p.typeParameters k).zip as) q).substitute m =
      Substitution.apply ((p.typeParameters k).zip (as.map (TypeSymbol.substitute m))) q := by
  have hmem := hp.mem_of_inScope hk hq
  refine Substitution.substitute_apply_zip ?_ hmem m
  rcases hp.length_typeParameters k with hnil | hlength
  · rw [hnil] at hmem
    cases hmem
  · rw [has, hlength]

/-- **The interfaces of a constructed type whose type arguments are replaced.** -/
theorem IsScoped.interfaces_substitute (hp : p.IsScoped) (hk : ¬ k.IsInGeneric)
    (has : as.length = k.arity) (m : Substitution) :
    p.interfaces ((TypeSymbol.constructed k as).substitute m) =
      (p.interfaces (.constructed k as)).map (TypeSymbol.substitute m) := by
  rw [substitute_constructed_eq]
  cases hd : p.definition? k with
  | none => rw [interfaces_eq_nil_of_undefined rfl hd, interfaces_eq_nil_of_undefined rfl hd]; rfl
  | some d =>
    obtain ⟨hmem, rfl⟩ := definition?_eq_some hd
    rw [interfaces_constructed hd, interfaces_constructed hd, List.map_map]
    refine List.map_congr_left fun b hb => ?_
    exact ((hp.bases d hmem b (List.mem_append_left _ hb)).substitute_substitute fun q hq =>
      hp.substitute_apply hk has m hq).symm

/-- **The base class of a constructed type whose type arguments are replaced.** -/
theorem IsScoped.baseType_substitute (hp : p.IsScoped) (hk : ¬ k.IsInGeneric)
    (has : as.length = k.arity) (m : Substitution) :
    p.baseType? ((TypeSymbol.constructed k as).substitute m) =
      (p.baseType? (.constructed k as)).map (TypeSymbol.substitute m) := by
  rw [substitute_constructed_eq]
  cases hd : p.definition? k with
  | none => rw [baseType?_eq_none_of_undefined rfl hd, baseType?_eq_none_of_undefined rfl hd]; rfl
  | some d =>
    obtain ⟨hmem, rfl⟩ := definition?_eq_some hd
    rw [baseType?_constructed hd, baseType?_constructed hd, Option.map_map]
    refine Option.map_congr fun b hb => ?_
    exact ((hp.bases d hmem b (List.mem_append_right _ (by simpa using hb))).substitute_substitute
      fun q hq => hp.substitute_apply hk has m hq).symm

/-- **The methods of a constructed type whose type arguments are replaced**, if no type parameter of a
method is. -/
theorem IsScoped.methods_substitute (hp : p.IsScoped) (hk : ¬ k.IsInGeneric)
    (has : as.length = k.arity) {m : Substitution}
    (hm : ∀ d ∈ p.definitions, ∀ f ∈ d.methods, ∀ q ∈ f.typeParameters, m.apply q = .parameter q) :
    p.methods ((TypeSymbol.constructed k as).substitute m) =
      (p.methods (.constructed k as)).map (MethodSymbol.substitute m) := by
  rw [substitute_constructed_eq]
  cases hd : p.definition? k with
  | none => rw [methods_eq_nil_of_undefined rfl hd, methods_eq_nil_of_undefined rfl hd]; rfl
  | some d =>
    obtain ⟨hmem, rfl⟩ := definition?_eq_some hd
    rw [methods_constructed hd, methods_constructed hd, List.map_map]
    refine List.map_congr_left fun f hf =>
      ((hp.methods d hmem f hf).substitute_substitute fun q hq => ?_).symm
    by_cases hown : p.InScope d.key q
    · exact hp.substitute_apply hk has m hown
    · -- the type parameter of a method: neither substitution has a type for it
      have hnot : q ∉ p.typeParameters d.key := fun h =>
        hown ⟨d.key, by rw [DefinitionKey.withOuter_eq_cons]; exact List.mem_cons_self, h⟩
      rw [Substitution.apply_zip_of_not_mem hnot, Substitution.apply_zip_of_not_mem hnot,
        TypeSymbol.substitute, hm d hmem f hf q (hq.resolve_left hown)]

theorem interfaces_definition (k : DefinitionKey) :
    p.interfaces (.definition k) = p.interfaces (.constructed k []) := by
  simp only [interfaces, definitionOf?, TypeSymbol.key?, arguments, List.zip_nil_right]

theorem baseType?_definition (k : DefinitionKey) :
    p.baseType? (.definition k) = p.baseType? (.constructed k []) := by
  simp only [baseType?, definitionOf?, TypeSymbol.key?, arguments, List.zip_nil_right]

end Constructed

end Program

end Facade
