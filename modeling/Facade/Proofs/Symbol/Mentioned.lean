import Facade.Proofs.Symbol.Substitution

/-!
# The type parameters that a symbol mentions

What a substitution does to the type parameters of a type, and to the types of a signature.

* `TypeSymbol.induct_all`: induction on a type and the types in it;
* `TypeSymbol.parameters`, **`TypeSymbol.mem_parameters_substitute`**: the type parameters of a type,
  and those of the types that take their place;
* `MethodSymbol.types`, `MethodSymbol.mentioned`: the types of a signature and their type parameters.
-/

namespace Facade

namespace TypeSymbol

/-- Induction on a type, from the types that it is made of. -/
@[elab_as_elim] theorem induct_all {motive : TypeSymbol → Prop}
    (special : ∀ k, motive (.special k)) (parameter : ∀ q, motive (.parameter q))
    (unresolved : ∀ n as, (∀ a ∈ as, motive a) → motive (.unresolved n as))
    (array : ∀ e rank, motive e → motive (.array e rank))
    (nullable : ∀ e, motive e → motive (.nullable e))
    (pointer : ∀ e, motive e → motive (.pointer e))
    (tuple : ∀ es, (∀ e ∈ es, motive (Prod.fst e)) → motive (.tuple es))
    (definition : ∀ k, motive (.definition k))
    (constructed : ∀ k as, (∀ a ∈ as, motive a) → motive (.constructed k as))
    (t : TypeSymbol) : motive t :=
  @TypeSymbol.rec motive (fun as => ∀ a ∈ as, motive a) (fun es => ∀ e ∈ es, motive (Prod.fst e))
    (fun e => motive e.1) special parameter unresolved array nullable pointer tuple definition
    constructed (fun _ ha => absurd ha List.not_mem_nil)
    (fun _ _ ht hts => List.forall_mem_cons.mpr ⟨ht, hts⟩) (fun _ he => absurd he List.not_mem_nil)
    (fun _ _ he hes => List.forall_mem_cons.mpr ⟨he, hes⟩) (fun _ _ ht => ht) t

/-! ## Types -/

mutual

/-- The type parameters that a type mentions. -/
def parameters : TypeSymbol → List TypeParameter
  | special _ | definition _ => []
  | parameter q => [q]
  | unresolved _ as | constructed _ as => parametersAll as
  | array e _ | nullable e | pointer e => parameters e
  | tuple es => parametersOfElements es

/-- The type parameters that types mention. -/
def parametersAll : List TypeSymbol → List TypeParameter
  | [] => []
  | t :: ts => parameters t ++ parametersAll ts

/-- The type parameters that tuple elements mention. -/
def parametersOfElements : List (TypeSymbol × Option String) → List TypeParameter
  | [] => []
  | (t, _) :: es => parameters t ++ parametersOfElements es

end

theorem parametersAll_eq_flatMap (ts : List TypeSymbol) :
    parametersAll ts = ts.flatMap parameters := by
  induction ts with
  | nil => rfl
  | cons t ts ih => rw [parametersAll, ih, List.flatMap_cons]

theorem parametersOfElements_eq_flatMap (es : List (TypeSymbol × Option String)) :
    parametersOfElements es = es.flatMap fun e => parameters e.1 := by
  induction es with
  | nil => rfl
  | cons e es ih => rw [parametersOfElements, ih, List.flatMap_cons]

/-- **The type parameters after a substitution** are those of the types that were put in. -/
theorem mem_parameters_substitute {m : Substitution} {q : TypeParameter} (t : TypeSymbol) :
    q ∈ (t.substitute m).parameters ↔ ∃ x ∈ t.parameters, q ∈ (m.apply x).parameters := by
  induction t using induct_all with
  | special | definition => simp [substitute, parameters]
  | parameter => simp [substitute, parameters]
  | array _ _ ih | nullable _ ih | pointer _ ih => simpa only [substitute, parameters] using ih
  | unresolved _ as ih | constructed _ as ih =>
    simp only [substitute, substituteAll_eq_map, parameters, parametersAll_eq_flatMap,
      List.flatMap_map, List.mem_flatMap]
    constructor
    · rintro ⟨a, ha, hq⟩
      obtain ⟨x, hx, hq⟩ := (ih a ha).mp hq
      exact ⟨x, ⟨a, ha, hx⟩, hq⟩
    · rintro ⟨x, ⟨a, ha, hx⟩, hq⟩
      exact ⟨a, ha, (ih a ha).mpr ⟨x, hx, hq⟩⟩
  | tuple es ih =>
    simp only [substitute, substituteElements_eq_map, parameters, parametersOfElements_eq_flatMap,
      List.flatMap_map, List.mem_flatMap]
    constructor
    · rintro ⟨e, he, hq⟩
      obtain ⟨x, hx, hq⟩ := (ih e he).mp hq
      exact ⟨x, ⟨e, he, hx⟩, hq⟩
    · rintro ⟨x, ⟨e, he, hx⟩, hq⟩
      exact ⟨e, he, (ih e he).mpr ⟨x, hx, hq⟩⟩

theorem IsOver.of_mem_parameters {A : TypeParameter → Prop} {t : TypeSymbol} (h : t.IsOver A)
    {q : TypeParameter} (hq : q ∈ t.parameters) : A q := by
  induction h with
  | special | definition => cases hq
  | parameter h => exact List.mem_singleton.mp hq ▸ h
  | array _ ih | nullable _ ih | pointer _ ih => exact ih hq
  | unresolved _ ih | constructed _ _ ih =>
    rw [parameters, parametersAll_eq_flatMap] at hq
    obtain ⟨a, ha, hq⟩ := List.mem_flatMap.mp hq
    exact ih a ha hq
  | tuple _ ih =>
    rw [parameters, parametersOfElements_eq_flatMap] at hq
    obtain ⟨e, he, hq⟩ := List.mem_flatMap.mp hq
    exact ih e he hq

end TypeSymbol

/-! ## Signatures -/

/-- The type that a constraint names. -/
def ConstraintSymbol.type? : ConstraintSymbol → Option TypeSymbol
  | special _ => none
  | type t => some t

namespace MethodSymbol

/-- The types in the signature of a method: of what it returns, of its parameters, and those that its
constraints name. -/
def types (f : MethodSymbol) : List TypeSymbol :=
  f.returnType :: f.parameters.map ParameterSymbol.type ++
    f.constraintClauses.flatMap fun c => c.constraints.filterMap ConstraintSymbol.type?

theorem types_substitute (m : Substitution) (f : MethodSymbol) :
    (f.substitute m).types = f.types.map (TypeSymbol.substitute m) := by
  have hconstraints (ks : List ConstraintSymbol) :
      (ks.map (ConstraintSymbol.substitute m)).filterMap ConstraintSymbol.type? =
        (ks.filterMap ConstraintSymbol.type?).map (TypeSymbol.substitute m) := by
    rw [List.filterMap_map, List.map_filterMap]
    refine List.filterMap_congr fun k _ => ?_
    cases k <;> rfl
  simp only [types, substitute, List.map_append, List.map_cons, List.map_map, List.flatMap_map,
    List.map_flatMap, ConstraintClauseSymbol.substitute, hconstraints]
  rfl

theorem IsOver.of_mem_types {A : TypeParameter → Prop} {f : MethodSymbol} (h : f.IsOver A)
    {t : TypeSymbol} (ht : t ∈ f.types) : t.IsOver A := by
  rcases List.mem_append.mp ht with ht | ht
  · rcases List.mem_cons.mp ht with rfl | ht
    · exact h.returnType
    · obtain ⟨q, hq, rfl⟩ := List.mem_map.mp ht
      exact h.parameters q hq
  · obtain ⟨c, hc, ht⟩ := List.mem_flatMap.mp ht
    obtain ⟨k, hk, hkt⟩ := List.mem_filterMap.mp ht
    cases k with
    | special => cases hkt
    | type u =>
      cases hkt
      exact h.constraints c hc _ hk

/-- The type parameters that the types in a signature mention. -/
def mentioned (f : MethodSymbol) : List TypeParameter := f.types.flatMap TypeSymbol.parameters

theorem mem_mentioned_substitute {m : Substitution} {f : MethodSymbol} {q : TypeParameter} :
    q ∈ (f.substitute m).mentioned ↔ ∃ x ∈ f.mentioned, q ∈ (m.apply x).parameters := by
  simp only [mentioned, types_substitute, List.flatMap_map, List.mem_flatMap,
    TypeSymbol.mem_parameters_substitute]
  constructor
  · rintro ⟨t, ht, x, hx, hq⟩
    exact ⟨x, ⟨t, ht, hx⟩, hq⟩
  · rintro ⟨x, ⟨t, ht, hx⟩, hq⟩
    exact ⟨t, ht, x, hx, hq⟩

theorem IsOver.of_mem_mentioned {A : TypeParameter → Prop} {f : MethodSymbol} (h : f.IsOver A)
    {q : TypeParameter} (hq : q ∈ f.mentioned) : A q := by
  obtain ⟨t, ht, hq⟩ := List.mem_flatMap.mp hq
  exact (h.of_mem_types ht).of_mem_parameters hq

end MethodSymbol

end Facade
