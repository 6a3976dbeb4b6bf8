import Facade.Proofs.Binding.Identity
import Facade.Proofs.Binding.Meanings
import Facade.Proofs.Symbol.Substitution

/-!
# Resolved types keep to their scope

Which type parameters a written type can mention: those of the method it stands in and of the types
around it. All else that a name can lead to, by namespaces, imports and aliases, mentions none.

* `Denotes`: what a simple name with type arguments may stand for;
* `Declarations.permits_isOver`: types made of such that keep to some type parameters keep to them;
* **`Environment.isOver_resolve`**: written types in a scope;
* **`Model.isScoped_ofUnits`**: bound programs.
-/

namespace Facade

variable {A : TypeParameter → Prop}

/-! ## Scopes -/

theorem DefinitionKey.isOver_construct {k : DefinitionKey} {as : List TypeSymbol}
    (hlength : as.length = k.arity) (has : ∀ a ∈ as, a.IsOver A) : (k.construct as).IsOver A := by
  unfold DefinitionKey.construct
  split_ifs with hempty
  · rw [List.isEmpty_iff.mp hempty] at hlength
    exact .definition hlength.symm
  · exact .constructed hlength has

theorem Declarations.permits_isOver (d : Declarations) (A : TypeParameter → Prop) :
    d.Permits (TypeSymbol.IsOver A) where
  special _ := .special
  unresolved _ _ h := .unresolved h
  array _ _ h := .array h
  nullable h := .nullable h
  pointer h := .pointer h
  tuple h := .tuple h
  construct _ hlength has := DefinitionKey.isOver_construct hlength has

/-- What a name with `arity` type arguments may stand for: with any of them it becomes a type that
keeps to the type parameters `A`. -/
def Denotes (A : TypeParameter → Prop) (arity : Nat) (t : TypeSymbol) : Prop :=
  ∀ q : ResolvedPart, q.arity = arity → (∀ a ∈ q.arguments, a.IsOver A) → (q.construct t).IsOver A

namespace Environment

variable {e : Environment}

/-- What a simple name stands for: the only type parameter that it can mention is the one of that name
in the scope. -/
theorem denotes_of_lookup {s : Scope} {n : String} {arity : Nat} {t : TypeSymbol}
    (h : e.lookup s n arity = some t)
    (hA : ∀ q, e.Has s q → arity = 0 → q.name = n → t = .parameter q → A q) :
    Denotes A arity t :=
  standsFor_of_lookup (e.declarations.permits_isOver A) h fun q hq harity hname ht =>
    .parameter (hA q hq harity hname ht)

theorem denotes_lookup {s : Scope} {n : String} {arity : Nat} {t : TypeSymbol}
    (h : e.lookup s n arity = some t) : Denotes (e.Has s) arity t :=
  denotes_of_lookup h fun _ hq _ _ _ => hq

/-- **A written type mentions only type parameters of its scope.** -/
theorem isOver_resolve (s : Scope) (t : TypeSyntax) : (e.resolve s t).IsOver (e.Has s) :=
  holds_resolve (e.declarations.permits_isOver (e.Has s)) (fun _ hq => .parameter hq) t

/-! ## Definitions -/

theorem mem_addBase {kind : TypeKind} {isFirst : Bool} {b : Bases} {t u : TypeSymbol}
    (h : u ∈ (e.addBase kind isFirst b t).interfaces ++
      (e.addBase kind isFirst b t).baseType.toList) :
    u = t ∨ u ∈ b.interfaces ++ b.baseType.toList := by
  unfold addBase at h
  split_ifs at h
  · rcases List.mem_append.mp h with h | h
    · exact Or.inr (List.mem_append_left _ h)
    · exact Or.inl (by simpa using h)
  · exact Or.inr h
  · rw [List.append_assoc, List.mem_append, List.mem_append, List.mem_singleton] at h
    rw [List.mem_append]
    tauto

theorem mem_foldl_addBase {kind : TypeKind} {isFirst : Bool} {ts : List TypeSymbol} {b : Bases}
    {u : TypeSymbol}
    (h : u ∈ (ts.foldl (e.addBase kind isFirst) b).interfaces ++
      (ts.foldl (e.addBase kind isFirst) b).baseType.toList) :
    u ∈ ts ∨ u ∈ b.interfaces ++ b.baseType.toList := by
  induction ts generalizing b with
  | nil => exact Or.inr h
  | cons t ts ih =>
    rcases ih h with h | h
    · exact Or.inl (List.mem_cons_of_mem _ h)
    · rcases mem_addBase h with rfl | h
      · exact Or.inl List.mem_cons_self
      · exact Or.inr h

theorem mem_addBases {kind : TypeKind} {ts : List TypeSymbol} {b : Bases} {u : TypeSymbol}
    (h : u ∈ (e.addBases kind b ts).interfaces ++ (e.addBases kind b ts).baseType.toList) :
    u ∈ ts ∨ u ∈ b.interfaces ++ b.baseType.toList := by
  cases ts with
  | nil => exact Or.inr h
  | cons first rest =>
    rcases mem_foldl_addBase h with h | h
    · exact Or.inl (List.mem_cons_of_mem _ h)
    · rcases mem_addBase h with rfl | h
      · exact Or.inl List.mem_cons_self
      · exact Or.inr h

theorem exists_of_mem_basesOf {kind : TypeKind} {sites : List TypeSite} {u : TypeSymbol}
    (h : u ∈ (e.basesOf kind sites).interfaces ++ (e.basesOf kind sites).baseType.toList) :
    ∃ s ∈ sites, ∃ t ∈ s.head.baseTypes, u = e.resolve (e.declarations.scopeAt s) t := by
  have hfold : ∀ (sites : List TypeSite) (b : Bases),
      u ∈ (sites.foldl (fun b s => e.addBases kind b
        (s.head.baseTypes.map (e.resolve (e.declarations.scopeAt s)))) b).interfaces ++
        (sites.foldl (fun b s => e.addBases kind b
        (s.head.baseTypes.map (e.resolve (e.declarations.scopeAt s)))) b).baseType.toList →
      (∃ s ∈ sites, ∃ t ∈ s.head.baseTypes, u = e.resolve (e.declarations.scopeAt s) t) ∨
        u ∈ b.interfaces ++ b.baseType.toList := by
    intro sites
    induction sites with
    | nil => exact fun b h => Or.inr h
    | cons s sites ih =>
      intro b h
      rcases ih _ h with ⟨s', hs', h⟩ | h
      · exact Or.inl ⟨s', List.mem_cons_of_mem _ hs', h⟩
      · rcases mem_addBases h with h | h
        · obtain ⟨t, ht, rfl⟩ := List.mem_map.mp h
          exact Or.inl ⟨s, List.mem_cons_self, t, ht, rfl⟩
        · exact Or.inr h
  rcases hfold sites ⟨none, []⟩ h with h | h
  · exact h
  · simp at h

theorem isOver_bindMethod_of_resolve {owner : DefinitionKey} {kind : TypeKind} {s : Scope}
    {m : MethodDeclaration}
    (h : ∀ t, (e.resolve { s with
      methodParameters := (e.bindMethod owner kind s m).typeParameters } t).IsOver A) :
    (e.bindMethod owner kind s m).IsOver A := by
  refine ⟨h _, fun q hq => ?_, fun c hc k hk => ?_⟩
  · obtain ⟨p, -, rfl⟩ := List.mem_map.mp hq
    exact h _
  · obtain ⟨clause, -, rfl⟩ := List.mem_map.mp hc
    obtain ⟨u, -, rfl⟩ := List.mem_map.mp hk
    cases u with
    | special => trivial
    | type t => exact h t

theorem isOver_bindMethod (owner : DefinitionKey) (kind : TypeKind) (s : Scope)
    (m : MethodDeclaration) :
    (e.bindMethod owner kind s m).IsOver fun q =>
      (∃ k ∈ s.containing, q ∈ e.program.typeParameters k) ∨
        q ∈ (e.bindMethod owner kind s m).typeParameters :=
  isOver_bindMethod_of_resolve fun _ => (isOver_resolve _ _).mono fun _ => Or.symm

end Environment

/-! ## Programs -/

section

variable {units : List CompilationUnit}

theorem Environment.mem_definitions {d : Definition}
    (h : d ∈ (Environment.ofUnits units).program.definitions) :
    d.sites = (Declarations.ofUnits units).sitesOf d.key ∧
      (∃ s ∈ d.sites, d.typeParameters =
        TypeParameter.ofSyntax d.key.ownerName s.head.typeParameters) ∧
      d.interfaces = [] ∧ d.baseType = none ∧ d.methods = [] := by
  obtain ⟨k, -, hk⟩ := List.mem_filterMap.mp h
  simp only [Declarations.define, Option.pure_def, Option.bind_eq_bind, Option.bind_eq_some_iff,
    Option.some.injEq] at hk
  obtain ⟨head, hhead, rfl⟩ := hk
  obtain ⟨s, hs, rfl⟩ := Option.map_eq_some_iff.mp hhead
  exact ⟨rfl, ⟨s, List.mem_of_mem_head? hs, rfl⟩, rfl, rfl, rfl⟩

theorem Environment.exists_of_mem_bind {d : Definition}
    (hd : d ∈ (Environment.ofUnits units).program.definitions) {b : TypeSymbol}
    (hb : b ∈ ((Environment.ofUnits units).bind d).interfaces ++
      ((Environment.ofUnits units).bind d).baseType.toList) :
    ∃ s ∈ d.sites, ∃ t ∈ s.head.baseTypes, b = (Environment.ofUnits units).resolve
      ((Environment.ofUnits units).declarations.scopeAt s) t := by
  obtain ⟨-, -, hinterfaces, hbase, -⟩ := Environment.mem_definitions hd
  have hnone : d.interfaces ++ d.baseType.toList = [] := by rw [hinterfaces, hbase]; rfl
  unfold Environment.bind at hb
  split at hb
  · rw [hnone] at hb; cases hb
  · rw [hnone] at hb; cases hb
  · exact Environment.exists_of_mem_basesOf hb

theorem Environment.exists_of_mem_methods {d : Definition}
    (hd : d ∈ (Environment.ofUnits units).program.definitions) {f : MethodSymbol}
    (hf : f ∈ ((Environment.ofUnits units).bind d).methods) :
    ∃ s ∈ d.sites, ∃ m, f = (Environment.ofUnits units).bindMethod d.key d.kind
      ((Environment.ofUnits units).declarations.scopeAt s) m := by
  obtain ⟨-, -, -, -, hnone⟩ := Environment.mem_definitions hd
  unfold Environment.bind at hf
  split at hf
  · rw [hnone] at hf; cases hf
  · rw [hnone] at hf; cases hf
  · obtain ⟨s, hs, hf⟩ := List.mem_flatMap.mp hf
    obtain ⟨member, -, hf⟩ := List.mem_filterMap.mp hf
    split at hf
    · cases hf
      exact ⟨s, hs, _, rfl⟩
    · cases hf

@[simp] theorem Environment.key_bind (e : Environment) (d : Definition) :
    (e.bind d).key = d.key := by
  unfold Environment.bind
  split <;> rfl

@[simp] theorem Environment.typeParameters_bind (e : Environment) (d : Definition) :
    (e.bind d).typeParameters = d.typeParameters := by
  unfold Environment.bind
  split <;> rfl

theorem Model.typeParameters_ofUnits (k : DefinitionKey) :
    (Model.ofUnits units).program.typeParameters k =
      (Environment.ofUnits units).program.typeParameters k := by
  have hfind : (Model.ofUnits units).program.definition? k =
      ((Environment.ofUnits units).program.definition? k).map (Environment.ofUnits units).bind := by
    simp only [Program.definition?, Model.ofUnits, List.find?_map, Function.comp_def,
      Environment.key_bind]
  unfold Program.typeParameters
  rw [hfind]
  cases (Environment.ofUnits units).program.definition? k with
  | none => rfl
  | some d => exact Environment.typeParameters_bind _ d

variable (units) in
/-- **Bound programs keep to their scopes.** -/
theorem Model.isScoped_ofUnits : (Model.ofUnits units).program.IsScoped := by
  have hinScope : ∀ k q, (∃ o ∈ k.withOuter,
      q ∈ (Environment.ofUnits units).program.typeParameters o) →
      (Model.ofUnits units).program.InScope k q := by
    rintro k q ⟨o, ho, hq⟩
    exact ⟨o, ho, (Model.typeParameters_ofUnits o).symm ▸ hq⟩
  have hcontaining : ∀ d ∈ (Environment.ofUnits units).program.definitions, ∀ s ∈ d.sites,
      ((Environment.ofUnits units).declarations.scopeAt s).containing = d.key.withOuter :=
    fun d hd s hs => Declarations.containing_scopeAt ((Environment.mem_definitions hd).1 ▸ hs)
  refine ⟨fun bound hbound => ?_, fun bound hbound b hb => ?_, fun bound hbound f hf => ?_⟩
  all_goals
    obtain ⟨d, hd, rfl⟩ := List.mem_map.mp hbound
    obtain ⟨hsites, ⟨s, hs, hparameters⟩, -⟩ := Environment.mem_definitions hd
  · rw [Environment.key_bind, Environment.typeParameters_bind, hparameters]
    rw [hsites] at hs
    rw [Declarations.arity_of_mem (Declarations.mem_sitesOf.mp hs)]
    simp [TypeParameter.ofSyntax, TypeHead.arity]
  · rw [Environment.key_bind]
    obtain ⟨s, hs, t, -, rfl⟩ := Environment.exists_of_mem_bind hd hb
    refine (Environment.isOver_resolve _ t).mono fun q hq => hinScope _ _ ?_
    rcases hq with hq | hq
    · exact absurd hq List.not_mem_nil
    · rwa [hcontaining d hd s hs] at hq
  · rw [Environment.key_bind]
    obtain ⟨s, hs, m, rfl⟩ := Environment.exists_of_mem_methods hd hf
    refine (Environment.isOver_bindMethod _ _ _ m).mono fun q hq => hq.imp_left fun hq => ?_
    rw [hcontaining d hd s hs] at hq
    exact hinScope _ _ hq

end

end Facade
