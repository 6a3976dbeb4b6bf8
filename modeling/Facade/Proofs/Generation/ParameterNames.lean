import Facade.Proofs.Generation.TargetInterface
import Facade.Proofs.Symbol.Mentioned

/-!
# Type parameters with one name

A type argument of the interface is put into the methods of a facade under their own type parameters,
which keep their names. What stays in a signature is told apart by its names, for it is all written at
one place; what is put in can be named like any of it.

* `Environment.MeansItself`, `Environment.isOver_resolve_meansItself`: the type parameters in a resolved
  type are what their names mean;
* `MethodSymbol.occurring`, `MethodSymbol.kept`, `MethodSymbol.brought`: the type parameters in a
  signature, before and after a substitution;
* **`Service.printsApart_iff`**: when different type parameters of a forwarded method are printed with
  different names;
* `printsApart_of_renamed`: a container whose type parameter has a name of its own;
* `not_printsApart_of_captured`: one whose type parameter is named like that of the method.
-/

namespace Facade

/-! ## Names in a scope -/

namespace Environment

variable {e : Environment}

/-- The type parameter is what its name means in the scope. -/
def MeansItself (e : Environment) (s : Scope) (q : TypeParameter) : Prop :=
  e.lookup s q.name 0 = some (.parameter q)

theorem MeansItself.eq_of_name {s : Scope} {q q' : TypeParameter} (hq : e.MeansItself s q)
    (hq' : e.MeansItself s q') (hname : q.name = q'.name) : q = q' := by
  have hboth : some (TypeSymbol.parameter q) = some (.parameter q') :=
    hq.symm.trans (hname ▸ hq')
  simpa using hboth

/-- **The type parameters in a resolved type are what their names mean** where it is written. -/
theorem isOver_resolve_meansItself (s : Scope) (t : TypeSyntax) :
    (e.resolve s t).IsOver (e.MeansItself s) :=
  TypeSyntax.holds_resolveWith (e.declarations.permits_isOver _) (fun _ _ hparts =>
    (e.declarations.permits_isOver _).resolveName (fun _ _ _ h =>
      denotes_of_lookup h fun _ _ harity hname ht => by
        rw [MeansItself, hname, ← ht, ← harity]
        exact h) hparts) t

theorem meansItself_of_own {s : Scope} {q : TypeParameter} (hq : q ∈ s.methodParameters)
    (hnames : (s.methodParameters.map TypeParameter.name).Nodup) : e.MeansItself s q := by
  have hfind : s.methodParameters.find? (fun p => p.name == q.name) = some q := by
    cases hfound : s.methodParameters.find? (fun p => p.name == q.name) with
    | none => simpa using List.find?_eq_none.mp hfound q hq
    | some p =>
      have hname : p.name = q.name := by simpa using List.find?_some hfound
      rw [List.inj_on_of_nodup_map hnames (List.mem_of_find?_eq_some hfound) hq hname]
  simp [MeansItself, lookup, parameterNamed?, hfind]

end Environment

/-! ## Names in a signature -/

namespace TypeParameter

theorem nodup_ofSyntax (owner : String) (ps : List TypeParameterSyntax) :
    (ofSyntax owner ps).Nodup := by
  refine List.Nodup.of_map ordinal ?_
  have hordinals : (ofSyntax owner ps).map ordinal = List.range ps.length :=
    List.ext_getElem (by simp [ofSyntax]) (by simp [ofSyntax])
  exact hordinals ▸ List.nodup_range

end TypeParameter

/-- Of these type parameters different ones are printed with different names. -/
def Program.PrintsApart (p : Program) (qs : List TypeParameter) : Prop :=
  ∀ q ∈ qs, ∀ q' ∈ qs, p.display (.parameter q) = p.display (.parameter q') → q = q'

instance (p : Program) (qs : List TypeParameter) : Decidable (p.PrintsApart qs) :=
  inferInstanceAs (Decidable (∀ q ∈ qs, ∀ q' ∈ qs, _))

namespace MethodSymbol

/-- The type parameters that occur in a signature: the method's own and those that its types
mention. -/
def occurring (f : MethodSymbol) : List TypeParameter := f.typeParameters ++ f.mentioned

/-- The type parameters in a signature that a substitution leaves. -/
def kept (m : Substitution) (f : MethodSymbol) : List TypeParameter :=
  f.typeParameters ++ f.mentioned.filter (· ∉ m.map Prod.fst)

/-- The type parameters that a substitution brings into a signature. -/
def brought (m : Substitution) (f : MethodSymbol) : List TypeParameter :=
  (f.mentioned.filter (· ∈ m.map Prod.fst)).flatMap fun q => (m.apply q).parameters

/-- No type parameter that a substitution brings into the signature is named like another one that
stays or is brought there. -/
def BringsApart (m : Substitution) (f : MethodSymbol) : Prop :=
  ∀ q ∈ f.brought m, ∀ q' ∈ f.kept m ++ f.brought m, q.name = q'.name → q = q'

instance (m : Substitution) (f : MethodSymbol) : Decidable (f.BringsApart m) :=
  inferInstanceAs (Decidable (∀ q ∈ f.brought m, ∀ q' ∈ f.kept m ++ f.brought m, _))

theorem mem_occurring_substitute {m : Substitution} {f : MethodSymbol} {q : TypeParameter} :
    q ∈ (f.substitute m).occurring ↔ q ∈ f.kept m ++ f.brought m := by
  have hown : (f.substitute m).typeParameters = f.typeParameters := rfl
  have hstays : ∀ {x}, x ∉ m.map Prod.fst → m.apply x = .parameter x := by
    intro x hx
    exact Substitution.apply_of_forall_ne fun e he heq => hx (heq ▸ List.mem_map_of_mem he)
  simp only [occurring, kept, brought, hown, List.mem_append, mem_mentioned_substitute,
    List.mem_filter, List.mem_flatMap, decide_eq_true_eq, or_assoc]
  refine or_congr_right ⟨?_, ?_⟩
  · rintro ⟨x, hx, hq⟩
    by_cases hreplaced : x ∈ m.map Prod.fst
    · exact .inr ⟨x, ⟨hx, hreplaced⟩, hq⟩
    · rw [hstays hreplaced, TypeSymbol.parameters, List.mem_singleton] at hq
      exact .inl (hq ▸ ⟨hx, hreplaced⟩)
  · rintro (⟨hq, hstay⟩ | ⟨x, ⟨hx, -⟩, hq⟩)
    · exact ⟨q, hq, by rw [hstays hstay]; exact List.mem_singleton.mpr rfl⟩
    · exact ⟨x, hx, hq⟩

theorem mem_occurring_of_mem_kept {m : Substitution} {f : MethodSymbol} {q : TypeParameter}
    (h : q ∈ f.kept m) : q ∈ f.occurring :=
  (List.mem_append.mp h).elim (List.mem_append_left _) fun h =>
    List.mem_append_right _ (List.mem_filter.mp h).1

end MethodSymbol

namespace Environment

variable {e : Environment} {owner : DefinitionKey} {kind : TypeKind} {s : Scope}
  {m : MethodDeclaration}

theorem eq_of_name_of_occurring
    (hnames : ((e.bindMethod owner kind s m).typeParameters.map TypeParameter.name).Nodup)
    {q q' : TypeParameter} (hq : q ∈ (e.bindMethod owner kind s m).occurring)
    (hq' : q' ∈ (e.bindMethod owner kind s m).occurring) (hname : q.name = q'.name) : q = q' := by
  have hself : ∀ x ∈ (e.bindMethod owner kind s m).occurring, e.MeansItself
      { s with methodParameters := (e.bindMethod owner kind s m).typeParameters } x := by
    intro x hx
    rcases List.mem_append.mp hx with hown | hmentioned
    · exact meansItself_of_own hown hnames
    · exact (isOver_bindMethod_of_resolve fun t =>
        isOver_resolve_meansItself _ t).of_mem_mentioned hmentioned
  exact (hself q hq).eq_of_name (hself q' hq') hname

/-- **Names after a substitution**: they tell the type parameters apart if those of the method do, and
those that are brought in do. -/
theorem printsApart_substitute (p : Program) (σ : Substitution) :
    p.PrintsApart ((e.bindMethod owner kind s m).substitute σ).occurring ↔
      ((e.bindMethod owner kind s m).typeParameters.map TypeParameter.name).Nodup ∧
        (e.bindMethod owner kind s m).BringsApart σ := by
  constructor
  case mp =>
    intro h
    have hall : ∀ q ∈ (e.bindMethod owner kind s m).kept σ ++
          (e.bindMethod owner kind s m).brought σ,
        ∀ q' ∈ (e.bindMethod owner kind s m).kept σ ++ (e.bindMethod owner kind s m).brought σ,
        q.name = q'.name → q = q' := fun q hq q' hq' hname =>
      h q (MethodSymbol.mem_occurring_substitute.mpr hq) q'
        (MethodSymbol.mem_occurring_substitute.mpr hq') hname
    refine ⟨?_, fun q hq => hall q (List.mem_append_right _ hq)⟩
    exact (List.nodup_map_iff_inj_on (TypeParameter.nodup_ofSyntax _ _)).mpr fun q hq q' hq' =>
      hall q (List.mem_append_left _ (List.mem_append_left _ hq)) q'
        (List.mem_append_left _ (List.mem_append_left _ hq'))
  case mpr =>
    rintro ⟨hnames, hbrought⟩ q hq q' hq' (hname : q.name = q'.name)
    rw [MethodSymbol.mem_occurring_substitute] at hq hq'
    rcases List.mem_append.mp hq with hkept | hin
    · rcases List.mem_append.mp hq' with hkept' | hin'
      · exact eq_of_name_of_occurring hnames (MethodSymbol.mem_occurring_of_mem_kept hkept)
          (MethodSymbol.mem_occurring_of_mem_kept hkept') hname
      · exact (hbrought q' hin' q hq hname.symm).symm
    · exact hbrought q hin q' hq' hname

end Environment

/-! ## Facades -/

section

variable {units : List CompilationUnit}

theorem Model.exists_of_mem_declaredMethods {m : Model} {k : DefinitionKey} {f : MethodSymbol}
    (h : f ∈ m.declaredMethods k) :
    ∃ s g, f = m.environment.bindMethod k .interfaceKind s g := by
  obtain ⟨site, -, hsite⟩ := List.mem_flatMap.mp h
  obtain ⟨member, -, hmember⟩ := List.mem_filterMap.mp hsite
  split at hmember
  · next g => exact ⟨_, g, (Option.some.inj hmember).symm⟩
  · cases hmember

/-- **Different type parameters are printed with different names** in a forwarded method if and only if
those of the method itself have different names, and none in the type arguments of the interface that
the signature mentions is named like another one there. -/
theorem Service.printsApart_iff {site : TypeSite} {r : Resolution}
    (hr : (Model.ofUnits units).service.resolve site = .ok r) {f : MethodSymbol}
    (hf : f ∈ (Model.ofUnits units).service.forwardedMethods r.targetSymbol) :
    let p := (Model.ofUnits units).program
    ∃ d, p.IsInterface r.targetSymbol d ∧ ∃ g ∈ (Model.ofUnits units).declaredMethods d.key,
      f = g.substitute (p.arguments r.targetSymbol) ∧
      (p.PrintsApart f.occurring ↔ (g.typeParameters.map TypeParameter.name).Nodup ∧
        g.BringsApart (p.arguments r.targetSymbol)) := by
  intro p
  obtain ⟨-, -, -, -, hkind, -⟩ := Service.resolve_eq_ok hr
  have hplain : ∀ t, r.targetSymbol ≠ .nullable t := by
    intro t ht
    rw [ht, Service.forwardedMethods_nullable] at hf
    cases hf
  obtain ⟨d, hd⟩ := Program.exists_isInterface hplain hkind
  rw [Service.forwardedMethods_eq hd] at hf
  obtain ⟨g, hg, rfl⟩ := List.mem_map.mp hf
  have hdeclared := (List.mem_filter.mp hg).1
  obtain ⟨s, written, hwritten⟩ := Model.exists_of_mem_declaredMethods hdeclared
  exact ⟨d, hd, g, hdeclared, rfl, hwritten ▸ Environment.printsApart_substitute _ _⟩

end

section Example

/-- A generic interface with a generic method, and a container whose type parameter has a name of its
own. -/
def renamedSource : String :=
  "using FacadeGenerator;\nnamespace N \x7b\n public interface I<T> \x7b void M<U>(T a, U b); \x7d\n" ++
    " public partial class C<V> : IFacadeGenerator<I<V>> \x7b \x7d\n\x7d\n"

/-- **With a name of its own the type parameter stays apart** from that of the method. -/
theorem printsApart_of_renamed : ∃ units site r f,
    (Model.ofUnits units).service.resolve site = .ok r ∧
    f ∈ (Model.ofUnits units).service.forwardedMethods r.targetSymbol ∧
    ((Model.ofUnits units).service.describeMethod f).parameters.map ForwardedParameter.type =
      ["V", "U"] ∧
    (Model.ofUnits units).program.PrintsApart f.occurring := by
  have hprogram : (resolved? renamedSource).any (fun x =>
      let m := Model.ofUnits x.1
      let σ := m.program.arguments x.2.2.targetSymbol
      decide (x.2.2.targetSymbol.key? = some genericInterface ∧
        (∀ g ∈ m.declaredMethods genericInterface,
          (g.typeParameters.map TypeParameter.name).Nodup ∧ g.BringsApart σ) ∧
        (m.service.forwardedMethods x.2.2.targetSymbol).map (fun f =>
          (m.service.describeMethod f).parameters.map ForwardedParameter.type) = [["V", "U"]])) =
      true := by
    decide +kernel
  obtain ⟨⟨units, site, r⟩, hx, hfacts⟩ := (Option.any_eq_true _ _).mp hprogram
  obtain ⟨hkey, hnames, htexts⟩ := of_decide_eq_true hfacts
  obtain ⟨-, -, hr⟩ := parsed_of_resolved hx
  obtain ⟨f, hforwarded, htypes⟩ := List.map_eq_singleton_iff.mp htexts
  have hf : f ∈ (Model.ofUnits units).service.forwardedMethods r.targetSymbol :=
    hforwarded ▸ List.mem_singleton.mpr rfl
  obtain ⟨d, hd, g, hg, -, happart⟩ := Service.printsApart_iff hr hf
  have hsame : d.key = genericInterface := Option.some.inj (hd.key?.symm.trans hkey)
  exact ⟨units, site, r, f, hr, hf, htypes, happart.mpr (hnames g (hsame ▸ hg))⟩

/-- A container whose type parameter is named like that of the method. -/
def capturedSource : String :=
  "using FacadeGenerator;\nnamespace N \x7b\n public interface I<T> \x7b void M<U>(T a, U b); \x7d\n" ++
    " public partial class C<U> : IFacadeGenerator<I<U>> \x7b \x7d\n\x7d\n"

/-- **The type parameter of the method captures the one of the container** in the text. -/
theorem not_printsApart_of_captured :
    ¬ ∀ units : List CompilationUnit,
      (∀ u ∈ units, ∃ path source, CompilationUnit.parse path source = .ok u) →
      ∀ site r, (Model.ofUnits units).service.resolve site = .ok r →
        ∀ f ∈ (Model.ofUnits units).service.forwardedMethods r.targetSymbol,
          (Model.ofUnits units).program.PrintsApart f.occurring := by
  intro h
  have hcaptured : (resolved? capturedSource).any
      (fun (x : List CompilationUnit × TypeSite × Resolution) =>
        let m := Model.ofUnits x.1
        decide (¬ ∀ f ∈ m.service.forwardedMethods x.2.2.targetSymbol,
          m.program.PrintsApart f.occurring)) = true := by
    decide +kernel
  obtain ⟨⟨units, site, r⟩, hx, hfacts⟩ := (Option.any_eq_true _ _).mp hcaptured
  obtain ⟨hparsed, -, hr⟩ := parsed_of_resolved hx
  exact of_decide_eq_true hfacts (h units hparsed site r hr)

end Example

end Facade
