import Facade.Proofs.Binding.Seen
import Facade.Proofs.Generation.Faithful

/-!
# The types in a facade are read back

A facade names the types of the interface by their texts, and stands at the declaration it extends.
There a text means the type again exactly if all that it names is seen from the declaration.

* `Model.ReadsBack`: a text is read at a declaration, and when it means the type;
* **`Model.readsBack_of_resolve`**: the interface, the return types and the parameter types of a facade
  are read back;
* `not_readsBack_of_nested`: a nested type of the container that is named like the namespace of the
  interface is in the way.
-/

namespace Facade

/-- If the names in the text of a type are read as names, the text is read as a written type, and
within the declaration that means the type exactly if all that it names is seen from there. -/
def Model.ReadsBack (m : Model) (site : TypeSite) (text : String) (t : TypeSymbol) : Prop :=
  m.program.IsLegible t → ∃ w, TypeSyntax.parse text = .ok w ∧
    (m.resolveAt site w = t ↔ m.Sees (m.environment.declarations.scopeAt site) t)

section

variable {units : List CompilationUnit}

theorem Model.readsBack_display {P : String → Prop} (hunits : ∀ u ∈ units, u.IsWritten P)
    {site : TypeSite} (hsite : site.IsWritten P) {t : TypeSymbol} (ht : t.IsWritten) :
    (Model.ofUnits units).ReadsBack site ((Model.ofUnits units).program.display t) t := by
  intro hlegible
  obtain ⟨w, hw⟩ := Model.exists_spelling hunits (Declarations.isWritten_scopeAt hunits hsite.site)
    (Declarations.seesGlobal_scopeAt _ site) ht hlegible
  refine ⟨w, ?_, hw.resolve⟩
  rw [← hw.text]
  exact TypeSyntax.parse_text hw.written hw.readable hw.clear

/-- **The types in a facade are read back** at the declaration that it extends: the interface, and the
return type and the parameter types of each of its methods. -/
theorem Model.readsBack_of_resolve
    (hparsed : ∀ u ∈ units, ∃ path source, CompilationUnit.parse path source = .ok u)
    {tree : Nat} {u : CompilationUnit} (hu : units[tree]? = some u) {site : TypeSite}
    (hsite : site ∈ u.candidates tree) {r : Resolution}
    (hr : (Model.ofUnits units).service.resolve site = .ok r) :
    (Model.ofUnits units).ReadsBack site r.target.displayName r.targetSymbol ∧
    List.Forall₂ (fun (f : MethodSymbol) (d : ForwardedMethod) =>
        (Model.ofUnits units).ReadsBack site d.returnType f.returnType ∧
        List.Forall₂ (fun (q : ParameterSymbol) (c : ForwardedParameter) =>
          (Model.ofUnits units).ReadsBack site c.type q.type) f.parameters d.parameters)
      ((Model.ofUnits units).service.forwardedMethods r.targetSymbol) r.target.methods := by
  have hunits : ∀ u ∈ units, u.IsWritten fun _ => True := by
    intro u hu
    obtain ⟨path, source, hparse⟩ := hparsed u hu
    exact CompilationUnit.isWritten_of_parse (fun _ _ => trivial) hparse
  have hsitew := (hunits u (List.mem_of_getElem? hu)).typeSites tree site (List.mem_filter.mp hsite).1
  have hread : ∀ t : TypeSymbol, t.IsWritten →
      (Model.ofUnits units).ReadsBack site ((Model.ofUnits units).program.display t) t :=
    fun _ => Model.readsBack_display hunits hsitew
  obtain ⟨-, htarget, hdescribe⟩ := Service.isWritten_targetSymbol hunits hr
  rw [hdescribe]
  refine ⟨hread _ htarget, List.forall₂_map_right_iff.mpr (List.forall₂_same.mpr fun f hf => ?_)⟩
  have hfw := (Model.isWritten_ofUnits hunits).methods htarget f (List.mem_filter.mp hf).1
  exact ⟨hread _ hfw.returnType, List.forall₂_map_right_iff.mpr (List.forall₂_same.mpr fun q hq =>
    hread _ (hfw.parameters q hq).type)⟩

end

section Example

/-- The program of one source, and what the first type that can host a facade asks for. -/
def resolved? (source : String) : Option (List CompilationUnit × TypeSite × Resolution) := do
  let unit ← (CompilationUnit.parse "src0.cs" source).toOption
  let units := [unit, Marker.unit]
  let site ← (unit.candidates 0).head?
  let r ← ((Model.ofUnits units).service.resolve site).toOption
  return (units, site, r)

theorem parsed_of_resolved {source : String} {units : List CompilationUnit} {site : TypeSite}
    {r : Resolution} (h : resolved? source = some (units, site, r)) :
    (∀ u ∈ units, ∃ path source, CompilationUnit.parse path source = .ok u) ∧
      (∃ u, units[0]? = some u ∧ site ∈ u.candidates 0) ∧
      (Model.ofUnits units).service.resolve site = .ok r := by
  simp only [resolved?, Option.pure_def, Option.bind_eq_bind, Option.bind_eq_some_iff,
    Option.some.injEq] at h
  obtain ⟨unit, hunit, site', hsite, r', hr, heq⟩ := h
  cases heq
  refine ⟨?_, ⟨unit, rfl, List.mem_of_mem_head? hsite⟩, eq_ok_of_toOption hr⟩
  simp only [List.mem_cons, List.not_mem_nil, or_false, forall_eq_or_imp, forall_eq]
  exact ⟨⟨_, _, eq_ok_of_toOption hunit⟩, _, _, parse_markerSource⟩

/-- An interface with a type parameter, and a container that puts its own in the place of it. -/
def genericSource : String :=
  "using FacadeGenerator;\nnamespace N \x7b\n public interface I<T> \x7b T Get(T[] at); \x7d\n" ++
    " public partial class C<U> : IFacadeGenerator<I<U>> \x7b \x7d\n\x7d\n"

/-- The interface `I`. -/
def genericInterface : DefinitionKey := .topLevel (some "N") "I" 1

/-- The type parameter of the container. -/
def containerParameter : TypeParameter := ⟨"U", 0, "N.C", none⟩

/-- **The text of the generic interface is read back** at its container. -/
theorem readsBack_of_generic : ∃ units site r,
    (∀ u ∈ units, ∃ path source, CompilationUnit.parse path source = .ok u) ∧
    (Model.ofUnits units).service.resolve site = .ok r ∧ r.target.displayName = "N.I<U>" ∧
    ∃ w, TypeSyntax.parse r.target.displayName = .ok w ∧
      (Model.ofUnits units).resolveAt site w = r.targetSymbol := by
  have hprogram : (resolved? genericSource).any (fun x =>
      let e := Environment.ofUnits x.1
      let s := e.declarations.scopeAt x.2.1
      decide (x.2.2.target.displayName = "N.I<U>" ∧
        x.2.2.targetSymbol = .constructed genericInterface [.parameter containerParameter] ∧
        e.Uncaptured s genericInterface ∧
        e.lookup s "U" 0 = some (.parameter containerParameter))) = true := by
    decide +kernel
  obtain ⟨⟨units, site, r⟩, hx, hfacts⟩ := (Option.any_eq_true _ _).mp hprogram
  obtain ⟨hname, htarget, huncaptured, hlookup⟩ := of_decide_eq_true hfacts
  obtain ⟨hparsed, ⟨u, hu, hsite⟩, hr⟩ := parsed_of_resolved hx
  have hnames : ∀ n ∈ ["N", "U"], ReadsAsName .typeStart n := by decide
  have hlegible : (Model.ofUnits units).program.IsLegible r.targetSymbol := by
    rw [htarget]
    refine .constructed ⟨fun n hn => ?_, fun o ho => absurd ho List.not_mem_nil⟩ ?_
    · have hfirst : genericInterface.path.head? = some ("N", 0) := by decide
      rw [hfirst] at hn
      exact Option.mem_some.mp hn ▸ hnames "N" (by simp)
    · intro a ha
      rw [List.mem_singleton.mp ha]
      exact .parameter (hnames "U" (by simp))
  have hsees : (Model.ofUnits units).Sees
      ((Model.ofUnits units).environment.declarations.scopeAt site) r.targetSymbol := by
    rw [htarget]
    refine .constructed rfl huncaptured fun a ha => ?_
    rw [List.mem_singleton.mp ha]
    exact .parameter hlookup
  obtain ⟨w, hparse, hresolve⟩ := (Model.readsBack_of_resolve hparsed hu hsite hr).1 hlegible
  exact ⟨units, site, r, hparsed, hr, hname, w, hparse, hresolve.mpr hsees⟩

/-- The container has a nested type that is named like the namespace. -/
def nestedSource : String :=
  "using FacadeGenerator;\nnamespace N \x7b\n public interface I \x7b void M(); \x7d\n" ++
    " public partial class C : IFacadeGenerator<I> \x7b class N \x7b \x7d \x7d\n\x7d\n"

/-- **A nested type of the container captures the name of the interface.** -/
theorem not_readsBack_of_nested :
    ¬ ∀ units : List CompilationUnit,
      (∀ u ∈ units, ∃ path source, CompilationUnit.parse path source = .ok u) →
      ∀ (tree : Nat) (u : CompilationUnit), units[tree]? = some u →
      ∀ site ∈ u.candidates tree, ∀ r, (Model.ofUnits units).service.resolve site = .ok r →
        ∃ w, TypeSyntax.parse r.target.displayName = .ok w ∧
          (Model.ofUnits units).resolveAt site w = r.targetSymbol := by
  intro h
  have hcaptured : (resolved? nestedSource).any (fun x =>
      (TypeSyntax.parse x.2.2.target.displayName).toOption.map
        ((Model.ofUnits x.1).resolveAt x.2.1) != some x.2.2.targetSymbol) = true := by
    decide +kernel
  obtain ⟨⟨units, site, r⟩, hx, hne⟩ := (Option.any_eq_true _ _).mp hcaptured
  obtain ⟨hparsed, ⟨u, hu, hsite⟩, hr⟩ := parsed_of_resolved hx
  obtain ⟨w, hparse, hresolve⟩ := h units hparsed 0 u hu site hsite r hr
  rw [hparse] at hne
  simp [Except.toOption, hresolve] at hne

end Example

end Facade
