import Facade.Generator.Run
import Facade.Proofs.Generation.Decoding
import Facade.Proofs.Generation.Memo
import Facade.Proofs.Syntax.WrittenSource

/-!
# Fingerprints tell facades apart

If two candidates of parsed programs are hashed alike, what comes of them is the same, as long as no
default value goes on after its end. One that does, because it ends within a comment, can make two
different facades be hashed alike.

* `Described`: the pairs of containers and interfaces that come of parsed programs;
* `emit_same`: an outcome depends on what can be told from the hashed text alone;
* **`emit_same_of_facadeStream_eq`**: candidates with equal hashed texts have the same outcome;
* `facadeStream_not_faithful`: without the condition on default values they need not.
-/

namespace Facade

/-- The container and the interface are described by the resolution of a declaration of some program,
whose sources are parsed. -/
def Described (c : Container) (t : Target) : Prop :=
  ∃ units : List CompilationUnit,
    (∀ u ∈ units, ∃ path source, CompilationUnit.parse path source = .ok u) ∧
    ∃ tree, ∃ u ∈ units, ∃ site ∈ u.typeSites tree, ∃ r,
      (Model.ofUnits units).service.resolve site = .ok r ∧
      c = r.container (Model.ofUnits units).service ∧ t = r.target

theorem Described.isWritten {c : Container} {t : Target} (h : Described c t) :
    c.IsWritten ∧ t.IsWritten fun _ => True := by
  obtain ⟨units, hparsed, tree, u, hu, site, hsite, r, hr, rfl, rfl⟩ := h
  have hunits : ∀ u ∈ units, u.IsWritten fun _ => True := by
    intro u hu
    obtain ⟨path, source, hparse⟩ := hparsed u hu
    exact CompilationUnit.isWritten_of_parse (fun _ _ => trivial) hparse
  exact Service.isWritten_resolve hunits ((hunits u hu).typeSites tree site hsite) hr

/-! ## Outcomes -/

theorem members_eq {t u : Target} (hname : t.displayName = u.displayName)
    (hcode : t.methods.map ForwardedMethod.code = u.methods.map ForwardedMethod.code) :
    t.members = u.members := by
  have hmembers : ∀ t : Target, t.members =
      .line ("private partial " ++ t.displayName ++ " " ++ accessorName ++ "();") ::
        (t.methods.map ForwardedMethod.code).flatMap fun c => [.line "", c] := by
    intro t
    rw [Target.members, List.flatMap_map]
  rw [hmembers, hmembers, hname, hcode]

theorem code_eq {c d : Container} (h : c.Alike d) {t u : Target}
    (hname : t.displayName = u.displayName) (himports : t.imports = u.imports)
    (hcode : t.methods.map ForwardedMethod.code = u.methods.map ForwardedMethod.code)
    (space access : String) : c.code space access t = d.code space access u := by
  simp only [Container.code, Container.header, Container.outerHeaders, h.keyword, h.displayName,
    h.outerTypes, hname, himports, members_eq hname hcode]

theorem filter_space_eq {o p : Option String} (h : o.getD "" = p.getD "") :
    o.filter (!·.isEmpty) = p.filter (!·.isEmpty) := by
  have hfilter : ∀ o : Option String,
      o.filter (!·.isEmpty) = (some (o.getD "")).filter (!·.isEmpty) := by
    rintro (_ | s) <;> rfl
  rw [hfilter, h, ← hfilter]

/-- Alike containers have the same outcome for interfaces with the same text, imports and forwarding
methods. -/
theorem emit_same {c d : Container} (h : c.Alike d) {t u : Target}
    (hname : t.displayName = u.displayName) (himports : t.imports = u.imports)
    (hcode : t.methods.map ForwardedMethod.code = u.methods.map ForwardedMethod.code) :
    (emit c t).Same (emit d u) := by
  have hspace := filter_space_eq h.space
  unfold emit
  rw [hspace, h.accessibility]
  cases d.space.filter (!·.isEmpty) with
  | none => exact ⟨rfl, rfl⟩
  | some space =>
    cases d.accessibility.keyword? with
    | none => exact ⟨rfl, rfl⟩
    | some access =>
      simp only [Outcome.Same, Container.hintName, h.name, code_eq h hname himports hcode]

/-- **Candidates with equal hashed texts have the same outcome**: the same unit, or skips with the same
reason and detail. -/
theorem emit_same_of_facadeStream_eq {c d : Container} {t u : Target} (hct : Described c t)
    (hdu : Described d u) (ht : t.IsClosed) (hu : u.IsClosed)
    (h : facadeStream c t = facadeStream d u) : (emit c t).Same (emit d u) := by
  obtain ⟨hc, htw⟩ := hct.isWritten
  obtain ⟨hd, huw⟩ := hdu.isWritten
  have hlist := congrArg String.toList h
  have htarget : ∀ t : Target, t.stream.toList = "TARGET:".toList ++
      (t.displayName ++ "IMPORTS:" ++ nullEnded t.imports ++ "METHODS:" ++
        nullEnded (t.methods.map ForwardedMethod.signature)).toList := fun t => by
    simp [Target.stream]
  simp only [facadeStream, String.toList_append, List.append_assoc] at hlist
  have hrest := List.append_cancel_left (List.append_cancel_left hlist)
  rw [htarget, htarget] at hrest
  obtain ⟨halike, htext⟩ := Container.alike_of_stream hc hd hrest
  have hstream : t.stream.toList = u.stream.toList := by rw [htarget, htarget, htext]
  obtain ⟨hname, himports, hcode⟩ := Target.code_eq_of_stream htw huw ht hu hstream
  exact emit_same halike hname himports hcode

section Example

/-- A program with an interface of this member, and a type that asks for its facade. -/
def memberSource (member : String) : String :=
  "using FacadeGenerator;\nnamespace N \x7b\n public interface I \x7b " ++ member ++
    " \x7d\n public partial class C : IFacadeGenerator<I> \x7b \x7d\n\x7d\n"

/-- What the first type of a source that can host a facade is described by. -/
def described? (source : String) : Option (Container × Target) := do
  let unit ← (CompilationUnit.parse "src0.cs" source).toOption
  let units := [unit, Marker.unit]
  let service := (Model.ofUnits units).service
  let site ← (unit.candidates 0).head?
  let r ← (service.resolve site).toOption
  return (r.container service, r.target)

theorem parse_markerSource :
    CompilationUnit.parse Marker.hintName Marker.source = .ok Marker.unit := by
  have hparsed : (CompilationUnit.parse Marker.hintName Marker.source).toOption.isSome := by
    decide +kernel
  unfold Marker.unit
  cases h : CompilationUnit.parse Marker.hintName Marker.source with
  | error e => rw [h] at hparsed; cases hparsed
  | ok unit => rfl

theorem described_of_eq (source : String) {c : Container} {t : Target}
    (h : described? source = some (c, t)) : Described c t := by
  simp only [described?, Option.pure_def, Option.bind_eq_bind, Option.bind_eq_some_iff,
    Option.some.injEq] at h
  obtain ⟨unit, hunit, site, hsite, r, hr, heq⟩ := h
  cases heq
  have hparsed : CompilationUnit.parse "src0.cs" source = .ok unit := by
    cases hparse : CompilationUnit.parse "src0.cs" source with
    | error e => rw [hparse] at hunit; cases hunit
    | ok unit' => rw [hparse] at hunit; cases hunit; rfl
  have hresolve : (Model.ofUnits [unit, Marker.unit]).service.resolve site = .ok r := by
    cases hres : (Model.ofUnits [unit, Marker.unit]).service.resolve site with
    | error e => rw [hres] at hr; cases hr
    | ok r' => rw [hres] at hr; cases hr; rfl
  refine ⟨[unit, Marker.unit], ?_, 0, unit, by simp, site,
    (List.mem_filter.mp (List.mem_of_mem_head? hsite)).1, r, hresolve, rfl, rfl⟩
  simp only [List.mem_cons, List.not_mem_nil, or_false, forall_eq_or_imp, forall_eq]
  exact ⟨⟨_, _, hparsed⟩, _, _, parse_markerSource⟩

/-- The container of such a program, which stands in this line. -/
def sampleContainer (line : Int) : Container where
  name := "C"
  keyword := "class"
  accessibility := .publicAccess
  space := some "N"
  typeParameters := []
  outerTypes := []
  isPartial := true
  span := some ⟨line, 23, line, 24⟩
  filename := some "src0.cs"

/-- An interface with a method that has these parameters. -/
def sampleTarget (parameters : List (String × String)) : Target where
  displayName := "N.I"
  methods := [{
    name := "M"
    returnType := "void"
    returnsVoid := true
    parameters := parameters.map fun p => ⟨"int", p.1, [], some p.2⟩
    typeParameters := []
    constraintClauses := [] }]
  imports := ["using FacadeGenerator;"]

/-- The same interface in two programs with different line breaks. -/
theorem emit_same_of_line_breaks :
    let t := sampleTarget [("a", "f(1, 2)"), ("b", "3")]
    Described (sampleContainer 4) t ∧ Described (sampleContainer 5) t ∧ t.IsClosed ∧
      facadeStream (sampleContainer 4) t = facadeStream (sampleContainer 5) t ∧
      (emit (sampleContainer 4) t).Same (emit (sampleContainer 5) t) := by
  have h₁ : Described (sampleContainer 4) (sampleTarget [("a", "f(1, 2)"), ("b", "3")]) :=
    described_of_eq (memberSource "void M(int a = f(1, 2), int b = 3);")
      (by decide +kernel)
  have h₂ : Described (sampleContainer 5) (sampleTarget [("a", "f(1, 2)"), ("b", "3")]) :=
    described_of_eq (memberSource "void M(int a = f(1, 2),\n  int b = 3);")
      (by decide +kernel)
  have hclosed : (sampleTarget [("a", "f(1, 2)"), ("b", "3")]).IsClosed := by decide
  have hstream : facadeStream (sampleContainer 4) (sampleTarget [("a", "f(1, 2)"), ("b", "3")]) =
      facadeStream (sampleContainer 5) (sampleTarget [("a", "f(1, 2)"), ("b", "3")]) := rfl
  exact ⟨h₁, h₂, hclosed, hstream, emit_same_of_facadeStream_eq h₁ h₂ hclosed hclosed hstream⟩

/-- **A comment at the end of a default value breaks the fingerprint.** In one program the comment ends
before the comma, in the other it goes on to the end of the line; the hashed texts are equal, but one
method has two parameters and the other has one. -/
theorem facadeStream_not_faithful :
    ¬ ∀ c t d u, Described c t → Described d u → facadeStream c t = facadeStream d u →
      (emit c t).Same (emit d u) := by
  intro h
  have h₁ : Described (sampleContainer 6) (sampleTarget [("a", "1 //x"), ("b", "2")]) :=
    described_of_eq (memberSource "void M(int a = 1 //x\n, int b = 2\n);")
      (by decide +kernel)
  have h₂ : Described (sampleContainer 5) (sampleTarget [("a", "1 //x,int b = 2")]) :=
    described_of_eq (memberSource "void M(int a = 1 //x,int b = 2\n);")
      (by decide +kernel)
  have hstream : facadeStream (sampleContainer 6) (sampleTarget [("a", "1 //x"), ("b", "2")]) =
      facadeStream (sampleContainer 5) (sampleTarget [("a", "1 //x,int b = 2")]) := by
    decide +kernel
  have hsame := h _ _ _ _ h₁ h₂ hstream
  revert hsame
  decide +kernel

end Example

end Facade
