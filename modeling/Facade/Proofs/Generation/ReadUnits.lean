import Mathlib.Data.List.DropRight
import Facade.Proofs.Generation.ReadFacade
import Facade.Proofs.Generation.Registration
import Facade.Proofs.Generation.TargetInterface
import Facade.Proofs.Syntax.NamesPlaced

/-!
# Generated units are read as the facades that they stand for

What a run generates for a declaration is read as the facade of the declaration, if each name is read as
a name where it is printed and each default value is one by itself.

* `Model.exists_declaration`: the methods of a type are declared in the sources;
* `Target.IsClear`, `TypeSite.IsClear`: texts whose names are read as names where they are printed;
* `Service.isLegible_resolve`: what else the reading of a facade needs is known of all sources;
* **`CompilationUnit.declaresFacade_of_run`**: the units of a run are read as facades;
* `not_parse_of_run`: a namespace that is named like a modifier is in the way.
-/

namespace Facade

open Text Scan

theorem Text.trimBlanks_trimBlanks (s : String) : trimBlanks (trimBlanks s) = trimBlanks s := by
  have htrim : ∀ cs : List Char, trimBlanks (String.ofList cs) =
      String.ofList ((cs.dropWhile isBlank).rdropWhile isBlank) := fun cs => by
    rw [trimBlanks, String.toList_ofList, List.rdropWhile]
  have hs : trimBlanks s = String.ofList ((s.toList.dropWhile isBlank).rdropWhile isBlank) := rfl
  have hfirst : ((s.toList.dropWhile isBlank).rdropWhile isBlank).dropWhile isBlank =
      (s.toList.dropWhile isBlank).rdropWhile isBlank := by
    refine List.dropWhile_eq_self_iff.mpr fun hpos => ?_
    have hbegins := List.rdropWhile_prefix isBlank (s.toList.dropWhile isBlank)
    have hlength := Nat.lt_of_lt_of_le hpos hbegins.length_le
    rw [hbegins.getElem hpos]
    exact List.dropWhile_get_zero_not isBlank s.toList hlength
  rw [hs, htrim, hfirst, List.rdropWhile_idempotent]

/-! ## Declarations of programs -/

section

variable {units : List CompilationUnit}

theorem exists_unit_of_mem {t : TypeSite} (ht : t ∈ typeSitesOf units) :
    ∃ i, ∃ u ∈ units, t ∈ u.typeSites i := by
  obtain ⟨ts, hts, ht⟩ := List.mem_flatten.mp ht
  obtain ⟨i, u, hu, rfl⟩ := mem_of_mem_mapIdx hts
  exact ⟨i, u, hu, ht⟩

theorem meets_typeSitesOf {q : Requirement} (h : ∀ u ∈ units, u.Meets q) :
    ∀ t ∈ typeSitesOf units, t.Meets q := by
  intro t ht
  obtain ⟨i, u, hu, ht⟩ := exists_unit_of_mem ht
  exact (h u hu).typeSites i t ht

namespace Model

variable {d : Definition} (hd : d ∈ (ofUnits units).program.definitions)

include hd

theorem sites_subset : d.sites ⊆ typeSitesOf units := by
  rw [sites_of_mem hd, Declarations.sitesOf_eq]
  exact List.filter_subset_self _

/-- A method of a type is one that a declaration of the type declares. -/
theorem exists_declaration {m : MethodSymbol} (hm : m ∈ d.methods) : ∃ s ∈ d.sites, ∃ decl,
    .method decl ∈ s.declaration.members ∧
      m.parameters.map ParameterSymbol.name = decl.parameters.map ParameterSyntax.name := by
  obtain ⟨d₀, hdefine, hbind⟩ := exists_define_of_mem hd
  have hnone : d₀.methods = [] := by
    simp only [Declarations.define, Option.pure_def, Option.bind_eq_bind, Option.bind_eq_some_iff,
      Option.some.injEq] at hdefine
    obtain ⟨head, -, hd₀⟩ := hdefine
    rw [← hd₀]
  rw [hbind] at hm ⊢
  have hmem : ∃ kind, m ∈ d₀.sites.flatMap
      ((Environment.ofUnits units).methodsAt d₀.key kind) := by
    unfold Environment.bind at hm
    split at hm
    · rw [hnone] at hm
      cases hm
    · rw [hnone] at hm
      cases hm
    · exact ⟨_, hm⟩
  obtain ⟨kind, hmem⟩ := hmem
  obtain ⟨s, hs, hmem⟩ := List.mem_flatMap.mp hmem
  obtain ⟨member, hmember, hmem⟩ := List.mem_filterMap.mp hmem
  rw [Environment.sites_bind]
  split at hmem
  · cases hmem
    exact ⟨s, hs, _, hmember, by simp [Environment.bindMethod]⟩
  · cases hmem

end Model

section

variable (hunits : ∀ u ∈ units, u.Meets .placed)

include hunits

theorem Model.isLegible_imports (t : TypeSymbol) : ∀ i ∈ (ofUnits units).program.imports t,
    ∃ u : UsingDirective, u.target.IsLegible ∧ u.isGlobal = false ∧ u.text = i := by
  intro i hi
  obtain ⟨d, hd, s, hs, u, hu, hglobal, htext⟩ := Program.exists_using hi
  have hmeets := meets_typeSitesOf hunits s (sites_subset hd hs)
  refine ⟨u, ?_, hglobal, htext⟩
  rcases hu with hu | ⟨h, hh, hu⟩
  · exact hmeets.site.usings u hu hglobal
  · exact hmeets.site.namespaces h hh u hu hglobal

theorem Model.readsAsName_parameter {t : TypeSymbol} {m : MethodSymbol}
    (hm : m ∈ (ofUnits units).program.methods t) :
    ∀ q ∈ m.parameters, ReadsAsName .nameEnd q.name := by
  obtain ⟨d, hd, m', hm', rfl⟩ := Program.exists_method hm
  obtain ⟨s, hs, decl, hdecl, hnames⟩ := exists_declaration hd hm'
  intro q hq
  obtain ⟨q', hq', rfl⟩ := List.mem_map.mp hq
  have hname : q'.name ∈ decl.parameters.map ParameterSyntax.name :=
    hnames ▸ List.mem_map_of_mem hq'
  obtain ⟨p, hp, hpname⟩ := List.mem_map.mp hname
  have hmeets := (meets_typeSitesOf hunits s (sites_subset hd hs)).members _ hdecl
  cases hmeets with
  | method hmethod => exact hpname ▸ hmethod p hp

end

/-! ## Clear names -/

theorem LegibleType.predefined {admitted : TerminalSet} {k : String} (hk : k ∈ predefinedWords) :
    LegibleType admitted k :=
  ⟨.predefined k, .predefined hk, .predefined, by simp [TypeSyntax.IsClear, TypeSyntax.firstName?],
    by rw [TypeSyntax.text]⟩

theorem LegibleType.dotted {admitted : TerminalSet} {n : String} {ns : List String}
    (hnamed : ∀ m ∈ n :: ns, Named m) (hread : ReadsAsName admitted n) :
    LegibleType admitted (".".intercalate (n :: ns)) := by
  have harguments : ∀ q ∈ (n :: ns).map (NamePart.mk · []), q.arguments = [] := by
    simp [NamePart.arguments]
  refine ⟨.named false ((n :: ns).map (.mk · [])), .named (by simp) ?_ ?_, .named ?_ ?_, ?_, ?_⟩
  · simpa [NamePart.name] using hnamed
  · exact fun q hq a ha => absurd (harguments q hq ▸ ha) List.not_mem_nil
  · exact fun q hq a ha => absurd (harguments q hq ▸ ha) List.not_mem_nil
  · exact fun q hq a ha => absurd (harguments q hq ▸ ha) List.not_mem_nil
  · simpa [TypeSyntax.IsClear, TypeSyntax.firstName?, NamePart.name] using hread
  · rw [TypeSyntax.text, NamePart.texts_eq_map]
    simp [NamePart.text_mk_nil, Function.comp_def]

/-- The names in the texts of the method are read as names where they are printed, and its default
values as default values. -/
structure ForwardedMethod.IsClear (m : ForwardedMethod) : Prop where
  returnType : LegibleType Rule.modifier.follow m.returnType
  name : ReadsAsName .nameEnd m.name
  parameterTypes : ∀ q ∈ m.parameters, LegibleType .parameterStart q.type
  defaultTexts : ∀ q ∈ m.parameters, ∀ d ∈ q.defaultText, IsDefault d.toList
  typeParameters : ∀ n ∈ m.typeParameters, ReadsAsName Rule.typeParameter.first n
  constraintClauses : ∀ c ∈ m.constraintClauses, LegibleClause c

/-- The names in the texts of the interface are read as names where they are printed. -/
structure Target.IsClear (t : Target) : Prop where
  displayName : LegibleType Rule.modifier.follow t.displayName
  methods : ∀ m ∈ t.methods, m.IsClear

/-- The names in the head of a declaration are read as names where they are printed. -/
structure TypeHead.IsClear (h : TypeHead) : Prop where
  name : h.form.keyword = "record" → ReadsAsName (Rule.recordKind.first ∪ .single .name) h.name
  typeParameters : ∀ q ∈ h.typeParameters, ReadsAsName Rule.typeParameter.first q.name

instance (h : TypeHead) : Decidable h.IsClear :=
  decidable_of_iff ((h.form.keyword = "record" →
      ReadsAsName (Rule.recordKind.first ∪ .single .name) h.name) ∧
    ∀ q ∈ h.typeParameters, ReadsAsName Rule.typeParameter.first q.name)
    ⟨fun h => ⟨h.1, h.2⟩, fun h => ⟨h.name, h.typeParameters⟩⟩

/-- The names in the heads of the declaration and of those around it are read as names. -/
def TypeSite.IsClear (t : TypeSite) : Prop := ∀ h ∈ t.head :: t.site.types, h.IsClear

instance (t : TypeSite) : Decidable t.IsClear :=
  inferInstanceAs (Decidable (∀ h ∈ t.head :: t.site.types, h.IsClear))

theorem TypeHead.keyword_of_canHost {h : TypeHead} (hhost : h.canHost = true) :
    h.form.keyword ∈ bodyWords := by
  unfold canHost at hhost
  split at hhost
  · next hform => rw [hform]; decide
  · next hform => rw [hform]; decide
  · next isStruct hform =>
    rw [hform]
    cases isStruct <;> decide
  · cases hhost

theorem TypeHead.IsClear.isLegible {h : TypeHead} (hclear : h.IsClear) (hwritten : h.IsWritten)
    (hkeyword : h.form.keyword ∈ bodyWords) :
    PrintedHead.IsLegible ⟨h.form.keyword, h.name, h.typeParameters.map TypeParameterSyntax.name, none⟩ where
  keyword := hkeyword
  name := hwritten.name
  clear := hclear.name
  typeParameters n hn := by
    obtain ⟨q, hq, rfl⟩ := List.mem_map.mp hn
    exact ⟨hwritten.typeParameters q hq, hclear.typeParameters q hq⟩
  baseType := by simp

section

variable (hparsed : ∀ u ∈ units, ∃ path source, CompilationUnit.parse path source = .ok u)

include hparsed

/-- **The descriptions of a candidate are read as they are printed**, if the names in them are. -/
theorem Service.isLegible_resolve {site : TypeSite} (hsite : site ∈ typeSitesOf units)
    (hhost : site.head.canHost = true) {r : Resolution}
    (hr : (Model.ofUnits units).service.resolve site = .ok r) (htarget : r.target.IsClear)
    (hclear : site.IsClear) :
    (r.container (Model.ofUnits units).service).IsLegible ∧ r.target.IsLegible := by
  have hunits : ∀ u ∈ units, u.IsWritten fun d => trimBlanks d = d := fun u hu => by
    obtain ⟨path, source, hparse⟩ := hparsed u hu
    exact CompilationUnit.isWritten_of_parse (fun _ _ => trimBlanks_trimBlanks _) hparse
  have hplaced : ∀ u ∈ units, u.Meets .placed := fun u hu => by
    obtain ⟨path, source, hparse⟩ := hparsed u hu
    exact CompilationUnit.meets_placed hparse
  obtain ⟨i, u, hu, hmem⟩ := exists_unit_of_mem hsite
  have hwritten := (hunits u hu).typeSites i site hmem
  have hmeets := meets_typeSitesOf hplaced site hsite
  obtain ⟨hcontainer, htargetw⟩ := isWritten_resolve hunits hwritten hr
  obtain ⟨hrsite, -, hdescribe⟩ := isWritten_targetSymbol hunits hr
  refine ⟨⟨hcontainer.space, ?_, fun o ho => ?_⟩, htarget.displayName, fun m hm => ?_, ?_⟩
  · have hhead := (hclear _ List.mem_cons_self).isLegible hwritten.head
      (TypeHead.keyword_of_canHost hhost)
    rwa [← hrsite] at hhead
  · rw [Resolution.container, hrsite] at ho
    obtain ⟨h, hh, rfl⟩ := List.mem_map.mp ho
    obtain ⟨members, hne, hkeyword⟩ := hmeets.site.types h hh
    exact ⟨_, (hclear h (List.mem_cons_of_mem _ hh)).isLegible (hwritten.site.types h hh) (hkeyword hne),
      rfl, rfl⟩
  · have hmw := htargetw.methods m hm
    have hmc := htarget.methods m hm
    have hnames : ∀ q ∈ m.parameters, ReadsAsName .nameEnd q.name := by
      rw [hdescribe] at hm
      obtain ⟨f, hf, rfl⟩ := List.mem_map.mp hm
      intro q hq
      obtain ⟨q', hq', rfl⟩ := List.mem_map.mp hq
      exact Model.readsAsName_parameter hplaced (List.mem_filter.mp hf).1 q' hq'
    exact ⟨hmc.returnType, hmw.name, hmc.name, fun q hq => ⟨hmc.parameterTypes q hq,
        (hmw.parameters q hq).name, hnames q hq, (hmw.parameters q hq).modifiers, fun d hd =>
          ⟨hmc.defaultTexts q hq d hd, (hmw.parameters q hq).defaultText d hd⟩⟩,
      fun n hn => ⟨hmw.typeParameters n hn, hmc.typeParameters n hn⟩, hmc.constraintClauses⟩
  · rw [hdescribe]
    exact Model.isLegible_imports hplaced _

omit hparsed in
theorem emit_eq_unit {c : Container} {t : Target} {u : GeneratedUnit} (h : emit c t = .unit u) :
    ∃ space access, c.space = some space ∧ c.accessibility.keyword? = some access ∧
      u.text = Code.text (c.code space access t) := by
  unfold emit at h
  split at h
  · cases h
  · cases h
  · next space access hspace haccess =>
    cases h
    exact ⟨space, access, (Option.filter_eq_some_iff.mp hspace).1, haccess, rfl⟩

omit hparsed in
theorem mem_typeSitesOf_of_candidate {site : TypeSite} (h : site ∈ candidatesOf units) :
    site ∈ typeSitesOf (withMarker units) ∧ site.head.canHost = true := by
  obtain ⟨sites, hsites, hsite⟩ := List.mem_flatten.mp h
  obtain ⟨i, hi, rfl⟩ := List.mem_mapIdx.mp hsites
  obtain ⟨hmem, hhost⟩ := List.mem_filter.mp hsite
  refine ⟨?_, hhost⟩
  rw [typeSitesOf, withMarker, List.mapIdx_append, List.flatten_append]
  exact List.mem_append_left _ (List.mem_flatten.mpr ⟨_, List.mem_mapIdx.mpr ⟨i, hi, rfl⟩, hmem⟩)

theorem parsed_withMarker :
    ∀ u ∈ withMarker units, ∃ path source, CompilationUnit.parse path source = .ok u :=
  List.forall_mem_append.mpr ⟨hparsed, List.forall_mem_singleton.mpr ⟨_, _, parse_markerSource⟩⟩

/-- **A generated unit is read as the facade that it stands for.** -/
theorem CompilationUnit.declaresFacade_of_run {incremental : Bool} {moment : Moment}
    {result : RunResult} {after : Generator}
    (hrun : (Generator.forRuns incremental).run units moment = .ok (result, after)) :
    let service := (Model.ofUnits (withMarker units)).service
    ∀ unit ∈ result.registry.units, (∃ site ∈ candidatesOf units, ∃ r,
        service.resolve site = .ok r ∧ emit (r.container service) r.target = .unit unit) ∧
      ∀ site ∈ candidatesOf units, ∀ r, service.resolve site = .ok r →
        emit (r.container service) r.target = .unit unit → site.IsClear → r.target.IsClear →
        ∀ path, ∃ parsed, CompilationUnit.parse path unit.text = .ok parsed ∧
          parsed.DeclaresFacade (r.container service) r.target := by
  intro service unit hunit
  obtain ⟨site, hsite, houtcome⟩ := Generator.emitted_of_run hrun unit hunit
  refine ⟨⟨site, hsite, Service.outcome_eq_unit.mp houtcome⟩,
    fun site hsite r hr hemit hclear htarget path => ?_⟩
  obtain ⟨hmem, hhost⟩ := mem_typeSitesOf_of_candidate hsite
  obtain ⟨hc, ht⟩ := Service.isLegible_resolve (parsed_withMarker hparsed) hmem hhost hr htarget hclear
  obtain ⟨space, access, hspace, haccess, htext⟩ := emit_eq_unit hemit
  rw [htext]
  exact hc.parse_text ht hspace haccess path

end

end

section Example

/-- The program of one source, and what a run over it generates. -/
def generated? (source : String) : Option (List CompilationUnit × RunResult × Generator) := do
  let unit ← (CompilationUnit.parse "src0.cs" source).toOption
  let (result, after) ← ((Generator.forRuns false).run [unit] .never).toOption
  return ([unit], result, after)

theorem run_of_generated {source : String} {units : List CompilationUnit} {result : RunResult}
    {after : Generator} (h : generated? source = some (units, result, after)) :
    (∀ u ∈ units, ∃ path source, CompilationUnit.parse path source = .ok u) ∧
      (Generator.forRuns false).run units .never = .ok (result, after) := by
  simp only [generated?, Option.pure_def, Option.bind_eq_bind, Option.bind_eq_some_iff,
    Option.some.injEq] at h
  obtain ⟨unit, hunit, ⟨result', after'⟩, hrun, heq⟩ := h
  cases heq
  exact ⟨List.forall_mem_singleton.mpr ⟨_, _, eq_ok_of_toOption hunit⟩, eq_ok_of_toOption hrun⟩

/-- An interface with a generic method, and a class in a record that asks for its facade. -/
def readerSource : String :=
  "using FacadeGenerator;\nusing System;\nnamespace Shapes \x7b\n public interface IReader \x7b\n" ++
    "  T Read<T>(string name, in int count = (1, 2)) where T : class; \x7d\n" ++
    " public partial record Outer \x7b\n" ++
    "  public partial class Inner : IFacadeGenerator<IReader> \x7b \x7d \x7d\n\x7d\n"

/-- The interface of that source. -/
def readerTarget : Target where
  displayName := "Shapes.IReader"
  methods := [⟨"Read", "T", false,
    [⟨"string", "name", [], none⟩, ⟨"int", "count", ["in"], some "(1, 2)"⟩],
    ["T"], ["where T : class"]⟩]
  imports := ["using FacadeGenerator;", "using System;"]

theorem isClear_readerTarget : readerTarget.IsClear := by
  have hnamed : ∀ n ∈ ["T", "Shapes", "IReader"], Named n := fun n hn =>
    Or.inl ((show ∀ n ∈ ["T", "Shapes", "IReader"], IsPlainName n.toList by decide) n hn)
  have hdisplay : LegibleType Rule.modifier.follow (".".intercalate ["Shapes", "IReader"]) :=
    .dotted (by simpa using fun n hn => hnamed n (List.mem_cons_of_mem _ hn)) (by decide)
  have hreturn : LegibleType Rule.modifier.follow (".".intercalate ["T"]) :=
    .dotted (by simpa using hnamed "T" (by simp)) (by decide)
  have hclause : LegibleClause "where T : class" :=
    ⟨"T", ["class"], hnamed "T" (by simp), by simp, by simp [LegibleConstraint, specialConstraints], rfl⟩
  have hmethod : ForwardedMethod.IsClear ⟨"Read", "T", false, [⟨"string", "name", [], none⟩,
      ⟨"int", "count", ["in"], some "(1, 2)"⟩], ["T"], ["where T : class"]⟩ :=
    ⟨hreturn, by decide, by simpa using ⟨.predefined (by decide), .predefined (by decide)⟩,
      by simp; decide, by decide, by simpa using hclause⟩
  exact ⟨hdisplay, by simpa [readerTarget] using hmethod⟩

/-- **The facade of a generic method in a record is read.** -/
theorem declaresFacade_of_reader : ∃ units result after unit site r,
    (∀ u ∈ units, ∃ path source, CompilationUnit.parse path source = .ok u) ∧
    (Generator.forRuns false).run units .never = .ok (result, after) ∧
    unit ∈ result.registry.units ∧ site ∈ candidatesOf units ∧ site.IsClear ∧
    (Model.ofUnits (withMarker units)).service.resolve site = .ok r ∧ r.target = readerTarget ∧
    readerTarget.IsClear ∧
    ∃ parsed, CompilationUnit.parse "Inner.generated.cs" unit.text = .ok parsed ∧
      parsed.DeclaresFacade (r.container (Model.ofUnits (withMarker units)).service) readerTarget := by
  have hprogram : (generated? readerSource).any (fun x =>
      let service := (Model.ofUnits (withMarker x.1)).service
      (candidatesOf x.1).any fun site =>
        decide (site.IsClear) && (service.resolve site).toOption.any fun r =>
          decide (r.target = readerTarget) && x.2.1.registry.units.any fun u =>
            decide (emit (r.container service) r.target = .unit u)) = true := by
    decide +kernel
  obtain ⟨⟨units, result, after⟩, hx, hfacts⟩ := (Option.any_eq_true _ _).mp hprogram
  obtain ⟨hparsed, hrun⟩ := run_of_generated hx
  obtain ⟨site, hsite, hfacts⟩ := List.any_eq_true.mp hfacts
  obtain ⟨hclear, hfacts⟩ := (Bool.and_eq_true _ _).mp hfacts
  obtain ⟨r, hr, hfacts⟩ := (Option.any_eq_true _ _).mp hfacts
  obtain ⟨htarget, hfacts⟩ := (Bool.and_eq_true _ _).mp hfacts
  obtain ⟨unit, hunit, hemit⟩ := List.any_eq_true.mp hfacts
  have hresolve := eq_ok_of_toOption hr
  have hfacade := (CompilationUnit.declaresFacade_of_run hparsed hrun unit hunit).2 site hsite r hresolve
    (of_decide_eq_true hemit) (of_decide_eq_true hclear)
    (of_decide_eq_true htarget ▸ isClear_readerTarget) "Inner.generated.cs"
  rw [of_decide_eq_true htarget] at hfacade
  exact ⟨units, result, after, unit, site, r, hparsed, hrun, hunit, hsite, of_decide_eq_true hclear, hresolve,
    of_decide_eq_true htarget, isClear_readerTarget, hfacade⟩

/-- The namespace is named like a modifier of types. -/
def keywordSource : String :=
  "using FacadeGenerator;\nnamespace file \x7b public interface Reader \x7b void Read(); \x7d \x7d\n" ++
    "namespace N \x7b public partial class C : IFacadeGenerator<file.Reader> \x7b \x7d \x7d\n"

/-- **A type that is named like a modifier is not read where it is printed.** -/
theorem not_parse_of_run :
    ¬ ∀ units : List CompilationUnit,
      (∀ u ∈ units, ∃ path source, CompilationUnit.parse path source = .ok u) →
      ∀ incremental moment result after,
        (Generator.forRuns incremental).run units moment = .ok (result, after) →
        ∀ unit ∈ result.registry.units, ∀ path, ∃ parsed,
          CompilationUnit.parse path unit.text = .ok parsed := by
  intro h
  have hrefused : (generated? keywordSource).any (fun x =>
      x.2.1.registry.units.any fun u =>
        (CompilationUnit.parse "C.generated.cs" u.text).toOption.isNone) = true := by
    decide +kernel
  obtain ⟨⟨units, result, after⟩, hx, hrefused⟩ := (Option.any_eq_true _ _).mp hrefused
  obtain ⟨unit, hunit, hnone⟩ := List.any_eq_true.mp hrefused
  obtain ⟨hparsed, hrun⟩ := run_of_generated hx
  obtain ⟨parsed, hparse⟩ := h units hparsed _ _ result after hrun unit hunit "C.generated.cs"
  rw [hparse] at hnone
  cases hnone

end Example

end Facade
