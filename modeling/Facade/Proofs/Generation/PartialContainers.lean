import Facade.Proofs.Binding.Merging
import Facade.Proofs.Syntax.Characters
import Facade.Proofs.Generation.Faithful
import Facade.Proofs.Generation.Registration

/-!
# The parts of a container

A facade takes some of its text from the type that it extends and some from one declaration of it. What
it takes from the type is the same for all parts, and so is the namespace, which a declaration tells from
what it stands in. So two parts have the same outcome if they are headed alike, and so are the types
around them: then it does not matter which of them is the last one in a pass.

* `TypeSite.HeadedAlike`: what a facade repeats of a declaration;
* `Service.resolve_parts`: the parts of a type ask for the same interface;
* `Declarations.place_eq`: the parts of a type stand in one namespace;
* `Generator.outcomeOf_parts`: their outcomes, where units are remembered too;
* `Generator.unitsOf_exchange`: a pass in which two candidates with the same unit change places;
* **`Model.parts_agree`**: the parts of a container have the same outcome;
* `Model.not_parts_agree`: types of different kinds around them make two facades.
-/

namespace Facade

/-- A facade repeats the same of both declarations: the keyword, the names of the type parameters, and of
the types around them the keywords and the names with their type parameters. -/
structure TypeSite.HeadedAlike (t t' : TypeSite) : Prop where
  keyword : t.head.form.keyword = t'.head.form.keyword
  typeParameters : t.head.typeParameters.map TypeParameterSyntax.name =
    t'.head.typeParameters.map TypeParameterSyntax.name
  outerHeadings : t.site.types.map TypeHead.heading = t'.site.types.map TypeHead.heading
  outerKeywords : (t.site.types.map fun h => h.form.keyword) =
    t'.site.types.map fun h => h.form.keyword

namespace Service

variable {service : Service} {t t' : TypeSite}

/-- **The parts of a type ask for the same interface**, or for none for the same reason. -/
theorem resolve_parts (hsymbol : service.declaredSymbol? t.id = service.declaredSymbol? t'.id) :
    (∃ s s', service.resolve t = .error s ∧ service.resolve t' = .error s' ∧
        s.reason = s'.reason ∧ s.detail = s'.detail) ∨
      ∃ r r', service.resolve t = .ok r ∧ service.resolve t' = .ok r' ∧
        r.site = t ∧ r'.site = t' ∧ r.symbol = r'.symbol ∧ r.target = r'.target := by
  unfold resolve
  rw [hsymbol]
  cases service.declaredSymbol? t'.id with
  | none => exact Or.inl ⟨_, _, rfl, rfl, rfl, rfl⟩
  | some symbol =>
    simp only [resolveSymbol]
    cases service.realizations symbol with
    | nil => exact Or.inl ⟨_, _, rfl, rfl, rfl, rfl⟩
    | cons marker more =>
      simp only
      cases service.markerTarget? marker with
      | none => exact Or.inl ⟨_, _, rfl, rfl, rfl, rfl⟩
      | some target =>
        simp only
        split_ifs
        · exact Or.inr ⟨_, _, rfl, rfl, rfl, rfl, rfl, rfl⟩
        · exact Or.inl ⟨_, _, rfl, rfl, rfl, rfl⟩

end Service

/-! ## Containers -/

namespace Declarations

variable {units : List CompilationUnit}

theorem tellsPlace_of_parsed
    (hparsed : ∀ u ∈ units, ∃ path source, CompilationUnit.parse path source = .ok u) :
    ∀ e ∈ (ofUnits units).declared, e.TellsPlace := fun e he => by
  obtain ⟨i, hi, he⟩ := mem_declared.mp he
  obtain ⟨path, source, hu⟩ := hparsed units[i] (List.getElem_mem hi)
  exact CompilationUnit.tellsPlace_declare (P := fun _ => True)
    (CompilationUnit.isWritten_of_parse (fun _ _ => trivial) hu) i e he

/-- **The parts of a type stand in one namespace**, and have its name. -/
theorem place_eq
    (hparsed : ∀ u ∈ units, ∃ path source, CompilationUnit.parse path source = .ok u)
    {t t' : TypeSite} (ht : t ∈ typeSitesOf units) (ht' : t' ∈ typeSitesOf units)
    (hsymbol : (Model.ofUnits units).declaredSymbol? t.id =
      (Model.ofUnits units).declaredSymbol? t'.id) :
    t.site.namespaceName = t'.site.namespaceName ∧ t.head.name = t'.head.name := by
  obtain ⟨e, he, rfl⟩ := exists_declared ht
  obtain ⟨e', he', rfl⟩ := exists_declared ht'
  rw [Model.declaredSymbol?_of_mem he, Model.declaredSymbol?_of_mem he', Option.some.injEq,
    TypeSymbol.definition.injEq] at hsymbol
  have htells := tellsPlace_of_parsed hparsed
  obtain ⟨hspace, -, hshape⟩ := ((htells e he).key_eq_iff (htells e' he')).mp hsymbol
  exact ⟨hspace, congrArg Prod.fst hshape⟩

end Declarations

theorem TypeSite.HeadedAlike.alike {t t' : TypeSite} (h : t.HeadedAlike t')
    (hspace : t.site.namespaceName = t'.site.namespaceName) (hname : t.head.name = t'.head.name)
    (service : Service) (symbol : TypeSymbol) :
    (t.container service symbol).Alike (t'.container service symbol) where
  name := hname
  keyword := h.keyword
  displayName := by
    simp only [Container.displayName, TypeSite.container, hname, h.typeParameters]
  accessibility := rfl
  space := congrArg (Option.getD · "") hspace
  outerTypes := by
    have hzip (types : List TypeHead) : (types.map fun o => (o.form.keyword, o.heading)) =
        (types.map fun o => o.form.keyword).zip (types.map TypeHead.heading) := by
      rw [List.zip_map']
    simp only [TypeSite.container, hzip, h.outerKeywords, h.outerHeadings]

theorem Container.Alike.stream_eq {c d : Container} (h : c.Alike d) : c.stream = d.stream := by
  unfold Container.stream
  rw [h.keyword, h.displayName, h.accessibility, h.space, h.outerTypes]

namespace Generator

variable {g : Generator} {service : Service} {t t' : TypeSite}

/-- The generators of runs: their fingerprints, if they compute any, are those of facades. -/
def IsOfRuns (g : Generator) : Prop := g.fingerprint? = none ∨ g.fingerprint? = some facadeFingerprint

theorem produce_alike (hg : g.IsOfRuns) {c d : Container} (h : c.Alike d) (target : Target) :
    (g.produce [] c target).1.Same (g.produce [] d target).1 := by
  have hemit : (emit c target).Same (emit d target) := emit_same h rfl rfl rfl
  have hkey : facadeFingerprint c target = facadeFingerprint d target := by
    simp only [facadeFingerprint, facadeStream, h.stream_eq]
  unfold produce
  rcases hg with hg | hg
  · rw [hg]
    exact hemit
  · rw [hg]
    simp only [hkey]
    cases g.memo.get? (facadeFingerprint d target) with
    | some u => exact Outcome.same_unit_iff.mpr rfl
    | none =>
      simp only
      cases hc : emit c target with
      | unit u =>
        rw [hc] at hemit
        rw [Outcome.same_unit_iff.mp hemit]
        exact Outcome.same_unit_iff.mpr rfl
      | skip s =>
        rw [hc] at hemit
        cases hd : emit d target with
        | unit u => rw [hd] at hemit; exact hemit
        | skip s' => rw [hd] at hemit; exact hemit

/-- **Declarations of one symbol with alike containers have the same outcome.** -/
theorem outcomeOf_parts (hg : g.IsOfRuns)
    (hsymbol : service.declaredSymbol? t.id = service.declaredSymbol? t'.id)
    (halike : ∀ symbol, (t.container service symbol).Alike (t'.container service symbol)) :
    (g.outcomeOf service t).Same (g.outcomeOf service t') := by
  unfold outcomeOf
  obtain ⟨s, s', hs, hs', hreason, hdetail⟩ | ⟨r, r', hr, hr', rfl, rfl, hsame, htarget⟩ :=
    Service.resolve_parts hsymbol
  · rw [hs, hs']
    exact ⟨hreason, hdetail⟩
  · rw [hr, hr']
    simp only [Resolution.container, hsame, htarget]
    exact produce_alike hg (halike _) _

end Generator

theorem Outcome.Same.unit?_eq {o o' : Outcome} (h : o.Same o') : o.unit? = o'.unit? := by
  cases o with
  | unit u => rw [Outcome.same_unit_iff.mp h]
  | skip s =>
    cases o' with
    | unit u => exact h.elim
    | skip s' => rfl

/-! ## Two candidates that change places -/

theorem firstOfEach_of_nodup {α κ : Type} [DecidableEq κ] {key : α → κ} {xs : List α}
    (h : (xs.map key).Nodup) : firstOfEach key xs = xs := by
  have hlast (ys : List α) (hys : (ys.map key).Nodup) : lastOfEach key ys = ys := by
    induction ys with
    | nil => rfl
    | cons y ys ih =>
      rw [List.map_cons, List.nodup_cons] at hys
      rw [lastOfEach, if_neg hys.1, ih hys.2]
  have hreverse : (xs.reverse.map key).Nodup := by
    rw [List.map_reverse]
    exact List.nodup_reverse.mpr h
  rw [firstOfEach, hlast _ hreverse, List.reverse_reverse]

namespace Generator

variable {g : Generator} {service : Service} {t t' : TypeSite}

/-- The units that are registered after a pass over some declarations, unless it is cancelled. -/
def unitsOf (g : Generator) (service : Service) (moment : Moment) (registry : Registry)
    (sites : List TypeSite) : Except Cancelled (List GeneratedUnit) :=
  (g.execute service moment (sites.map some) registry).map fun ending => ending.2.units

theorem unitsOf_eq {sites : List TypeSite} (hdistinct : (sites.map TypeSite.id).Nodup)
    (moment : Moment) (registry : Registry) :
    g.unitsOf service moment registry sites =
      if sites.isEmpty = false ∧ moment.isReached (Calls.afterAll ⟨0, 0⟩ service sites) = true
        then .error ⟨⟩
        else .ok ((sites.filterMap fun site => (g.outcomeOf service site).unit?).foldl
          Registry.addUnit registry).units := by
  have hsites : distinctCandidates (sites.map some) = sites := by
    rw [distinctCandidates_map_some, firstOfEach_of_nodup hdistinct]
  cases sites with
  | nil => rfl
  | cons site rest =>
    have hexecute : g.execute service moment ((site :: rest).map some) registry =
        (g.runCandidates service moment .start (site :: rest)).map
          fun p => (g.keeping p, registry.add p.units p.skips p.notices) := by
      refine (answer_eq (g := g) (c := ⟨service, moment, (site :: rest).map some, registry⟩) ?_).trans ?_
      · rw [hsites]
        exact List.cons_ne_nil _ _
      · rw [hsites]
    have hunits := (gathers_foldl_advance g service (site :: rest)).units
    rw [List.filterMap_map] at hunits
    have hcalls : Progress.start.calls = ⟨0, 0⟩ := rfl
    rw [unitsOf, hexecute, runCandidates_eq, hcalls]
    by_cases hreached : moment.isReached (Calls.afterAll ⟨0, 0⟩ service (site :: rest)) = true
    · rw [if_pos hreached, if_pos ⟨rfl, hreached⟩]
      rfl
    · rw [if_neg hreached, if_neg fun h => hreached h.2]
      exact congrArg (fun us => Except.ok (us.foldl Registry.addUnit registry).units) hunits

/-- **A pass in which two candidates with one symbol and the same unit change places** registers the same
units, or is cancelled as before. -/
theorem unitsOf_exchange (hunit : (g.outcomeOf service t).unit? = (g.outcomeOf service t').unit?)
    (hsymbol : service.declaredSymbol? t.id = service.declaredSymbol? t'.id)
    {before between after : List TypeSite}
    (hdistinct : ((before ++ t :: between ++ t' :: after).map TypeSite.id).Nodup) (moment : Moment)
    (registry : Registry) :
    g.unitsOf service moment registry (before ++ t :: between ++ t' :: after) =
      g.unitsOf service moment registry (before ++ t' :: between ++ t :: after) := by
  have hdistinct' : ((before ++ t' :: between ++ t :: after).map TypeSite.id).Nodup := by
    refine (List.Perm.nodup_iff (List.Perm.map _ ?_)).mp hdistinct
    simp only [List.append_assoc, List.cons_append]
    refine List.Perm.append_left before ?_
    calc List.Perm (t :: (between ++ t' :: after)) (t :: t' :: (between ++ after)) :=
          List.perm_middle.cons t
      List.Perm _ (t' :: t :: (between ++ after)) := List.Perm.swap t' t _
      List.Perm _ (t' :: (between ++ t :: after)) := List.perm_middle.symm.cons t'
  have hunits : (before ++ t' :: between ++ t :: after).filterMap
        (fun site => (g.outcomeOf service site).unit?) =
      (before ++ t :: between ++ t' :: after).filterMap
        fun site => (g.outcomeOf service site).unit? := by
    simp only [List.filterMap_append, List.filterMap_cons, hunit]
  have hlength : (before ++ t' :: between ++ t :: after).length =
      (before ++ t :: between ++ t' :: after).length := by
    simp only [List.length_append, List.length_cons]
  have hsymbols : (before ++ t' :: between ++ t :: after).countP
        (fun site => (service.declaredSymbol? site.id).isSome) =
      (before ++ t :: between ++ t' :: after).countP
        fun site => (service.declaredSymbol? site.id).isSome := by
    simp only [List.countP_append, List.countP_cons, hsymbol]
  have hsome (xs ys : List TypeSite) (x : TypeSite) : (xs ++ x :: ys).isEmpty = false := by simp
  rw [unitsOf_eq hdistinct, unitsOf_eq hdistinct', Calls.afterAll_eq, Calls.afterAll_eq, hunits,
    hlength, hsymbols, hsome, hsome]

end Generator

/-! ## The parts of a container -/

/-- **All parts of a container agree.** Take declarations of one type in parsed sources, with the same
keyword and names of type parameters, in types with the same keywords and headings. Both have the same
unit, or none for the same reason, also where units of earlier passes are remembered. So if they change
places in a pass, it registers the same units. -/
theorem Model.parts_agree {units : List CompilationUnit}
    (hparsed : ∀ u ∈ units, ∃ path source, CompilationUnit.parse path source = .ok u)
    {t t' : TypeSite} (ht : t ∈ typeSitesOf units) (ht' : t' ∈ typeSitesOf units)
    (hsymbol : (Model.ofUnits units).declaredSymbol? t.id =
      (Model.ofUnits units).declaredSymbol? t'.id)
    (hheaded : t.HeadedAlike t') :
    let service := (Model.ofUnits units).service
    (service.outcome t).Same (service.outcome t') ∧
      ∀ g : Generator, g.IsOfRuns → (g.outcomeOf service t).Same (g.outcomeOf service t') ∧
        ∀ before between after : List TypeSite,
          ((before ++ t :: between ++ t' :: after).map TypeSite.id).Nodup → ∀ moment registry,
            g.unitsOf service moment registry (before ++ t :: between ++ t' :: after) =
              g.unitsOf service moment registry (before ++ t' :: between ++ t :: after) := by
  intro service
  obtain ⟨hspace, hname⟩ := Declarations.place_eq hparsed ht ht' hsymbol
  have hagree {g : Generator} (hg : g.IsOfRuns) :
      (g.outcomeOf service t).Same (g.outcomeOf service t') :=
    Generator.outcomeOf_parts hg hsymbol (hheaded.alike hspace hname service)
  refine ⟨?_, fun g hg => ⟨hagree hg, fun before between after hdistinct moment registry => ?_⟩⟩
  · exact hagree (g := .fresh none) (Or.inl rfl)
  · exact Generator.unitsOf_exchange (hagree hg).unit?_eq hsymbol hdistinct moment registry

section Example

/-- The two candidates of a program of one source with these indexes. -/
def candidatePair? (source : String) (i j : Nat) :
    Option (CompilationUnit × TypeSite × TypeSite) := do
  let unit ← (CompilationUnit.parse "src0.cs" source).toOption
  let t ← (unit.candidates 0)[i]?
  let t' ← (unit.candidates 0)[j]?
  return (unit, t, t')

theorem of_candidatePair {source : String} {i j : Nat} {unit : CompilationUnit} {t t' : TypeSite}
    (h : candidatePair? source i j = some (unit, t, t')) :
    CompilationUnit.parse "src0.cs" source = .ok unit ∧
      t ∈ typeSitesOf (withMarker [unit]) ∧ t' ∈ typeSitesOf (withMarker [unit]) := by
  simp only [candidatePair?, Option.pure_def, Option.bind_eq_bind, Option.bind_eq_some_iff,
    Option.some.injEq] at h
  obtain ⟨unit, hunit, t, ht, t', ht', heq⟩ := h
  cases heq
  have hmem {s : TypeSite} {k : Nat} (hs : (unit.candidates 0)[k]? = some s) :
      s ∈ typeSitesOf (withMarker [unit]) := by
    have hsite : s ∈ unit.typeSites 0 := (List.mem_filter.mp (List.mem_of_getElem? hs)).1
    simp [typeSitesOf, withMarker, hsite]
  exact ⟨eq_ok_of_toOption hunit, hmem ht, hmem ht'⟩

instance (t t' : TypeSite) : Decidable (t.HeadedAlike t') :=
  decidable_of_iff (t.head.form.keyword = t'.head.form.keyword ∧
    t.head.typeParameters.map TypeParameterSyntax.name =
      t'.head.typeParameters.map TypeParameterSyntax.name ∧
    t.site.types.map TypeHead.heading = t'.site.types.map TypeHead.heading ∧
    (t.site.types.map fun h => h.form.keyword) = t'.site.types.map fun h => h.form.keyword)
    ⟨fun ⟨hk, ht, hh, ho⟩ => ⟨hk, ht, hh, ho⟩, fun ⟨hk, ht, hh, ho⟩ => ⟨hk, ht, hh, ho⟩⟩

/-- Two parts of a container, in a dotted namespace and in nested ones. -/
def partsSource : String :=
  "using FacadeGenerator;\nnamespace A.B \x7b\n public interface I \x7b void M(); \x7d\n" ++
    " partial class C : IFacadeGenerator<I> \x7b \x7d\n\x7d\n" ++
    "namespace A \x7b namespace B \x7b public partial class C \x7b \x7d \x7d \x7d\n"

/-- **The parts of this container agree**, although one of them says for which interface it is and the
other one that it is public. -/
theorem Model.parts_agree_nested : ∃ unit t t',
    candidatePair? partsSource 0 1 = some (unit, t, t') ∧
      t.head.modifiers ≠ t'.head.modifiers ∧
      let service := (Model.ofUnits (withMarker [unit])).service
      (service.outcome t).unit?.isSome ∧ (service.outcome t).Same (service.outcome t') ∧
        let g : Generator := .fresh (some facadeFingerprint)
        ∀ moment registry, g.unitsOf service moment registry [t, t'] =
          g.unitsOf service moment registry [t', t] := by
  have hprogram : (candidatePair? partsSource 0 1).any
      (fun (x : CompilationUnit × TypeSite × TypeSite) =>
      let m := Model.ofUnits (withMarker [x.1])
      decide (x.2.1.head.modifiers ≠ x.2.2.head.modifiers ∧ x.2.1.id ≠ x.2.2.id ∧
        (m.service.outcome x.2.1).unit?.isSome ∧
        m.declaredSymbol? x.2.1.id = m.declaredSymbol? x.2.2.id ∧
        x.2.1.HeadedAlike x.2.2)) = true := by
    refine CompilationUnit.any_of_ofCharacters (toList_append_eq
      (toList_append_eq String.toList_ofList String.toList_ofList) String.toList_ofList) ?_
    decide +kernel
  obtain ⟨⟨unit, t, t'⟩, hx, hfacts⟩ := (Option.any_eq_true _ _).mp hprogram
  obtain ⟨hmodifiers, hid, hunit, hsymbol, hheaded⟩ := of_decide_eq_true hfacts
  obtain ⟨hparse, ht, ht'⟩ := of_candidatePair hx
  have hparsed : ∀ u ∈ withMarker [unit], ∃ path source,
      CompilationUnit.parse path source = .ok u := by
    simp only [withMarker, List.cons_append, List.nil_append, List.mem_cons, List.not_mem_nil,
      or_false, forall_eq_or_imp, forall_eq]
    exact ⟨⟨_, _, hparse⟩, _, _, parse_markerSource⟩
  obtain ⟨houtcome, hpasses⟩ := Model.parts_agree hparsed ht ht' hsymbol hheaded
  refine ⟨unit, t, t', hx, hmodifiers, hunit, houtcome, fun moment registry => ?_⟩
  exact (hpasses _ (Or.inr rfl)).2 [] [] [] (by simpa using hid) moment registry

/-- Two parts of a container, one of them in a class and the other one in a struct with its name. -/
def mixedPartsSource : String :=
  "using FacadeGenerator;\nnamespace N \x7b\n public interface I \x7b void M(); \x7d\n" ++
    " public partial class O \x7b public partial class C : IFacadeGenerator<I> \x7b \x7d \x7d\n" ++
    " public partial struct O \x7b public partial class C \x7b \x7d \x7d\n\x7d\n"

/-- **Parts with one keyword and the same headings around them may disagree**: the types around these are
of different kinds, which both units repeat, so that the last part in a pass decides on the unit. -/
theorem Model.not_parts_agree : ∃ unit t t',
    CompilationUnit.parse "src0.cs" mixedPartsSource = .ok unit ∧
      t ∈ typeSitesOf (withMarker [unit]) ∧ t' ∈ typeSitesOf (withMarker [unit]) ∧
      (Model.ofUnits (withMarker [unit])).declaredSymbol? t.id =
        (Model.ofUnits (withMarker [unit])).declaredSymbol? t'.id ∧
      t.head.form.keyword = t'.head.form.keyword ∧
      t.head.typeParameters.map TypeParameterSyntax.name =
        t'.head.typeParameters.map TypeParameterSyntax.name ∧
      t.site.types.map TypeHead.heading = t'.site.types.map TypeHead.heading ∧
      let service := (Model.ofUnits (withMarker [unit])).service
      ¬(service.outcome t).Same (service.outcome t') ∧
        ((Generator.fresh none).unitsOf service .never .empty [t, t']).toOption ≠
          ((Generator.fresh none).unitsOf service .never .empty [t', t]).toOption := by
  have hprogram : (candidatePair? mixedPartsSource 1 3).any
      (fun (x : CompilationUnit × TypeSite × TypeSite) =>
        let m := Model.ofUnits (withMarker [x.1])
        decide (m.declaredSymbol? x.2.1.id = m.declaredSymbol? x.2.2.id ∧
          x.2.1.head.form.keyword = x.2.2.head.form.keyword ∧
          x.2.1.head.typeParameters.map TypeParameterSyntax.name =
            x.2.2.head.typeParameters.map TypeParameterSyntax.name ∧
          x.2.1.site.types.map TypeHead.heading = x.2.2.site.types.map TypeHead.heading ∧
          ¬(m.service.outcome x.2.1).Same (m.service.outcome x.2.2) ∧
          ((Generator.fresh none).unitsOf m.service .never .empty [x.2.1, x.2.2]).toOption ≠
            ((Generator.fresh none).unitsOf m.service .never .empty [x.2.2, x.2.1]).toOption)) =
        true := by
    refine CompilationUnit.any_of_ofCharacters (toList_append_eq
      (toList_append_eq String.toList_ofList String.toList_ofList) String.toList_ofList) ?_
    decide +kernel
  obtain ⟨⟨unit, t, t'⟩, hx, hfacts⟩ := (Option.any_eq_true _ _).mp hprogram
  obtain ⟨hparse, ht, ht'⟩ := of_candidatePair hx
  exact ⟨unit, t, t', hparse, ht, ht', of_decide_eq_true hfacts⟩

end Example

end Facade
