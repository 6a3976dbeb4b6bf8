import Facade.Generator.Run
import Facade.Proofs.Generation.Registration
import Facade.Proofs.Binding.Spans

/-!
# Spans mean nothing to what is generated

Where anything stands in the sources is told in skips and notices, and nowhere else. The units of a run
are those of sources that say the same, wherever they say it.

* `Service.withoutSpans`, **`Service.resolve_withoutSpans`**: what a candidate asks for;
* `Generator.IgnoresSpans`, `Generator.advance_withoutSpans`: one candidate of a pass;
* `Generator.runCandidates_withoutSpans`, `Generator.execute_withoutSpans`: passes;
* **`Generator.run_congr`**: sources that differ in spans only have the same units.
-/

namespace Facade

/-! ## What a candidate asks for -/

/-- The service of the program without spans. -/
def Service.withoutSpans (service : Service) : Service :=
  { service with program := service.program.withoutSpans }

/-- The skip without its span. -/
def Skip.withoutSpans (s : Skip) : Skip := { s with span := none }

/-- The container without its span. -/
def Container.withoutSpans (c : Container) : Container := { c with span := none }

/-- The notice without its span. -/
def Notice.withoutSpans (n : Notice) : Notice := { n with span := none }

/-- The resolution without spans. -/
def Resolution.withoutSpans (r : Resolution) : Resolution := { r with site := r.site.withoutSpans }

theorem Model.service_withoutSpans (m : Model) : m.withoutSpans.service = m.service.withoutSpans := by
  have hsymbol : m.withoutSpans.declaredSymbol? = m.declaredSymbol? := by
    funext id
    exact congrArg (Option.map TypeSymbol.definition)
      (congrFun (Declarations.keyOf?_withoutSpans m.environment.declarations) id)
  rw [service, service, Service.withoutSpans, hsymbol]
  exact congrArg (Service.mk _ _) m.program.resembles_withoutSpans.allInterfaces_eq

namespace Service

variable (service : Service)

theorem describe_withoutSpans : service.withoutSpans.describe = service.describe := by
  have hresembles := service.program.resembles_withoutSpans
  have hconstraint : service.withoutSpans.program.constraintText = service.program.constraintText := by
    funext c
    cases c with
    | special => rfl
    | type t => exact congrFun hresembles.display_eq t
  have hmethod : ∀ m : MethodSymbol,
      service.withoutSpans.describeMethod m.withoutSpans = service.describeMethod m := fun m => by
    have hclause : service.withoutSpans.program.clauseText = service.program.clauseText := by
      funext c
      rw [Program.clauseText, Program.clauseText, hconstraint]
    simp only [describeMethod, hclause]
    simp only [withoutSpans, hresembles.display_eq, MethodSymbol.withoutSpans]
  funext t
  have hmethods : (service.withoutSpans.forwardedMethods t).map service.withoutSpans.describeMethod =
      (service.forwardedMethods t).map service.describeMethod := by
    have hforwarded : service.withoutSpans.forwardedMethods t =
        (service.forwardedMethods t).map MethodSymbol.withoutSpans := by
      rw [forwardedMethods, withoutSpans, Program.methods_withoutSpans, List.filter_map]
      rfl
    rw [hforwarded, List.map_map]
    exact List.map_congr_left fun m _ => hmethod m
  rw [describe, describe, hmethods]
  simp only [withoutSpans, hresembles.display_eq, hresembles.imports_eq]

/-- **A candidate asks for the same**, or has no facade for the same reason. -/
theorem resolve_withoutSpans (site : TypeSite) : service.withoutSpans.resolve site.withoutSpans =
    ((service.resolve site).mapError Skip.withoutSpans).map Resolution.withoutSpans := by
  have hresembles := service.program.resembles_withoutSpans
  have hrealizations : service.withoutSpans.realizations = service.realizations := by
    funext t
    have hmarker : service.withoutSpans.isMarker = service.isMarker := by
      funext t
      rw [isMarker, isMarker, withoutSpans, hresembles.display_eq]
    rw [realizations, realizations, hmarker]
    rfl
  have htarget : service.withoutSpans.markerTarget? = service.markerTarget? := by
    funext t
    rw [markerTarget?, markerTarget?, withoutSpans, hresembles.typeArguments_eq]
  have hsymbol : service.withoutSpans.declaredSymbol? site.withoutSpans.id =
      service.declaredSymbol? site.id := rfl
  rw [resolve, resolve, hsymbol]
  cases service.declaredSymbol? site.id with
  | none => rfl
  | some symbol =>
    simp only [resolveSymbol, hrealizations, htarget, describe_withoutSpans]
    cases service.realizations symbol with
    | nil => rfl
    | cons marker more =>
      dsimp only
      cases service.markerTarget? marker with
      | none => rfl
      | some t =>
        simp only [withoutSpans, hresembles.kind_eq, hresembles.display_eq]
        split_ifs <;> rfl

end Service

namespace Resolution

theorem container_withoutSpans (r : Resolution) (service : Service) :
    r.withoutSpans.container service.withoutSpans = (r.container service).withoutSpans := by
  have hnames : (r.site.head.typeParameters.map TypeParameterSyntax.withoutSpans).map
      TypeParameterSyntax.name = r.site.head.typeParameters.map TypeParameterSyntax.name := by
    rw [List.map_map]
    rfl
  have houter : (r.site.site.types.map TypeHead.withoutSpans).map
      (fun h => (h.form.keyword, h.heading)) =
        r.site.site.types.map fun h => (h.form.keyword, h.heading) := by
    rw [List.map_map]
    refine List.map_congr_left fun h _ => ?_
    exact congrArg₂ Prod.mk h.form.keyword_withoutSpans h.heading_withoutSpans
  have haccess : service.withoutSpans.program.accessibility? r.symbol =
      service.program.accessibility? r.symbol :=
    congrFun service.program.resembles_withoutSpans.accessibility?_eq r.symbol
  rw [container, container, TypeSite.container, TypeSite.container, Container.withoutSpans,
    Container.mk.injEq]
  exact ⟨rfl, r.site.head.form.keyword_withoutSpans, congrArg (·.getD .notApplicable) haccess,
    r.site.site.namespaceName_withoutSpans, hnames, houter, rfl, rfl, rfl⟩

theorem notices_withoutSpans (r : Resolution) :
    r.withoutSpans.notices = r.notices.map Notice.withoutSpans := by
  simp only [notices, List.map_append, apply_ite (List.map Notice.withoutSpans), List.map_cons,
    List.map_nil]
  rfl

end Resolution

/-! ## What comes of a candidate -/

/-- The outcome without spans. -/
def Outcome.withoutSpans : Outcome → Outcome
  | unit u => .unit u
  | skip s => .skip s.withoutSpans

/-- What has been gathered, without spans. -/
def Progress.withoutSpans (p : Progress) : Progress :=
  { p with skips := p.skips.map Skip.withoutSpans, notices := p.notices.map Notice.withoutSpans }

theorem emit_withoutSpans (c : Container) (t : Target) :
    emit c.withoutSpans t = (emit c t).withoutSpans := by
  unfold emit
  dsimp only [Container.withoutSpans]
  cases c.space.filter (!·.isEmpty) with
  | none => rfl
  | some space =>
    cases c.accessibility.keyword? with
    | none => rfl
    | some access => rfl

theorem Calls.after_withoutSpans (calls : Calls) (service : Service) (site : TypeSite) :
    calls.after service.withoutSpans site.withoutSpans = calls.after service site := rfl

namespace Generator

/-- The fingerprints of a generator, if it has any, do not depend on spans. -/
def IgnoresSpans (g : Generator) : Prop :=
  ∀ f ∈ g.fingerprint?, ∀ c t, f c.withoutSpans t = f c t

theorem ignoresSpans_forRuns (incremental : Bool) : (forRuns incremental).IgnoresSpans := by
  intro f hf c t
  cases incremental with
  | false => exact absurd hf (Option.not_mem_none f)
  | true =>
    obtain rfl : facadeFingerprint = f := Option.some.inj hf
    rfl

variable {g : Generator}

theorem produce_withoutSpans (hg : g.IgnoresSpans) (memo : Memo) (c : Container) (t : Target) :
    g.produce memo c.withoutSpans t =
      ((g.produce memo c t).1.withoutSpans, (g.produce memo c t).2) := by
  unfold produce
  cases hf : g.fingerprint? with
  | none => exact congrArg (·, false, memo) (emit_withoutSpans c t)
  | some f =>
    simp only [hg f hf c t, emit_withoutSpans]
    cases g.memo.get? (f c t) with
    | some u => rfl
    | none => cases emit c t <;> rfl

/-- One candidate of a pass comes to the same. -/
theorem advance_withoutSpans (hg : g.IgnoresSpans) (service : Service) (p : Progress)
    (site : TypeSite) : g.advance service.withoutSpans p.withoutSpans site.withoutSpans =
      (g.advance service p site).withoutSpans := by
  unfold advance
  rw [Service.resolve_withoutSpans]
  cases hresolve : service.resolve site with
  | error s =>
    simp only [Except.mapError, Except.map, Progress.withoutSpans, Calls.after_withoutSpans,
      List.map_append, List.map_cons, List.map_nil]
  | ok r =>
    have hresult : (Except.mapError Skip.withoutSpans (.ok r)).map Resolution.withoutSpans =
        .ok r.withoutSpans := rfl
    have htarget : r.withoutSpans.target = r.target := rfl
    simp only [hresult, r.container_withoutSpans, r.notices_withoutSpans, htarget,
      Progress.withoutSpans, produce_withoutSpans hg]
    cases (g.produce p.memo (r.container service) r.target).1 with
    | skip s =>
      simp only [Outcome.withoutSpans, List.map_append, List.map_cons, List.map_nil,
        Calls.after_withoutSpans]
    | unit u =>
      simp only [Outcome.withoutSpans]
      split_ifs <;> simp only [List.map_append, Calls.after_withoutSpans]

/-- **The candidates of a pass come to the same**, one after the other. -/
theorem runCandidates_withoutSpans (hg : g.IgnoresSpans) (service : Service) (moment : Moment)
    (sites : List TypeSite) (p : Progress) :
    g.runCandidates service.withoutSpans moment p.withoutSpans (sites.map TypeSite.withoutSpans) =
      (g.runCandidates service moment p sites).map Progress.withoutSpans := by
  induction sites generalizing p with
  | nil =>
    simp only [List.map_nil, runCandidates, Progress.withoutSpans]
    split_ifs <;> rfl
  | cons site rest ih =>
    simp only [List.map_cons, runCandidates, Progress.withoutSpans]
    split_ifs
    · rfl
    · exact advance_withoutSpans hg service p site ▸ ih _

end Generator

theorem lastOfEach_map {α κ : Type} [DecidableEq κ] {key : α → κ} {f : α → α}
    (hf : ∀ x, key (f x) = key x) (xs : List α) :
    lastOfEach key (xs.map f) = (lastOfEach key xs).map f := by
  have hkeys : ∀ xs : List α, (xs.map f).map key = xs.map key := fun xs => by
    rw [List.map_map]
    exact List.map_congr_left fun x _ => hf x
  induction xs with
  | nil => rfl
  | cons x xs ih =>
    rw [List.map_cons, lastOfEach, lastOfEach, hf, hkeys, ih]
    split_ifs <;> rfl

theorem distinctCandidates_withoutSpans (sites : List TypeSite) :
    distinctCandidates ((sites.map TypeSite.withoutSpans).map some) =
      (distinctCandidates (sites.map some)).map TypeSite.withoutSpans := by
  rw [distinctCandidates_map_some, distinctCandidates_map_some, firstOfEach, firstOfEach,
    ← List.map_reverse, lastOfEach_map (f := TypeSite.withoutSpans) fun _ => rfl, List.map_reverse]

/-! ## Runs -/

/-- What is registered, without spans. -/
def Registry.withoutSpans (r : Registry) : Registry :=
  { r with skips := r.skips.map Skip.withoutSpans, notices := r.notices.map Notice.withoutSpans }

theorem Registry.add_withoutSpans (units : List GeneratedUnit) (r : Registry) (skips : List Skip)
    (notices : List Notice) :
    r.withoutSpans.add units (skips.map Skip.withoutSpans) (notices.map Notice.withoutSpans) =
      (r.add units skips notices).withoutSpans := by
  have hunits : ∀ r : Registry,
      units.foldl addUnit r.withoutSpans = (units.foldl addUnit r).withoutSpans := fun r => by
    induction units generalizing r with
    | nil => rfl
    | cons u units ih => exact ih (r.addUnit u)
  simp only [add, hunits]
  simp only [withoutSpans, List.map_append]

/-- The result of a run without spans. -/
def RunResult.withoutSpans (r : RunResult) : RunResult :=
  { registry := r.registry.withoutSpans, cacheHits := r.cacheHits, sourceCount := r.sourceCount }

namespace Generator

variable {g : Generator}

theorem execute_withoutSpans (hg : g.IgnoresSpans) (service : Service) (moment : Moment)
    (sites : List TypeSite) (r : Registry) :
    g.execute service.withoutSpans moment ((sites.map TypeSite.withoutSpans).map some)
        r.withoutSpans =
      (g.execute service moment (sites.map some) r).map fun s => (s.1, s.2.withoutSpans) := by
  unfold execute
  rw [distinctCandidates_withoutSpans]
  cases distinctCandidates (sites.map some) with
  | nil => rfl
  | cons site rest =>
    have hrun := runCandidates_withoutSpans hg service moment (site :: rest) .start
    simp only [List.map_cons] at hrun ⊢
    have hstart : Progress.start.withoutSpans = .start := rfl
    rw [hstart] at hrun
    rw [hrun]
    cases g.runCandidates service moment .start (site :: rest) with
    | error e => rfl
    | ok p => exact congrArg (fun r => Except.ok (_, r)) (Registry.add_withoutSpans _ _ _ _)

theorem candidatesOf_withoutSpans (units : List CompilationUnit) :
    candidatesOf (units.map CompilationUnit.withoutSpans) =
      (candidatesOf units).map TypeSite.withoutSpans := by
  rw [candidatesOf, candidatesOf, List.map_flatten,
    mapIdx_map_eq (g := List.map TypeSite.withoutSpans) CompilationUnit.candidates_withoutSpans]

theorem run_withoutSpans (hg : g.IgnoresSpans) (units : List CompilationUnit) (moment : Moment) :
    (g.run units moment).map (fun s => (s.1.withoutSpans, s.2)) =
      (g.execute (Model.ofUnits ((withMarker units).map CompilationUnit.withoutSpans)).service moment
        ((candidatesOf (units.map CompilationUnit.withoutSpans)).map some) .empty).map fun s =>
          (⟨s.2, s.1.cacheHits - g.cacheHits, (withMarker units).length⟩, s.1) := by
  have hexecute := execute_withoutSpans hg (Model.ofUnits (withMarker units)).service moment
    (candidatesOf units) .empty
  have hempty : Registry.empty.withoutSpans = .empty := rfl
  rw [← Model.service_withoutSpans, ← Model.ofUnits_withoutSpans, ← candidatesOf_withoutSpans, hempty]
    at hexecute
  rw [hexecute, run]
  cases g.execute (Model.ofUnits (withMarker units)).service moment ((candidatesOf units).map some)
    .empty <;> rfl

/-- **Runs over sources that say the same come to the same**, wherever the sources say it. -/
theorem run_congr (hg : g.IgnoresSpans) {units units' : List CompilationUnit}
    (h : units.map CompilationUnit.withoutSpans = units'.map CompilationUnit.withoutSpans)
    (moment : Moment) : (g.run units moment).map (fun s => (s.1.withoutSpans, s.2)) =
      (g.run units' moment).map fun s => (s.1.withoutSpans, s.2) := by
  have hmarked : (withMarker units).map CompilationUnit.withoutSpans =
      (withMarker units').map CompilationUnit.withoutSpans := by
    rw [withMarker, withMarker, List.map_append, List.map_append, h]
  have hlength : (withMarker units).length = (withMarker units').length := by
    simpa only [List.length_map] using congrArg List.length hmarked
  rw [run_withoutSpans hg, run_withoutSpans hg, hmarked, hlength, h]

theorem units_run_congr (hg : g.IgnoresSpans) {units units' : List CompilationUnit}
    (h : units.map CompilationUnit.withoutSpans = units'.map CompilationUnit.withoutSpans)
    (moment : Moment) : (g.run units moment).map (fun s => s.1.registry.units) =
      (g.run units' moment).map fun s => s.1.registry.units := by
  have hunits : ∀ x : Except Cancelled (RunResult × Generator),
      x.map (fun s => s.1.registry.units) =
        (x.map fun s => (s.1.withoutSpans, s.2)).map fun s => s.1.registry.units := fun x => by
    cases x <;> rfl
  rw [hunits, run_congr hg h, ← hunits]

end Generator

end Facade
