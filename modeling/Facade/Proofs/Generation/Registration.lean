import Facade.Generator.Run
import Facade.Proofs.Generation.Cancellation

/-!
# What a pass registers

Every candidate of a pass is accounted for once: with a skip, or with a unit. A candidate that is listed
again is passed over, and of the units with one hint name the last one stays, at its place.

* `distinctCandidates_eq`: the candidates of a pass;
* `Service.outcome`: what comes of a candidate where nothing is remembered;
* **`Generator.execute_accounts`**: every candidate is accounted for once;
* **`Generator.emitted_of_run`**: the units of a run are what comes of its candidates.
-/

namespace Facade

/-! ## Candidates -/

/-- **The candidates of a pass** are those that are present, each where it first occurs. -/
theorem distinctCandidates_eq (candidates : List (Option TypeSite)) :
    distinctCandidates candidates = firstOfEach TypeSite.id candidates.reduceOption := by
  rw [distinctCandidates]
  change candidates.reduceOption.foldl _ [] = _
  induction candidates.reduceOption using List.reverseRecOn with
  | nil => rfl
  | append_singleton ts t ih =>
    rw [List.foldl_append, ih, List.foldl_cons, List.foldl_nil, firstOfEach_append]
    simp only [List.any_eq_true, beq_iff_eq, List.mem_map]

theorem distinctCandidates_map_some (sites : List TypeSite) :
    distinctCandidates (sites.map some) = firstOfEach TypeSite.id sites := by
  have hpresent : (sites.map some).reduceOption = sites := by
    change (sites.map some).filterMap id = sites
    simp
  rw [distinctCandidates_eq, hpresent]

theorem firstOfEach_firstOfEach {α κ : Type} [DecidableEq κ] (key : α → κ) (xs : List α) :
    firstOfEach key (firstOfEach key xs) = firstOfEach key xs := by
  induction xs using List.reverseRecOn with
  | nil => rfl
  | append_singleton xs x ih =>
    rw [firstOfEach_append]
    split_ifs with hx
    · exact ih
    · rw [firstOfEach_append, ih, if_neg hx]

/-! ## Outcomes -/

/-- What comes of a candidate where nothing is remembered. -/
def Service.outcome (service : Service) (site : TypeSite) : Outcome :=
  match service.resolve site with
  | .error s => .skip s
  | .ok r => emit (r.container service) r.target

theorem Service.outcome_eq_unit {service : Service} {site : TypeSite} {u : GeneratedUnit} :
    service.outcome site = .unit u ↔
      ∃ r, service.resolve site = .ok r ∧ emit (r.container service) r.target = .unit u := by
  unfold outcome
  cases service.resolve site with
  | error s => simp
  | ok r => simp

/-- The unit of an outcome. -/
def Outcome.emitted? : Outcome → Option GeneratedUnit
  | unit u => some u
  | skip _ => none

theorem Outcome.length_filterMap (outcomes : List Outcome) :
    (outcomes.filterMap emitted?).length + (outcomes.filterMap skip?).length = outcomes.length := by
  induction outcomes with
  | nil => rfl
  | cons o outcomes ih =>
    cases o with
    | unit u =>
      rw [List.filterMap_cons_some (f := emitted?) rfl, List.filterMap_cons_none (f := skip?) rfl,
        List.length_cons, List.length_cons]
      omega
    | skip s =>
      rw [List.filterMap_cons_none (f := emitted?) rfl, List.filterMap_cons_some (f := skip?) rfl,
        List.length_cons, List.length_cons]
      omega

namespace Generator

variable {g : Generator} {service : Service}

theorem outcomeOf_eq (hg : g.fingerprint? = none) (site : TypeSite) :
    g.outcomeOf service site = service.outcome site := by
  unfold outcomeOf Service.outcome
  cases service.resolve site with
  | error s => rfl
  | ok r => simp only [produce, hg]

theorem unit?_outcome (site : TypeSite) :
    (service.outcome site).unit? = (service.outcome site).emitted? := by
  unfold Service.outcome
  cases service.resolve site with
  | error s => rfl
  | ok r =>
    cases hemit : emit (r.container service) r.target with
    | skip s => simp only [hemit, Outcome.unit?, Outcome.emitted?]
    | unit u => simp [hemit, Outcome.unit?, Outcome.emitted?, text_of_emit hemit]

theorem gathered_outcomes (hg : g.fingerprint? = none) {sites : List TypeSite} {p : Progress}
    (h : g.Gathers service sites p) :
    p.units = (sites.map service.outcome).filterMap Outcome.emitted? ∧
      p.skips = (sites.map service.outcome).filterMap Outcome.skip? := by
  have houtcomes : sites.map (g.outcomeOf service) = sites.map service.outcome :=
    List.map_congr_left fun site _ => outcomeOf_eq hg site
  rw [h.units, h.skips, houtcomes, List.filterMap_map, List.filterMap_map]
  have hunit : Outcome.unit? ∘ service.outcome = Outcome.emitted? ∘ service.outcome :=
    funext unit?_outcome
  rw [hunit, List.filterMap_map]
  exact ⟨rfl, rfl⟩

theorem registry_of_execute {moment : Moment} {candidates : List (Option TypeSite)}
    {registry : Registry} {after : Generator} {r : Registry}
    (h : g.execute service moment candidates registry = .ok (after, r)) :
    ∃ p, g.Gathers service (distinctCandidates candidates) p ∧
      r = registry.add p.units p.skips p.notices := by
  have hanswer : g.answer ⟨service, moment, candidates, registry⟩ = .ok (after, r) := h
  by_cases hsites : distinctCandidates candidates = []
  · rw [answer_of_no_candidate hsites] at hanswer
    refine ⟨.start, hsites ▸ gathers_foldl_advance g service [], ?_⟩
    cases hanswer
    simp [Registry.add, Progress.start]
  · rw [answer_eq hsites] at hanswer
    simp only [runCandidates_eq] at hanswer
    split_ifs at hanswer
    · cases hanswer
    · cases hanswer
      exact ⟨_, gathers_foldl_advance g service _, rfl⟩

/-- **Every candidate is accounted for once.** A pass without a memo does with its candidates what it
does with those that are present, each where it first occurs, and it comes to its end if it is not
cancelled. What it then has registered in an empty registry are the skips of these candidates, in their
order, and of the units of the others the last one of each hint name, at its place. -/
theorem execute_accounts (hg : g.fingerprint? = none) (service : Service)
    (candidates : List (Option TypeSite)) :
    let sites := firstOfEach TypeSite.id candidates.reduceOption
    let emitted := (sites.map service.outcome).filterMap Outcome.emitted?
    (∀ moment registry, g.execute service moment candidates registry =
        g.execute service moment (sites.map some) registry) ∧
      (∃ ending, g.execute service .never candidates .empty = .ok ending) ∧
      ∀ moment after r, g.execute service moment candidates .empty = .ok (after, r) →
        r.skips = (sites.map service.outcome).filterMap Outcome.skip? ∧
        emitted.length + r.skips.length = sites.length ∧
        r.units = lastOfEach GeneratedUnit.hintName emitted := by
  intro sites emitted
  have hsites : distinctCandidates candidates = sites := distinctCandidates_eq candidates
  refine ⟨fun moment registry => ?_, ?_, fun moment after r h => ?_⟩
  · have hagain : distinctCandidates (sites.map some) = sites := by
      rw [distinctCandidates_map_some]
      exact firstOfEach_firstOfEach _ _
    rw [execute, execute, hsites, hagain]
  · by_cases hnil : distinctCandidates candidates = []
    · exact ⟨_, answer_of_no_candidate (c := ⟨service, .never, candidates, .empty⟩) hnil⟩
    · have hanswer := answer_eq (g := g) (c := ⟨service, .never, candidates, .empty⟩) hnil
      simp only [runCandidates_eq] at hanswer
      exact ⟨_, hanswer⟩
  · obtain ⟨p, hp, rfl⟩ := registry_of_execute h
    obtain ⟨hunits, hskips⟩ := gathered_outcomes hg (hsites ▸ hp)
    have hregistered : (Registry.empty.add p.units p.skips p.notices).skips = p.skips :=
      Registry.skips_add _ _ _ _
    rw [hregistered, Registry.units_add_empty, hunits, hskips]
    refine ⟨rfl, ?_, rfl⟩
    rw [Outcome.length_filterMap, List.length_map]

section Example

/-- The service of the sample, which does not know the third declaration. -/
def partialService : Service where
  program := sampleService.program
  declaredSymbol? id := if id.path = [2] then none else sampleService.declaredSymbol? id
  allInterfaces := sampleService.allInterfaces

/-- The declaration of this number, a part of `C`. -/
def numberedSite (i : Nat) (form : TypeForm) : TypeSite :=
  { sampleSite with
    index := i
    declaration := { sampleSite.declaration with
      head := { sampleSite.declaration.head with form := form } } }

/-- Two declarations of `C`, the first one listed again, with an absent and an unknown one between
them. -/
def crowdedCandidates : List (Option TypeSite) :=
  [some (numberedSite 0 .classForm), none, some (numberedSite 2 .classForm),
    some (numberedSite 1 .structForm), some (numberedSite 0 .classForm)]

/-- **Five candidates of a pass**: one skip, and of two units with one hint name the second. -/
theorem execute_accounts_crowded :
    (fresh none).fingerprint? = none ∧
    ∃ after r, (fresh none).execute partialService .never crowdedCandidates .empty = .ok (after, r) ∧
      r.skips = [(numberedSite 2 .classForm).skip .noSymbol ""] ∧
      r.units.map (fun u => .unit u) = [partialService.outcome (numberedSite 1 .structForm)] := by
  obtain ⟨-, ⟨⟨after, r⟩, hr⟩, haccounts⟩ :=
    execute_accounts (g := fresh none) rfl partialService crowdedCandidates
  obtain ⟨hskips, -, hunits⟩ := haccounts .never after r hr
  refine ⟨rfl, after, r, hr, ?_, ?_⟩
  · rw [hskips]
    decide +kernel
  · rw [hunits]
    decide +kernel

end Example

/-! ## Runs -/

theorem outcomeOf_of_nil (hg : g.memo = []) (site : TypeSite) :
    g.outcomeOf service site = service.outcome site := by
  unfold outcomeOf Service.outcome
  cases service.resolve site with
  | error s => rfl
  | ok r =>
    simp only [produce, hg, Memo.get?, List.find?_nil, Option.map_none]
    cases g.fingerprint? with
    | none => rfl
    | some f => cases emit (r.container service) r.target <;> rfl

/-- **Every unit of a run is what comes of one of its candidates.** -/
theorem emitted_of_run {incremental : Bool} {units : List CompilationUnit} {moment : Moment}
    {result : RunResult} {after : Generator}
    (h : (forRuns incremental).run units moment = .ok (result, after)) :
    ∀ u ∈ result.registry.units, ∃ site ∈ candidatesOf units,
      (Model.ofUnits (withMarker units)).service.outcome site = .unit u := by
  obtain ⟨⟨after', registry⟩, hexecute, hresult⟩ : ∃ e,
      (forRuns incremental).execute (Model.ofUnits (withMarker units)).service moment
        ((candidatesOf units).map some) .empty = .ok e ∧ result.registry = e.2 := by
    dsimp only [run] at h
    cases hexecute : (forRuns incremental).execute (Model.ofUnits (withMarker units)).service moment
        ((candidatesOf units).map some) .empty with
    | error e =>
      rw [hexecute] at h
      cases h
    | ok e =>
      rw [hexecute] at h
      cases h
      exact ⟨e, rfl, rfl⟩
  obtain ⟨p, hp, rfl⟩ := registry_of_execute hexecute
  intro u hu
  rw [hresult, Registry.units_add_empty] at hu
  have hgathered := lastOfEach_subset _ _ hu
  rw [hp.units] at hgathered
  obtain ⟨o, ho, hunit⟩ := List.mem_filterMap.mp hgathered
  obtain ⟨site, hsite, rfl⟩ := List.mem_map.mp ho
  rw [outcomeOf_of_nil rfl] at hunit
  refine ⟨site, ?_, ?_⟩
  · rw [distinctCandidates_map_some] at hsite
    exact firstOfEach_subset _ _ hsite
  · rw [unit?_outcome] at hunit
    cases houtcome : (Model.ofUnits (withMarker units)).service.outcome site with
    | unit v =>
      rw [houtcome] at hunit
      exact congrArg Outcome.unit (Option.some.inj hunit)
    | skip s =>
      rw [houtcome] at hunit
      cases hunit

end Generator

end Facade
