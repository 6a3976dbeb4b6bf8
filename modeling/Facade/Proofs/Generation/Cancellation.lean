import Facade.Proofs.Generation.Memo
import Facade.Proofs.Generation.Registry

/-!
# Cancelled passes

A pass changes nothing before it has looked for cancellation for the last time. If cancellation is
requested before the pass or during any of its calls, it leaves everything as it was; otherwise every
outcome is registered.

* `PassState`, `PassAction.perform`: a pass step by step, on a state that outlasts its failure;
* `PassAction.run_perform`: its steps come to what `execute` gives;
* `Calls.afterAll_eq`, `Moment.FallsIn`: the calls of a pass, and the moments within it;
* `Generator.runCandidates_eq`: the candidates of a pass, cancelled or not;
* `Generator.outcomeOf`, `Generator.foldl_advance_adds`: what comes of every candidate;
* **`Generator.execute_all_or_nothing`**: cancellation is all or nothing.
-/

namespace Facade

/-! ## A pass step by step -/

/-- What a pass can change: the generator, and what is registered. -/
structure PassState where
  generator : Generator
  registry : Registry

/-- A step of a pass. What was changed before a cancellation stays changed. -/
abbrev PassAction := EStateM Cancelled PassState

namespace PassAction

/-- Gives up if cancellation has been requested after these calls. -/
def look (moment : Moment) (calls : Calls) : PassAction Unit :=
  if moment.isReached calls then throw ⟨⟩ else pure ()

/-- Goes through the candidates; what is gathered is not part of the state. -/
def gather (service : Service) (moment : Moment) (p : Progress) : List TypeSite → PassAction Progress
  | [] => do
    look moment p.calls
    return p
  | site :: rest => do
    look moment p.calls
    let s ← get
    gather service moment (s.generator.advance service p site) rest

/-- Replaces the memo. -/
def replaceMemo (memo : Memo) : PassAction Unit :=
  modify fun s => { s with generator := { s.generator with memo := memo } }

/-- Counts units that were used again. -/
def countHits (hits : Nat) : PassAction Unit :=
  modify fun s => { s with generator := { s.generator with cacheHits := s.generator.cacheHits + hits } }

/-- Registers a unit. -/
def addUnit (u : GeneratedUnit) : PassAction Unit :=
  modify fun s => { s with registry := s.registry.addUnit u }

/-- Registers a skip. -/
def addSkip (skip : Skip) : PassAction Unit :=
  modify fun s => { s with registry := { s.registry with skips := s.registry.skips ++ [skip] } }

/-- Registers a notice. -/
def addNotice (notice : Notice) : PassAction Unit :=
  modify fun s => { s with registry := { s.registry with notices := s.registry.notices ++ [notice] } }

/-- Keeps what a pass has gathered, one piece after the other. -/
def settle (p : Progress) : PassAction Unit := do
  replaceMemo p.memo
  countHits p.hits
  p.units.forM addUnit
  p.skips.forM addSkip
  p.notices.forM addNotice

/-- A pass, step by step. -/
def perform (service : Service) (moment : Moment) (candidates : List (Option TypeSite)) :
    PassAction Unit :=
  match distinctCandidates candidates with
  | [] => pure ()
  | sites => do
    let p ← gather service moment .start sites
    settle p

variable {service : Service} {moment : Moment} {g : Generator} {registry : Registry}

theorem run_look (calls : Calls) (s : PassState) :
    (look moment calls).run s = if moment.isReached calls then .error ⟨⟩ s else .ok () s := by
  unfold look
  split_ifs
  · rfl
  · rfl

theorem run_gather (sites : List TypeSite) (p : Progress) (s : PassState) :
    (gather service moment p sites).run s =
      match s.generator.runCandidates service moment p sites with
      | .ok p' => .ok p' s
      | .error e => .error e s := by
  induction sites generalizing p with
  | nil =>
    rw [gather, EStateM.run_bind, run_look, Generator.runCandidates]
    split_ifs
    · rfl
    · rfl
  | cons site rest ih =>
    rw [gather, EStateM.run_bind, run_look, Generator.runCandidates]
    split_ifs
    · rfl
    · exact ih _

theorem run_addUnits (units : List GeneratedUnit) :
    (units.forM addUnit).run ⟨g, registry⟩ = .ok () ⟨g, units.foldl Registry.addUnit registry⟩ := by
  induction units generalizing registry with
  | nil => rfl
  | cons u units ih => exact ih

theorem run_addSkips (skips : List Skip) :
    (skips.forM addSkip).run ⟨g, registry⟩ =
      .ok () ⟨g, { registry with skips := registry.skips ++ skips }⟩ := by
  induction skips generalizing registry with
  | nil => rw [List.append_nil]; rfl
  | cons skip skips ih =>
    rw [List.append_cons]
    exact ih

theorem run_addNotices (notices : List Notice) :
    (notices.forM addNotice).run ⟨g, registry⟩ =
      .ok () ⟨g, { registry with notices := registry.notices ++ notices }⟩ := by
  induction notices generalizing registry with
  | nil => rw [List.append_nil]; rfl
  | cons notice notices ih =>
    rw [List.append_cons]
    exact ih

theorem run_settle (p : Progress) :
    (settle p).run ⟨g, registry⟩ = .ok () ⟨g.keeping p, registry.add p.units p.skips p.notices⟩ := by
  change ((p.units.forM addUnit >>= fun _ => p.skips.forM addSkip >>= fun _ =>
    p.notices.forM addNotice : PassAction Unit)).run ⟨g.keeping p, registry⟩ = _
  rw [EStateM.run_bind, run_addUnits]
  change (p.skips.forM addSkip >>= fun _ => p.notices.forM addNotice : PassAction Unit).run _ = _
  rw [EStateM.run_bind, run_addSkips]
  exact run_addNotices p.notices

/-- **The steps of a pass come to what `execute` gives**; if it is cancelled, nothing has changed. -/
theorem run_perform (candidates : List (Option TypeSite)) :
    (perform service moment candidates).run ⟨g, registry⟩ =
      match g.execute service moment candidates registry with
      | .ok (after, registered) => .ok () ⟨after, registered⟩
      | .error e => .error e ⟨g, registry⟩ := by
  unfold perform Generator.execute
  cases hsites : distinctCandidates candidates with
  | nil => rfl
  | cons site rest =>
    simp only
    rw [EStateM.run_bind, run_gather]
    cases hrun : g.runCandidates service moment .start (site :: rest) with
    | error e => rfl
    | ok p => exact run_settle p

end PassAction

/-! ## The calls of a pass -/

namespace Calls

/-- The calls after the resolution of some more candidates. -/
def afterAll (calls : Calls) (service : Service) (sites : List TypeSite) : Calls :=
  sites.foldl (fun calls site => calls.after service site) calls

/-- Every candidate takes a call for its symbol, and those with a symbol take one for interfaces. -/
theorem afterAll_eq (calls : Calls) (service : Service) (sites : List TypeSite) :
    calls.afterAll service sites =
      ⟨calls.symbols + sites.length,
        calls.interfaces + sites.countP fun t => (service.declaredSymbol? t.id).isSome⟩ := by
  induction sites generalizing calls with
  | nil => rfl
  | cons site rest ih =>
    rw [afterAll, List.foldl_cons]
    change (calls.after service site).afterAll service rest = _
    rw [ih, after, List.countP_cons, List.length_cons]
    split_ifs
    · simp only [Calls.mk.injEq]
      omega
    · simp only [Calls.mk.injEq]
      omega

end Calls

namespace Moment

/-- Cancellation is requested before a pass over these candidates, or during one of its calls. -/
def FallsIn (service : Service) (sites : List TypeSite) : Moment → Prop
  | before => True
  | atSymbol n => 1 ≤ n ∧ n ≤ sites.length
  | atInterfaces n =>
    1 ≤ n ∧ n ≤ sites.countP fun t => (service.declaredSymbol? t.id).isSome
  | never => False

theorem isReached_afterAll_iff {service : Service} {sites : List TypeSite} {moment : Moment} :
    moment.isReached (Calls.afterAll ⟨0, 0⟩ service sites) = true ↔ moment.FallsIn service sites := by
  rw [Calls.afterAll_eq]
  cases moment <;> simp [isReached, FallsIn, Nat.succ_le_iff]

theorem isReached_afterAll {calls : Calls} {moment : Moment} (h : moment.isReached calls = true)
    (service : Service) (sites : List TypeSite) :
    moment.isReached (calls.afterAll service sites) = true := by
  rw [Calls.afterAll_eq]
  cases moment with
  | before => rfl
  | never => exact h
  | atSymbol n =>
    simp only [isReached, Bool.and_eq_true, decide_eq_true_eq] at h ⊢
    omega
  | atInterfaces n =>
    simp only [isReached, Bool.and_eq_true, decide_eq_true_eq] at h ⊢
    omega

end Moment

/-! ## What a pass gathers -/

namespace Generator

variable {g : Generator} {service : Service} {moment : Moment}

theorem calls_advance (p : Progress) (site : TypeSite) :
    (g.advance service p site).calls = p.calls.after service site := by
  unfold advance
  cases service.resolve site with
  | error s => rfl
  | ok r =>
    simp only
    cases (g.produce p.memo (r.container service) r.target).1 with
    | skip s => rfl
    | unit u => by_cases hempty : u.text.isEmpty <;> simp only [hempty] <;> rfl

/-- **The candidates of a pass**: it is cancelled if cancellation is requested by the end of its last
call, and goes through all of them otherwise. -/
theorem runCandidates_eq (sites : List TypeSite) (p : Progress) :
    g.runCandidates service moment p sites =
      if moment.isReached (p.calls.afterAll service sites) then .error ⟨⟩
      else .ok (sites.foldl (g.advance service) p) := by
  induction sites generalizing p with
  | nil => rfl
  | cons site rest ih =>
    rw [runCandidates, ih, calls_advance]
    by_cases hreached : moment.isReached p.calls = true
    · rw [if_pos hreached, if_pos (Moment.isReached_afterAll hreached service (site :: rest))]
    · rw [if_neg hreached]
      rfl

variable (g service) in
/-- What comes of a candidate: its unit, which may be a remembered one, or why it has none. -/
def outcomeOf (site : TypeSite) : Outcome :=
  match service.resolve site with
  | .error s => .skip s
  | .ok r => (g.produce [] (r.container service) r.target).1

end Generator

/-- What is worth saying of a candidate. -/
def Service.noticesOf (service : Service) (site : TypeSite) : List Notice :=
  match service.resolve site with
  | .error _ => []
  | .ok r => r.notices

/-- The unit of an outcome, if it has a text. -/
def Outcome.unit? : Outcome → Option GeneratedUnit
  | unit u => if u.text.isEmpty then none else some u
  | skip _ => none

/-- The skip of an outcome. -/
def Outcome.skip? : Outcome → Option Skip
  | unit _ => none
  | skip s => some s

namespace Generator

variable {g : Generator} {service : Service} {moment : Moment}

theorem produce_fst_eq (memo : Memo) (c : Container) (t : Target) :
    (g.produce memo c t).1 = (g.produce [] c t).1 := by
  unfold produce
  cases g.fingerprint? with
  | none => rfl
  | some f =>
    simp only
    cases g.memo.get? (f c t) with
    | some u => rfl
    | none => cases emit c t <;> rfl

variable (g service) in
theorem advance_adds (p : Progress) (site : TypeSite) :
    (g.advance service p site).units = p.units ++ (g.outcomeOf service site).unit?.toList ∧
      (g.advance service p site).skips = p.skips ++ (g.outcomeOf service site).skip?.toList ∧
      (g.advance service p site).notices = p.notices ++ service.noticesOf site := by
  unfold advance outcomeOf Service.noticesOf
  cases service.resolve site with
  | error s => simp [Outcome.unit?, Outcome.skip?]
  | ok r =>
    simp only [produce_fst_eq p.memo]
    cases (g.produce [] (r.container service) r.target).1 with
    | skip s => simp [Outcome.unit?, Outcome.skip?]
    | unit u => by_cases hempty : u.text.isEmpty <;> simp [Outcome.unit?, Outcome.skip?, hempty]

variable (g service) in
/-- **A whole pass gathers the outcomes and the notices of all candidates**, in their order. -/
theorem foldl_advance_adds (sites : List TypeSite) (p : Progress) :
    (sites.foldl (g.advance service) p).units =
        p.units ++ (sites.map (g.outcomeOf service)).filterMap Outcome.unit? ∧
      (sites.foldl (g.advance service) p).skips =
        p.skips ++ (sites.map (g.outcomeOf service)).filterMap Outcome.skip? ∧
      (sites.foldl (g.advance service) p).notices = p.notices ++ sites.flatMap service.noticesOf := by
  induction sites generalizing p with
  | nil => simp
  | cons site rest ih =>
    obtain ⟨hunits, hskips, hnotices⟩ := advance_adds g service p site
    obtain ⟨hunits', hskips', hnotices'⟩ := ih (g.advance service p site)
    rw [List.foldl_cons, hunits', hskips', hnotices', hunits, hskips, hnotices, List.map_cons,
      List.flatMap_cons]
    refine ⟨?_, ?_, by rw [List.append_assoc]⟩
    · cases hunit : (g.outcomeOf service site).unit? <;> simp [hunit]
    · cases hskip : (g.outcomeOf service site).skip? <;> simp [hskip]

/-! ## Units have texts -/

theorem text_of_emit {c : Container} {t : Target} {u : GeneratedUnit} (h : emit c t = .unit u) :
    u.text.isEmpty = false := by
  unfold emit at h
  split at h
  · cases h
  · cases h
  · cases h
    simp [Code.text]

end Generator

/-- Every remembered unit has a text. -/
def Memo.HasTexts (m : Memo) : Prop := ∀ e ∈ m, e.2.text.isEmpty = false

theorem Memo.HasTexts.put {m : Memo} (hm : m.HasTexts) (key : String) {u : GeneratedUnit}
    (hu : u.text.isEmpty = false) : (m.put key u).HasTexts := by
  intro e he
  rcases List.mem_append.mp he with he | he
  · exact hm e (List.mem_filter.mp he).1
  · rw [List.mem_singleton.mp he]
    exact hu

namespace Generator

variable {g : Generator} {service : Service}

theorem hasTexts_produce (hg : g.memo.HasTexts) {memo : Memo} (hmemo : memo.HasTexts)
    (c : Container) (t : Target) :
    (∀ u, (g.produce memo c t).1 = .unit u → u.text.isEmpty = false) ∧
      (g.produce memo c t).2.2.HasTexts := by
  unfold produce
  cases g.fingerprint? with
  | none => exact ⟨fun u hu => text_of_emit hu, hmemo⟩
  | some f =>
    simp only
    cases hget : g.memo.get? (f c t) with
    | some u =>
      have hu := hg _ (Memo.mem_of_get? hget)
      exact ⟨fun v hv => Outcome.unit.inj hv ▸ hu, hmemo.put _ hu⟩
    | none =>
      cases hemit : emit c t with
      | unit u =>
        have hu := text_of_emit hemit
        exact ⟨fun v hv => Outcome.unit.inj hv ▸ hu, hmemo.put _ hu⟩
      | skip s => exact ⟨fun v hv => absurd hv (by simp), hmemo⟩

theorem hasTexts_foldl_advance (hg : g.memo.HasTexts) (sites : List TypeSite) {p : Progress}
    (hp : p.memo.HasTexts) : (sites.foldl (g.advance service) p).memo.HasTexts := by
  induction sites generalizing p with
  | nil => exact hp
  | cons site rest ih =>
    refine ih ?_
    rw [advance_memo]
    cases service.resolve site with
    | error s => exact hp
    | ok r => exact (hasTexts_produce hg hp _ _).2

theorem hasTexts_afterCall (hg : g.memo.HasTexts) (c : Call) : (g.afterCall c).memo.HasTexts := by
  unfold afterCall
  by_cases hs : distinctCandidates c.candidates = []
  · rw [answer_of_no_candidate hs]
    exact hg
  · rw [answer_eq hs, runCandidates_eq]
    split_ifs
    · exact hg
    · exact hasTexts_foldl_advance hg _ (p := .start) fun _ h => absurd h List.not_mem_nil

/-- **Whatever passes a generator has gone through**, it remembers units with texts only. -/
theorem hasTexts_afterHistory (f? : Option FingerprintFunction) (history : List Call) :
    ((fresh f?).afterHistory history).memo.HasTexts := by
  suffices h : ∀ g : Generator, g.memo.HasTexts → (g.afterHistory history).memo.HasTexts from
    h _ fun _ he => absurd he List.not_mem_nil
  induction history with
  | nil => exact fun _ hg => hg
  | cons c rest ih => exact fun g hg => ih _ (hasTexts_afterCall hg c)

theorem text_of_outcomeOf (hg : g.memo.HasTexts) {site : TypeSite} {u : GeneratedUnit}
    (h : g.outcomeOf service site = .unit u) : u.text.isEmpty = false := by
  unfold outcomeOf at h
  cases hresolve : service.resolve site with
  | error s => rw [hresolve] at h; cases h
  | ok r =>
    rw [hresolve] at h
    have hnil : Memo.HasTexts [] := fun _ he => absurd he List.not_mem_nil
    exact (hasTexts_produce hg hnil _ _).1 u h

/-! ## All or nothing -/

theorem distinctCandidates_ne_nil {candidates : List (Option TypeSite)} {site : TypeSite}
    (h : some site ∈ candidates) : distinctCandidates candidates ≠ [] := by
  -- what has been found is never lost again
  have hkept : ∀ rest found : List TypeSite, found ≠ [] → (rest.foldl (fun found t =>
      if found.any fun f => f.id == t.id then found else found ++ [t]) found) ≠ [] := by
    intro rest
    induction rest with
    | nil => exact fun _ hfound => hfound
    | cons t rest ih =>
      intro found hfound
      refine ih _ ?_
      dsimp only
      split_ifs
      · exact hfound
      · simp
  have hmem : site ∈ candidates.filterMap id := List.mem_filterMap.mpr ⟨some site, h, rfl⟩
  unfold distinctCandidates
  cases hsites : candidates.filterMap id with
  | nil => rw [hsites] at hmem; cases hmem
  | cons first rest => exact hkept rest [first] (by simp)

/-- The pass has gathered what comes of every one of the candidates, in their order. -/
structure Gathers (g : Generator) (service : Service) (sites : List TypeSite) (p : Progress) :
    Prop where
  pass : p = sites.foldl (g.advance service) .start
  units : p.units = (sites.map (g.outcomeOf service)).filterMap Outcome.unit?
  skips : p.skips = (sites.map (g.outcomeOf service)).filterMap Outcome.skip?
  notices : p.notices = sites.flatMap service.noticesOf

theorem gathers_foldl_advance (g : Generator) (service : Service) (sites : List TypeSite) :
    g.Gathers service sites (sites.foldl (g.advance service) .start) := by
  obtain ⟨hunits, hskips, hnotices⟩ := foldl_advance_adds g service sites .start
  exact ⟨rfl, hunits, hskips, hnotices⟩

/-- **Cancellation is all or nothing.** A pass over at least one candidate is cancelled if cancellation
is requested before it or during one of its calls, the last one among them; then the generator and the
registry are as they were. Otherwise all outcomes and notices are registered in the order of the
candidates, a unit in the place of any other with its hint name, and the memo and the hits are those of
the pass. Only a unit without a text is passed over, and no generator comes to have one. -/
theorem execute_all_or_nothing (g : Generator) (service : Service) (moment : Moment)
    (candidates : List (Option TypeSite)) (registry : Registry)
    (hsome : ∃ site, some site ∈ candidates) :
    (moment.FallsIn service (distinctCandidates candidates) →
      g.execute service moment candidates registry = .error ⟨⟩ ∧
      (PassAction.perform service moment candidates).run ⟨g, registry⟩ = .error ⟨⟩ ⟨g, registry⟩) ∧
    (¬ moment.FallsIn service (distinctCandidates candidates) →
      ∃ p registered, g.Gathers service (distinctCandidates candidates) p ∧
        registered.units =
          registry.units.filter (fun v => v.hintName ∉ p.units.map GeneratedUnit.hintName) ++
            lastOfEach GeneratedUnit.hintName p.units ∧
        registered.skips = registry.skips ++ p.skips ∧
        registered.notices = registry.notices ++ p.notices ∧
        g.execute service moment candidates registry = .ok (g.keeping p, registered) ∧
        (PassAction.perform service moment candidates).run ⟨g, registry⟩ =
          .ok () ⟨g.keeping p, registered⟩) ∧
    ∀ f? history, g = (fresh f?).afterHistory history →
      ∀ site u, g.outcomeOf service site = .unit u → (Outcome.unit u).unit? = some u := by
  obtain ⟨site, hsite⟩ := hsome
  have hexecute : g.execute service moment candidates registry = _ :=
    answer_eq (g := g) (c := ⟨service, moment, candidates, registry⟩) (distinctCandidates_ne_nil hsite)
  have hperform : (PassAction.perform service moment candidates).run ⟨g, registry⟩ = _ :=
    PassAction.run_perform candidates
  have hreached : moment.isReached (Progress.start.calls.afterAll service
      (distinctCandidates candidates)) = true ↔ moment.FallsIn service (distinctCandidates candidates) :=
    Moment.isReached_afterAll_iff
  simp only [runCandidates_eq] at hexecute
  refine ⟨fun hfalls => ?_, fun hfalls => ?_, fun f? history hg site u hu => ?_⟩
  · rw [if_pos (hreached.mpr hfalls)] at hexecute
    rw [hperform, hexecute]
    exact ⟨rfl, rfl⟩
  · rw [if_neg fun h => hfalls (hreached.mp h)] at hexecute
    refine ⟨_, _, gathers_foldl_advance g service _, Registry.units_add .., Registry.skips_add ..,
      Registry.notices_add .., hexecute, ?_⟩
    rw [hperform, hexecute]
    rfl
  · have htext := text_of_outcomeOf (hg ▸ hasTexts_afterHistory f? history) hu
    rw [Outcome.unit?, htext]
    rfl

/-- The only candidate of a call is given up during its last question, and registered if cancellation
would come with the next one. -/
theorem execute_all_or_nothing_last_call :
    (PassAction.perform sampleService (.atInterfaces 1) sampleCall.candidates).run
        ⟨sampleGenerator, .empty⟩ = .error ⟨⟩ ⟨sampleGenerator, .empty⟩ ∧
      ∃ p registered, sampleGenerator.Gathers sampleService [sampleSite] p ∧
        registered.units = lastOfEach GeneratedUnit.hintName p.units ∧
        (PassAction.perform sampleService (.atInterfaces 2) sampleCall.candidates).run
          ⟨sampleGenerator, .empty⟩ = .ok () ⟨sampleGenerator.keeping p, registered⟩ := by
  have hsome : ∃ site, some site ∈ sampleCall.candidates := ⟨sampleSite, by simp [sampleCall]⟩
  have hsites : distinctCandidates sampleCall.candidates = [sampleSite] := rfl
  have hall := fun moment =>
    execute_all_or_nothing sampleGenerator sampleService moment sampleCall.candidates .empty hsome
  have hcount : [sampleSite].countP (fun t => (sampleService.declaredSymbol? t.id).isSome) = 1 := rfl
  refine ⟨((hall (.atInterfaces 1)).1 ?_).2, ?_⟩
  · rw [hsites, Moment.FallsIn, hcount]
    exact ⟨Nat.le_refl 1, Nat.le_refl 1⟩
  · obtain ⟨p, registered, hp, hunits, -, -, -, hperform⟩ := (hall (.atInterfaces 2)).2.1 fun hfalls => by
      rw [hsites, Moment.FallsIn, hcount] at hfalls
      omega
    exact ⟨p, registered, hsites ▸ hp, hunits, hperform⟩

end Generator

end Facade
