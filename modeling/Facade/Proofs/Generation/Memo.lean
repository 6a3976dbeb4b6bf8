import Mathlib.Tactic.Common
import Facade.Generator.Pass

/-!
# Passes with a memo

A generator with a fingerprint function uses the units of its last pass again. If equal fingerprints
mean equal outcomes, this cannot be seen from outside: after any history of passes, cancelled ones
and empty ones among them, a pass registers what a generator without a memo registers.

* `Outcome.Same`, `Faithful`: when a fingerprint function tells outcomes apart;
* `Memo.IsSound`: the invariant; every remembered unit is what `emit` gives for its fingerprint;
* `Generator.produce_fst`: a sound memo answers as `emit` does;
* `Progress.Agrees`: the simulation between a pass with a memo and one without;
* **`registers_after_history`**: a memo is transparent over any history.
-/

namespace Facade

/-! ## Faithful fingerprints -/

/-- The same unit, or skips with the same reason and detail. Where a skip was found does not count. -/
def Outcome.Same : Outcome → Outcome → Prop
  | .unit u, .unit v => u = v
  | .skip s, .skip t => s.reason = t.reason ∧ s.detail = t.detail
  | _, _ => False

instance : (o p : Outcome) → Decidable (o.Same p)
  | .unit u, .unit v => inferInstanceAs (Decidable (u = v))
  | .skip s, .skip t => inferInstanceAs (Decidable (s.reason = t.reason ∧ s.detail = t.detail))
  | .unit _, .skip _ | .skip _, .unit _ => isFalse id

@[simp] theorem Outcome.same_unit_iff {u : GeneratedUnit} {o : Outcome} :
    Outcome.Same (.unit u) o ↔ o = .unit u := by
  cases o with
  | unit v => simp only [Outcome.Same, Outcome.unit.injEq, eq_comm]
  | skip s => simp only [Outcome.Same, reduceCtorEq]

/-- Pairs with equal fingerprints have the same outcome. -/
def Faithful (f : FingerprintFunction) : Prop :=
  ∀ c t c' t', f c t = f c' t' → (emit c t).Same (emit c' t')

/-- A text that can be told apart from what follows it. -/
def framed (s : String) : List Char := List.replicate s.length '0' ++ '1' :: s.toList

theorem framed_append_inj {s s' : String} {r r' : List Char}
    (h : framed s ++ r = framed s' ++ r') : s = s' ∧ r = r' := by
  have hzeros (t : String) (q : List Char) :
      (framed t ++ q).takeWhile (· == '0') = List.replicate t.length '0' := by
    simp [framed]
  have hlen : s.length = s'.length := by
    have := congrArg (fun cs => (cs.takeWhile (· == '0')).length) h
    simpa only [hzeros, List.length_replicate] using this
  simp only [framed, hlen, List.append_assoc, List.append_cancel_left_eq, List.cons_append,
    List.cons.injEq, true_and] at h
  obtain ⟨hs, hr⟩ := List.append_inj h hlen
  exact ⟨String.toList_injective hs, hr⟩

/-- An outcome as a text that determines it. -/
def Outcome.code : Outcome → String
  | .unit u => String.ofList ('u' :: (framed u.name ++ (framed u.hintName ++ u.text.toList)))
  | .skip s => String.ofList ('s' :: (framed s.reason.title ++ s.detail.toList))

theorem SkipReason.title_injective : Function.Injective SkipReason.title := by
  intro a b h
  cases a <;> cases b <;> first | rfl | exact absurd h (by decide)

theorem Outcome.same_of_code_eq {o o' : Outcome} (h : o.code = o'.code) : o.Same o' := by
  cases o with
  | unit u =>
    cases o' with
    | unit v =>
      simp only [Outcome.code, String.ofList_inj, List.cons.injEq, true_and] at h
      obtain ⟨hname, h⟩ := framed_append_inj h
      obtain ⟨hhint, htext⟩ := framed_append_inj h
      obtain ⟨name, hint, text⟩ := u
      simp only at hname hhint htext
      rw [Outcome.same_unit_iff, hname, hhint, String.toList_injective htext]
    | skip s => exact absurd (List.cons.inj (String.ofList_injective h)).1 (by decide)
  | skip s =>
    cases o' with
    | unit v => exact absurd (List.cons.inj (String.ofList_injective h)).1 (by decide)
    | skip s' =>
      simp only [Outcome.code, String.ofList_inj, List.cons.injEq, true_and] at h
      obtain ⟨hreason, hdetail⟩ := framed_append_inj h
      exact ⟨SkipReason.title_injective hreason, String.toList_injective hdetail⟩

/-- A fingerprint that is the outcome itself. -/
def outcomeFingerprint : FingerprintFunction := fun c t => (emit c t).code

theorem faithful_outcomeFingerprint : Faithful outcomeFingerprint :=
  fun _ _ _ _ h => Outcome.same_of_code_eq h

/-! ## The invariant of a memo -/

namespace Memo

/-- Every entry holds the unit that some pair with its fingerprint gives. -/
def IsSound (f : FingerprintFunction) (m : Memo) : Prop :=
  ∀ e ∈ m, ∃ c t, f c t = e.1 ∧ emit c t = .unit e.2

theorem isSound_nil (f : FingerprintFunction) : IsSound f [] := fun _ h => absurd h List.not_mem_nil

theorem mem_of_get? {m : Memo} {key : String} {u : GeneratedUnit} (h : m.get? key = some u) :
    (key, u) ∈ m := by
  obtain ⟨e, he, rfl⟩ := Option.map_eq_some_iff.mp h
  have hkey : e.1 = key := by simpa using List.find?_some he
  rw [← hkey]
  exact List.mem_of_find?_eq_some he

theorem IsSound.put {f : FingerprintFunction} {m : Memo} (hm : m.IsSound f) {c : Container}
    {t : Target} {u : GeneratedUnit} (hu : emit c t = .unit u) : (m.put (f c t) u).IsSound f := by
  intro e he
  rcases List.mem_append.mp he with he | he
  · exact hm e (List.mem_filter.mp he).1
  · obtain rfl := List.mem_singleton.mp he
    exact ⟨c, t, rfl, hu⟩

theorem IsSound.emit_eq {f : FingerprintFunction} (hf : Faithful f) {m : Memo} (hm : m.IsSound f)
    {c : Container} {t : Target} {u : GeneratedUnit} (h : m.get? (f c t) = some u) :
    emit c t = .unit u := by
  obtain ⟨c', t', hkey, hu⟩ := hm _ (mem_of_get? h)
  have hsame := hf c' t' c t hkey
  rw [hu] at hsame
  exact Outcome.same_unit_iff.mp hsame

end Memo

/-! ## One candidate -/

namespace Generator

variable {f : FingerprintFunction} (hf : Faithful f) {g : Generator}

include hf in
/-- **A sound memo answers as `emit` does.** -/
theorem produce_fst (hg : g.fingerprint? = some f) (hm : g.memo.IsSound f) (memo : Memo)
    (c : Container) (t : Target) : (g.produce memo c t).1 = emit c t := by
  simp only [produce, hg]
  cases hget : g.memo.get? (f c t) with
  | some u => exact (hm.emit_eq hf hget).symm
  | none => cases hemit : emit c t <;> rfl

include hf in
theorem produce_isSound (hg : g.fingerprint? = some f) (hm : g.memo.IsSound f) {memo : Memo}
    (hmemo : memo.IsSound f) (c : Container) (t : Target) :
    (g.produce memo c t).2.2.IsSound f := by
  simp only [produce, hg]
  cases hget : g.memo.get? (f c t) with
  | some u => exact hmemo.put (hm.emit_eq hf hget)
  | none =>
    cases hemit : emit c t with
    | unit u => exact hmemo.put hemit
    | skip s => exact hmemo

theorem produce_fresh (memo : Memo) (c : Container) (t : Target) :
    (fresh none).produce memo c t = (emit c t, false, memo) := rfl

end Generator

/-! ## The simulation of a pass -/

/-- Two passes have gathered the same units, skips and notices, with the same calls. -/
structure Progress.Agrees (p q : Progress) : Prop where
  units : p.units = q.units
  skips : p.skips = q.skips
  notices : p.notices = q.notices
  calls : p.calls = q.calls

theorem Progress.Agrees.refl (p : Progress) : p.Agrees p := ⟨rfl, rfl, rfl, rfl⟩

namespace Generator

variable {f : FingerprintFunction} {g : Generator} (service : Service)

theorem advance_agrees {plain : Generator} {p q : Progress} (h : p.Agrees q) (site : TypeSite)
    (hout : ∀ c t, (g.produce p.memo c t).1 = (plain.produce q.memo c t).1) :
    (g.advance service p site).Agrees (plain.advance service q site) := by
  obtain ⟨hu, hs, hn, hc⟩ := h
  unfold advance
  cases hr : service.resolve site with
  | error s => exact ⟨hu, by simp only [hs], hn, by simp only [hc]⟩
  | ok r =>
    simp only
    rw [hout]
    cases (plain.produce q.memo (r.container service) r.target).1 with
    | skip s => exact ⟨hu, by simp only [hs], by simp only [hn], by simp only [hc]⟩
    | unit u =>
      by_cases hempty : u.text.isEmpty
      · simp only [hempty, if_true]
        exact ⟨hu, hs, by simp only [hn], by simp only [hc]⟩
      · simp only [hempty]
        exact ⟨by simp only [hu]; rfl, hs, by simp only [hn]; rfl, by simp only [hc]; rfl⟩

theorem advance_memo (p : Progress) (site : TypeSite) :
    (g.advance service p site).memo = match service.resolve site with
      | .error _ => p.memo
      | .ok r => (g.produce p.memo (r.container service) r.target).2.2 := by
  unfold advance
  cases hr : service.resolve site with
  | error s => rfl
  | ok r =>
    simp only
    cases (g.produce p.memo (r.container service) r.target).1 with
    | skip s => rfl
    | unit u => by_cases hempty : u.text.isEmpty <;> simp only [hempty] <;> rfl

variable (hf : Faithful f) (hg : g.fingerprint? = some f) (hm : g.memo.IsSound f)

include hf hg hm

theorem advance_isSound {p : Progress} (hp : p.memo.IsSound f) (site : TypeSite) :
    (g.advance service p site).memo.IsSound f := by
  rw [advance_memo]
  cases service.resolve site with
  | error s => exact hp
  | ok r => exact produce_isSound hf hg hm hp _ _

/-- A pass with a memo and one without end alike: both are cancelled, or both gather the same, and
the memo that is kept is sound. -/
theorem runCandidates_agrees (moment : Moment) (sites : List TypeSite) {p q : Progress}
    (h : p.Agrees q) (hp : p.memo.IsSound f) :
    (g.runCandidates service moment p sites = .error ⟨⟩ ∧
        (fresh none).runCandidates service moment q sites = .error ⟨⟩) ∨
      ∃ p' q', g.runCandidates service moment p sites = .ok p' ∧
        (fresh none).runCandidates service moment q sites = .ok q' ∧
        p'.Agrees q' ∧ p'.memo.IsSound f := by
  induction sites generalizing p q with
  | nil =>
    simp only [runCandidates, h.calls]
    split_ifs
    · exact Or.inl ⟨rfl, rfl⟩
    · exact Or.inr ⟨p, q, rfl, rfl, h, hp⟩
  | cons site rest ih =>
    simp only [runCandidates, h.calls]
    split_ifs
    · exact Or.inl ⟨rfl, rfl⟩
    · refine ih (advance_agrees service h site fun c t => ?_)
        (advance_isSound service hf hg hm hp site)
      rw [produce_fst hf hg hm, produce_fresh]

omit hf hg hm in
theorem runCandidates_never {moment : Moment} {sites : List TypeSite} {p p' : Progress}
    (h : g.runCandidates service moment p sites = .ok p') :
    g.runCandidates service .never p sites = .ok p' := by
  induction sites generalizing p with
  | nil =>
    simp only [runCandidates] at h ⊢
    split_ifs at h
    exact h
  | cons site rest ih =>
    simp only [runCandidates] at h ⊢
    split_ifs at h
    exact ih h

end Generator

/-! ## Histories -/

/-- A call of a generator: the service, when cancellation is requested, the candidates, and what was
registered before. -/
structure Call where
  service : Service
  moment : Moment
  candidates : List (Option TypeSite)
  registry : Registry

namespace Generator

/-- What a call gives: the generator and the registry afterwards, unless it is cancelled. -/
def answer (g : Generator) (c : Call) : Except Cancelled (Generator × Registry) :=
  g.execute c.service c.moment c.candidates c.registry

/-- The generator after a call; a cancelled call leaves it as it is. -/
def afterCall (g : Generator) (c : Call) : Generator :=
  match g.answer c with
  | .ok (after, _) => after
  | .error _ => g

/-- The generator after a history of calls. -/
def afterHistory (g : Generator) (history : List Call) : Generator := history.foldl afterCall g

/-- What a completed call registers. -/
def registers (g : Generator) (c : Call) : Except Cancelled Registry := (g.answer c).map Prod.snd

/-- The generator after a completed pass. -/
def keeping (g : Generator) (p : Progress) : Generator :=
  { g with memo := p.memo, cacheHits := g.cacheHits + p.hits }

theorem answer_of_no_candidate {g : Generator} {c : Call}
    (h : distinctCandidates c.candidates = []) : g.answer c = .ok (g, c.registry) := by
  unfold answer execute
  rw [h]

theorem answer_eq {g : Generator} {c : Call} (h : distinctCandidates c.candidates ≠ []) :
    g.answer c =
      (g.runCandidates c.service c.moment .start (distinctCandidates c.candidates)).map
        fun p => (g.keeping p, c.registry.add p.units p.skips p.notices) := by
  unfold answer execute
  cases hs : distinctCandidates c.candidates with
  | nil => exact absurd hs h
  | cons site rest =>
    cases hrun : g.runCandidates c.service c.moment .start (site :: rest) with
    | error e => simp only [hrun]; rfl
    | ok p => simp only [hrun]; rfl

theorem answer_never {g after : Generator} {c : Call} {r : Registry}
    (h : g.answer c = .ok (after, r)) : g.answer { c with moment := .never } = .ok (after, r) := by
  by_cases hs : distinctCandidates c.candidates = []
  · rw [answer_of_no_candidate hs] at h
    rw [answer_of_no_candidate (c := { c with moment := .never }) hs]
    exact h
  · rw [answer_eq hs] at h
    rw [answer_eq (c := { c with moment := .never }) hs]
    cases hrun : g.runCandidates c.service c.moment .start (distinctCandidates c.candidates) with
    | error e => rw [hrun] at h; exact nomatch h
    | ok p => rw [hrun] at h; rw [runCandidates_never c.service hrun]; exact h

variable {f : FingerprintFunction} (hf : Faithful f) {g : Generator}

/-- A generator that uses `f` and remembers only what `emit` gives. -/
structure Remembers (f : FingerprintFunction) (g : Generator) : Prop where
  fingerprint : g.fingerprint? = some f
  memo : g.memo.IsSound f

theorem remembers_fresh (f : FingerprintFunction) : Remembers f (fresh (some f)) :=
  ⟨rfl, Memo.isSound_nil f⟩

include hf

/-- One call of a generator with a sound memo: it ends as it does without a memo, and the memo it
leaves is sound. -/
theorem answer_agrees (hg : Remembers f g) (c : Call) :
    (g.answer c = .error ⟨⟩ ∧ (fresh none).answer c = .error ⟨⟩) ∨
      ∃ after plain r, g.answer c = .ok (after, r) ∧ (fresh none).answer c = .ok (plain, r) ∧
        Remembers f after := by
  by_cases hs : distinctCandidates c.candidates = []
  · exact Or.inr ⟨g, fresh none, c.registry, answer_of_no_candidate hs,
      answer_of_no_candidate hs, hg⟩
  · rw [answer_eq hs, answer_eq hs]
    rcases runCandidates_agrees c.service hf hg.fingerprint hg.memo c.moment
        (distinctCandidates c.candidates) (Progress.Agrees.refl .start) (Memo.isSound_nil f) with
      ⟨h, h'⟩ | ⟨p, q, h, h', hpq, hp⟩
    · exact Or.inl ⟨by rw [h]; rfl, by rw [h']; rfl⟩
    · refine Or.inr ⟨g.keeping p, (fresh none).keeping q,
        c.registry.add p.units p.skips p.notices, by rw [h]; rfl, ?_, hg.fingerprint, hp⟩
      rw [h', hpq.units, hpq.skips, hpq.notices]
      rfl

theorem Remembers.afterCall (hg : Remembers f g) (c : Call) : Remembers f (g.afterCall c) := by
  unfold Generator.afterCall
  rcases answer_agrees hf hg c with ⟨h, -⟩ | ⟨after, plain, r, h, -, hafter⟩
  · rw [h]; exact hg
  · rw [h]; exact hafter

theorem Remembers.afterHistory (hg : Remembers f g) (history : List Call) :
    Remembers f (g.afterHistory history) := by
  induction history generalizing g with
  | nil => exact hg
  | cons c rest ih => exact ih (hg.afterCall hf c)

/-- **A memo is transparent over any history.** After any calls of a generator with a faithful
fingerprint function, completed, cancelled or empty, a further call is cancelled where a generator
without a memo would be, and otherwise registers the units in order, the skips and the notices that a
generator without a memo registers, cancelled or not. -/
theorem registers_after_history (history : List Call) (c : Call) :
    ((fresh (some f)).afterHistory history).registers c = (fresh none).registers c ∧
      ∀ r, ((fresh (some f)).afterHistory history).registers c = .ok r →
        (fresh none).registers { c with moment := .never } = .ok r := by
  have hg := (remembers_fresh f).afterHistory hf history
  unfold registers
  rcases answer_agrees hf hg c with ⟨h, h'⟩ | ⟨after, plain, r, h, h', -⟩
  · rw [h, h']
    exact ⟨rfl, fun r hr => nomatch hr⟩
  · rw [h, h', answer_never h']
    exact ⟨rfl, fun r hr => hr⟩

end Generator

section Example

/-- The type `C` of the namespace `N`. -/
def sampleClass : DefinitionKey := .topLevel (some "N") "C" 0

/-- The interface `I` of the namespace `N`. -/
def sampleInterface : DefinitionKey := .topLevel (some "N") "I" 0

/-- The marker interface. -/
def sampleMarker : DefinitionKey := .topLevel (some "FacadeGenerator") "IFacadeGenerator" 1

/-- Every declaration declares `C`, which realizes the marker with `I`. -/
def sampleService : Service where
  program := ⟨[
    ⟨sampleClass, .classKind, false, .publicAccess, [], [], none, [], []⟩,
    ⟨sampleInterface, .interfaceKind, false, .publicAccess, [], [], none, [], []⟩,
    ⟨sampleMarker, .interfaceKind, false, .internalAccess,
      [⟨"T", 0, "FacadeGenerator.IFacadeGenerator", none⟩], [], none, [], []⟩]⟩
  declaredSymbol? _ := some (.definition sampleClass)
  allInterfaces _ := [.constructed sampleMarker [.definition sampleInterface]]

/-- A declaration of `C`. -/
def sampleSite : TypeSite :=
  ⟨⟨0, default, [⟨"N", false, [], none⟩], [], []⟩, 0,
    ⟨⟨.classForm, "C", [], [], [], ["partial"], [], none, none⟩, []⟩⟩

/-- A call with a candidate, an absent one and the first one again. -/
def sampleCall : Call :=
  ⟨sampleService, .never, [some sampleSite, none, some sampleSite], .empty⟩

/-- A generator after a completed and a cancelled call. -/
def sampleGenerator : Generator :=
  (Generator.fresh (some outcomeFingerprint)).afterHistory
    [sampleCall, { sampleCall with moment := .atSymbol 1 }]

/-- A completed and a cancelled call before a call that uses the unit of the first one again. -/
theorem registers_after_hit :
    Faithful outcomeFingerprint ∧
      (sampleGenerator.afterCall sampleCall).cacheHits = 1 ∧
      sampleGenerator.registers sampleCall = (Generator.fresh none).registers sampleCall :=
  ⟨faithful_outcomeFingerprint, by decide +kernel,
    (Generator.registers_after_history faithful_outcomeFingerprint
      [sampleCall, { sampleCall with moment := .atSymbol 1 }] sampleCall).1⟩

end Example

end Facade
