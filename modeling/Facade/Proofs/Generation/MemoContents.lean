import Facade.Proofs.Generation.Registration

/-!
# What a memo holds

A pass that comes to its end leaves behind the fingerprints of the candidates that ended with a unit, be
it a new or a remembered one, and counts the candidates whose fingerprint was remembered before it. A
call that is cancelled or has no candidate changes neither. So a generator remembers its last pass and
nothing else.

* `Generator.leftBy`, `Generator.isPass`: the generator that a call leaves, step by step, and the calls
  that come to the end of a pass;
* `Service.fingerprint?`, `Generator.unitKeys`, `Generator.reused`: what a pass looks up and stores;
* `Generator.mem_keys_foldl_advance`, `Generator.hits_foldl_advance`: the loop of a pass;
* `Generator.mem_keys_leftBy`: one call;
* **`Generator.memo_of_history`**: a memo after any history.
-/

namespace Facade

/-! ## Keys of a memo -/

namespace Memo

theorem isSome_get?_iff {m : Memo} {key : String} : (m.get? key).isSome = true ↔ key ∈ m.keys := by
  simp [get?, keys]

theorem keys_put (m : Memo) (key : String) (u : GeneratedUnit) :
    (m.put key u).keys = m.keys.filter (· != key) ++ [key] := by
  rw [put, keys, keys, List.map_append, List.filter_map]
  rfl

theorem mem_keys_put {m : Memo} {key k : String} {u : GeneratedUnit} :
    k ∈ (m.put key u).keys ↔ k ∈ m.keys ∨ k = key := by
  rw [keys_put]
  by_cases hk : k = key <;> simp [hk]

theorem nodup_keys_put {m : Memo} (hm : m.keys.Nodup) (key : String) (u : GeneratedUnit) :
    (m.put key u).keys.Nodup := by
  rw [keys_put]
  exact List.nodup_append.mpr ⟨hm.filter _, by simp, by simp⟩

end Memo

/-- The fingerprint of a candidate, if it resolves. -/
def Service.fingerprint? (service : Service) (f : FingerprintFunction) (site : TypeSite) :
    Option String :=
  match service.resolve site with
  | .error _ => none
  | .ok r => some (f (r.container service) r.target)

namespace Generator

variable {g : Generator} {service : Service} {f : FingerprintFunction}

/-! ## One candidate -/

variable (g service) in
/-- The candidate ends with a unit, be it new or remembered. -/
def hasUnit (site : TypeSite) : Bool := (g.outcomeOf service site).emitted?.isSome

variable (g service f) in
/-- The candidate resolves, and its fingerprint is remembered. -/
def reuses (site : TypeSite) : Bool := (service.fingerprint? f site).any g.memo.keys.contains

theorem hasUnit_of_outcome {site : TypeSite}
    (h : (service.outcome site).emitted?.isSome = true) : g.hasUnit service site = true := by
  unfold Service.outcome at h
  unfold hasUnit outcomeOf
  cases hresolve : service.resolve site with
  | error s =>
    rw [hresolve] at h
    cases h
  | ok r =>
    rw [hresolve] at h
    simp only [produce] at h ⊢
    cases g.fingerprint? with
    | none => exact h
    | some f =>
      simp only
      cases g.memo.get? (f (r.container service) r.target) with
      | some u => rfl
      | none => cases hemit : emit (r.container service) r.target <;> simp_all [Outcome.emitted?]

theorem mem_keys_produce (hg : g.fingerprint? = some f) {memo : Memo} {c : Container} {t : Target}
    {key : String} :
    key ∈ (g.produce memo c t).2.2.keys ↔
      key ∈ memo.keys ∨ (g.produce [] c t).1.emitted?.isSome = true ∧ key = f c t := by
  simp only [produce, hg]
  cases g.memo.get? (f c t) with
  | some u => simp [Memo.mem_keys_put, Outcome.emitted?]
  | none =>
    cases emit c t with
    | unit u => simp [Memo.mem_keys_put, Outcome.emitted?]
    | skip s => simp [Outcome.emitted?]

theorem nodup_keys_produce {memo : Memo} (hmemo : memo.keys.Nodup) (c : Container) (t : Target) :
    (g.produce memo c t).2.2.keys.Nodup := by
  unfold produce
  cases g.fingerprint? with
  | none => exact hmemo
  | some f =>
    simp only
    cases g.memo.get? (f c t) with
    | some u => exact Memo.nodup_keys_put hmemo _ _
    | none =>
      cases emit c t with
      | unit u => exact Memo.nodup_keys_put hmemo _ _
      | skip s => exact hmemo

/-- A unit is used again if its fingerprint was remembered before the pass; what the pass itself has
stored so far does not count. -/
theorem isHit_produce (hg : g.fingerprint? = some f) (memo : Memo) (c : Container) (t : Target) :
    (g.produce memo c t).2.1 = g.memo.keys.contains (f c t) := by
  have hmem : (g.memo.get? (f c t)).isSome = true ↔ f c t ∈ g.memo.keys := Memo.isSome_get?_iff
  simp only [produce, hg]
  cases hget : g.memo.get? (f c t) with
  | some u =>
    rw [hget] at hmem
    exact (List.contains_iff_mem.mpr (hmem.mp rfl)).symm
  | none =>
    have hnot : g.memo.keys.contains (f c t) = false := by
      rw [hget] at hmem
      simpa using hmem
    rw [hnot]
    cases emit c t <;> rfl

theorem advance_hits (p : Progress) (site : TypeSite) :
    (g.advance service p site).hits = match service.resolve site with
      | .error _ => p.hits
      | .ok r => if (g.produce p.memo (r.container service) r.target).2.1 then p.hits + 1
        else p.hits := by
  unfold advance
  cases service.resolve site with
  | error s => rfl
  | ok r =>
    simp only
    cases (g.produce p.memo (r.container service) r.target).1 with
    | skip s => rfl
    | unit u => by_cases hempty : u.text.isEmpty <;> simp only [hempty] <;> rfl

/-- **One candidate of a pass** adds its fingerprint to the new memo if it ends with a unit, and one hit
if the old memo holds its fingerprint. -/
theorem advance_remembers (hg : g.fingerprint? = some f) (p : Progress) (site : TypeSite) :
    (∀ key, key ∈ (g.advance service p site).memo.keys ↔
        key ∈ p.memo.keys ∨ g.hasUnit service site = true ∧ service.fingerprint? f site = some key) ∧
      (g.advance service p site).hits = p.hits + (if g.reuses service f site then 1 else 0) := by
  rw [advance_memo, advance_hits, hasUnit, outcomeOf, reuses, Service.fingerprint?]
  cases service.resolve site with
  | error s => exact ⟨fun key => ⟨Or.inl, fun h => h.elim id fun h => nomatch h.2⟩, rfl⟩
  | ok r =>
    refine ⟨fun key => ?_, ?_⟩
    · simp only [mem_keys_produce hg, Option.some.injEq]
      exact or_congr_right (and_congr_right fun _ => eq_comm)
    · simp only [isHit_produce hg, Option.any_some]
      split_ifs <;> rfl

/-! ## The loop of a pass -/

theorem nodup_keys_foldl_advance (sites : List TypeSite) {p : Progress} (hp : p.memo.keys.Nodup) :
    (sites.foldl (g.advance service) p).memo.keys.Nodup := by
  induction sites generalizing p with
  | nil => exact hp
  | cons site rest ih =>
    refine ih ?_
    rw [advance_memo]
    cases service.resolve site with
    | error s => exact hp
    | ok r => exact nodup_keys_produce hp _ _

theorem mem_keys_foldl_advance (hg : g.fingerprint? = some f) (sites : List TypeSite) (p : Progress)
    (key : String) :
    key ∈ (sites.foldl (g.advance service) p).memo.keys ↔
      key ∈ p.memo.keys ∨
        key ∈ (sites.filter (g.hasUnit service)).filterMap (service.fingerprint? f) := by
  induction sites generalizing p with
  | nil => simp
  | cons site rest ih =>
    rw [List.foldl_cons, ih, (advance_remembers hg p site).1, or_assoc, List.filter_cons]
    cases g.hasUnit service site with
    | false => simp
    | true =>
      cases hkey : service.fingerprint? f site with
      | none => simp [hkey]
      | some k => simp [hkey, @eq_comm _ k key]

theorem hits_foldl_advance (hg : g.fingerprint? = some f) (sites : List TypeSite) (p : Progress) :
    (sites.foldl (g.advance service) p).hits = p.hits + sites.countP (g.reuses service f) := by
  induction sites generalizing p with
  | nil => rfl
  | cons site rest ih =>
    rw [List.foldl_cons, ih, (advance_remembers hg p site).2, List.countP_cons]
    omega

/-! ## One call -/

/-- The generator that a call leaves, step by step: what a cancelled call had changed would stay
changed. -/
def leftBy (g : Generator) (c : Call) : Generator :=
  match (PassAction.perform c.service c.moment c.candidates).run ⟨g, c.registry⟩ with
  | .ok _ s | .error _ s => s.generator

/-- The call is not cancelled. -/
def completes (g : Generator) (c : Call) : Bool :=
  match (PassAction.perform c.service c.moment c.candidates).run ⟨g, c.registry⟩ with
  | .ok .. => true
  | .error .. => false

/-- The call has a candidate, and is not cancelled. -/
def isPass (g : Generator) (c : Call) : Bool := c.candidates.any Option.isSome && g.completes c

variable (g f) in
/-- The fingerprints of the candidates of a call that end with a unit. -/
def unitKeys (c : Call) : List String :=
  ((distinctCandidates c.candidates).filter (g.hasUnit c.service)).filterMap
    (c.service.fingerprint? f)

variable (g f) in
/-- The candidates of a call that resolve and whose fingerprint is remembered. -/
def reused (c : Call) : List TypeSite :=
  (distinctCandidates c.candidates).filter (g.reuses c.service f)

theorem distinctCandidates_eq_nil {candidates : List (Option TypeSite)}
    (h : candidates.any Option.isSome = false) : distinctCandidates candidates = [] := by
  have hnone : candidates.reduceOption = [] := by
    refine List.filterMap_eq_nil_iff.mpr fun o ho => ?_
    cases o with
    | none => rfl
    | some site => exact absurd rfl (List.any_eq_false.mp h _ ho)
  rw [distinctCandidates_eq, hnone]
  rfl

theorem distinctCandidates_ne_nil_of_any {candidates : List (Option TypeSite)}
    (h : candidates.any Option.isSome = true) : distinctCandidates candidates ≠ [] := by
  obtain ⟨o, ho, hsome⟩ := List.any_eq_true.mp h
  obtain ⟨site, rfl⟩ := Option.isSome_iff_exists.mp hsome
  exact distinctCandidates_ne_nil ho

theorem run_call (g : Generator) (c : Call) :
    (PassAction.perform c.service c.moment c.candidates).run ⟨g, c.registry⟩ =
      match g.answer c with
      | .ok (after, registered) => .ok () ⟨after, registered⟩
      | .error e => .error e ⟨g, c.registry⟩ :=
  PassAction.run_perform c.candidates

theorem completes_eq (g : Generator) (c : Call) :
    g.completes c = (!c.candidates.any Option.isSome ||
      !c.moment.isReached (Calls.afterAll ⟨0, 0⟩ c.service (distinctCandidates c.candidates))) := by
  rw [completes, run_call]
  cases hany : c.candidates.any Option.isSome with
  | false =>
    rw [answer_of_no_candidate (distinctCandidates_eq_nil hany)]
    rfl
  | true =>
    rw [answer_eq (distinctCandidates_ne_nil_of_any hany), runCandidates_eq, Progress.start]
    cases c.moment.isReached _ <;> rfl

/-- **What a call leaves.** A call that comes to the end of a pass leaves the memo and the hits of that
pass; any other one leaves the generator as it was. -/
theorem leftBy_eq (g : Generator) (c : Call) :
    g.leftBy c = if g.isPass c then
        g.keeping ((distinctCandidates c.candidates).foldl (g.advance c.service) .start)
      else g := by
  rw [leftBy, run_call, isPass, completes_eq]
  cases hany : c.candidates.any Option.isSome with
  | false =>
    rw [answer_of_no_candidate (distinctCandidates_eq_nil hany)]
    rfl
  | true =>
    rw [answer_eq (distinctCandidates_ne_nil_of_any hany), runCandidates_eq, Progress.start]
    cases c.moment.isReached _ <;> rfl

theorem fingerprint?_leftBy (g : Generator) (c : Call) :
    (g.leftBy c).fingerprint? = g.fingerprint? := by
  rw [leftBy_eq]
  split_ifs <;> rfl

/-- **The memo after one call.** -/
theorem mem_keys_leftBy (hg : g.fingerprint? = some f) (c : Call) (key : String) :
    key ∈ (g.leftBy c).memo.keys ↔
      if g.isPass c then key ∈ g.unitKeys f c else key ∈ g.memo.keys := by
  rw [leftBy_eq]
  split_ifs
  · exact (mem_keys_foldl_advance hg _ .start key).trans (or_iff_right List.not_mem_nil)
  · rfl

theorem nodup_keys_leftBy (hg : g.memo.keys.Nodup) (c : Call) : (g.leftBy c).memo.keys.Nodup := by
  rw [leftBy_eq]
  split_ifs
  · exact nodup_keys_foldl_advance _ List.nodup_nil
  · exact hg

/-- **The hits of one call** that is not cancelled. -/
theorem cacheHits_leftBy (hg : g.fingerprint? = some f) {c : Call} (h : g.completes c = true) :
    (g.leftBy c).cacheHits = g.cacheHits + (g.reused f c).length := by
  rw [leftBy_eq, isPass, h, Bool.and_true, reused, ← List.countP_eq_length_filter]
  split_ifs with hany
  · rw [keeping, hits_foldl_advance hg]
    simp only [Progress.start, Nat.zero_add]
  · rw [distinctCandidates_eq_nil (by simpa using hany)]
    rfl

/-! ## Histories -/

/-- The last call of a history that comes to the end of a pass, and the generator before it. -/
def lastPass? (g : Generator) : List Call → Option (Generator × Call)
  | [] => none
  | c :: rest => (g.leftBy c).lastPass? rest <|> if g.isPass c then some (g, c) else none

theorem lastPass?_concat (g : Generator) (history : List Call) (c : Call) :
    g.lastPass? (history ++ [c]) =
      if (history.foldl leftBy g).isPass c then some (history.foldl leftBy g, c)
      else g.lastPass? history := by
  induction history generalizing g with
  | nil => rfl
  | cons first rest ih =>
    rw [List.cons_append, lastPass?, lastPass?, ih, List.foldl_cons]
    split_ifs <;> rfl

theorem fingerprint?_foldl_leftBy (g : Generator) (history : List Call) :
    (history.foldl leftBy g).fingerprint? = g.fingerprint? := by
  induction history generalizing g with
  | nil => rfl
  | cons c rest ih => exact (ih _).trans (fingerprint?_leftBy g c)

theorem nodup_keys_foldl_leftBy (hg : g.memo.keys.Nodup) (history : List Call) :
    (history.foldl leftBy g).memo.keys.Nodup := by
  induction history generalizing g with
  | nil => exact hg
  | cons c rest ih => exact ih (nodup_keys_leftBy hg c)

theorem mem_keys_foldl_leftBy (hg : g.fingerprint? = some f) (history : List Call) (key : String) :
    key ∈ (history.foldl leftBy g).memo.keys ↔
      match g.lastPass? history with
      | some (before, c) => key ∈ before.unitKeys f c
      | none => key ∈ g.memo.keys := by
  induction history generalizing g with
  | nil => rfl
  | cons c rest ih =>
    rw [List.foldl_cons, ih ((fingerprint?_leftBy g c).trans hg), lastPass?]
    cases (g.leftBy c).lastPass? rest with
    | some found => rfl
    | none =>
      simp only [mem_keys_leftBy hg]
      split_ifs <;> rfl

/-- **A memo holds the last pass.** After any history of calls of a new generator, completed, cancelled
or without a candidate, its memo has as keys, each once, the fingerprints of the candidates that ended
with a unit in the last completed call that had a candidate, and none if there was no such call. A
further call that is not cancelled raises the count of hits by the number of its candidates, each counted
once, that resolve and whose fingerprint is a key before the call. One that is cancelled, at whatever
step, or has no candidate leaves the generator as it was. -/
theorem memo_of_history (f : FingerprintFunction) (history : List Call) :
    let g := history.foldl leftBy (fresh (some f))
    g.memo.keys.Nodup ∧
      (∀ key, key ∈ g.memo.keys ↔ ∃ before c,
        (fresh (some f)).lastPass? history = some (before, c) ∧ key ∈ before.unitKeys f c) ∧
      ∀ c, (g.completes c = true →
          (g.leftBy c).cacheHits = g.cacheHits + (g.reused f c).length) ∧
        (g.isPass c = false → g.leftBy c = g) := by
  intro g
  have hg : g.fingerprint? = some f := fingerprint?_foldl_leftBy _ history
  refine ⟨nodup_keys_foldl_leftBy (g := fresh (some f)) List.nodup_nil history, fun key => ?_, fun c =>
    ⟨cacheHits_leftBy hg, fun hpass => ?_⟩⟩
  · have hkeys : key ∈ g.memo.keys ↔ _ := mem_keys_foldl_leftBy (f := f) rfl history key
    rw [hkeys]
    cases (fresh (some f)).lastPass? history with
    | none => simp [fresh, Memo.keys]
    | some found => simp [Prod.ext_iff]
  · rw [leftBy_eq, hpass]
    rfl

section Example

/-- A fingerprint that tells containers apart by their keywords alone. -/
def keywordFingerprint : FingerprintFunction := fun c _ => c.keyword

/-- A call over the crowded candidates, one of which has no symbol. -/
def crowdedCall : Call := ⟨partialService, .never, crowdedCandidates, .empty⟩

/-- Such a call that is cancelled. -/
def cancelledCall : Call := { crowdedCall with moment := .atInterfaces 2 }

/-- A call without a candidate. -/
def vacantCall : Call := { crowdedCall with candidates := [none] }

/-- A pass, a cancelled call and one without a candidate. -/
def crowdedHistory : List Call := [crowdedCall, cancelledCall, vacantCall]

/-- The generator after such calls. -/
def crowdedGenerator : Generator := crowdedHistory.foldl leftBy (fresh (some keywordFingerprint))

/-- A call over two of the candidates, one of them without a symbol. -/
def smallerCall : Call :=
  ⟨partialService, .never, [some (numberedSite 2 .classForm), some (numberedSite 1 .structForm)], .empty⟩

/-- **The memo holds the facades of the first of these calls.** A further call over two of the candidates
uses one of them again and forgets the other. -/
theorem memo_of_history_crowded :
    (∀ key, key ∈ crowdedGenerator.memo.keys ↔ key = "class" ∨ key = "struct") ∧
      (crowdedGenerator.leftBy smallerCall).cacheHits = crowdedGenerator.cacheHits + 1 ∧
      ∀ key, key ∈ (crowdedGenerator.leftBy smallerCall).memo.keys ↔ key = "struct" := by
  have hg : crowdedHistory.foldl leftBy (fresh (some keywordFingerprint)) = crowdedGenerator := rfl
  have hbefore := memo_of_history keywordFingerprint crowdedHistory
  have hafter := memo_of_history keywordFingerprint (crowdedHistory ++ [smallerCall])
  rw [List.foldl_append, lastPass?_concat, hg, List.foldl_cons, List.foldl_nil] at hafter
  rw [hg] at hbefore
  obtain ⟨-, hkeys, hcalls⟩ := hbefore
  obtain ⟨-, hkeysAfter, -⟩ := hafter
  have hlast : (fresh (some keywordFingerprint)).lastPass? crowdedHistory =
      some (fresh (some keywordFingerprint), crowdedCall) := by
    have hcrowded (g : Generator) : g.isPass crowdedCall = true := by
      rw [isPass, completes_eq]
      decide +kernel
    have hcancelled (g : Generator) : g.isPass cancelledCall = false := by
      rw [isPass, completes_eq]
      decide +kernel
    have hvacant (g : Generator) : g.isPass vacantCall = false := rfl
    simp [crowdedHistory, lastPass?, hcrowded, hcancelled, hvacant]
  have hunits : (fresh (some keywordFingerprint)).unitKeys keywordFingerprint crowdedCall =
      ["class", "struct"] := by decide +kernel
  have hmemo (key : String) : key ∈ crowdedGenerator.memo.keys ↔ key = "class" ∨ key = "struct" := by
    rw [hkeys key, hlast]
    simp [Prod.ext_iff, hunits]
  -- of the two candidates of the further call, one has no fingerprint
  have hsites : distinctCandidates smallerCall.candidates =
      [numberedSite 2 .classForm, numberedSite 1 .structForm] := rfl
  have hservice : smallerCall.service = partialService := rfl
  have hunknown : partialService.fingerprint? keywordFingerprint (numberedSite 2 .classForm) = none := by
    decide +kernel
  have hknown : partialService.fingerprint? keywordFingerprint (numberedSite 1 .structForm) =
      some "struct" := by decide +kernel
  have hcompletes : crowdedGenerator.completes smallerCall = true := by
    rw [completes_eq]
    decide +kernel
  refine ⟨hmemo, ?_, fun key => ?_⟩
  · have hnew : crowdedGenerator.reuses partialService keywordFingerprint
        (numberedSite 2 .classForm) = false := by
      rw [reuses, hunknown, Option.any_none]
    have hreuse : crowdedGenerator.reuses partialService keywordFingerprint
        (numberedSite 1 .structForm) = true := by
      rw [reuses, hknown, Option.any_some, List.contains_iff_mem, hmemo]
      exact Or.inr (Eq.refl _)
    have hreused : crowdedGenerator.reused keywordFingerprint smallerCall =
        [numberedSite 1 .structForm] := by
      rw [reused, hsites, hservice, List.filter_cons_of_neg (by simp [hnew]),
        List.filter_cons_of_pos hreuse, List.filter_nil]
    rw [(hcalls smallerCall).1 hcompletes, hreused, List.length_singleton]
  · have hunit : crowdedGenerator.hasUnit partialService (numberedSite 1 .structForm) = true :=
      hasUnit_of_outcome (by decide +kernel)
    have hpass : crowdedGenerator.isPass smallerCall = true := by
      rw [isPass, hcompletes, Bool.and_true]
      decide +kernel
    have hkey : key ∈ crowdedGenerator.unitKeys keywordFingerprint smallerCall ↔ key = "struct" := by
      rw [unitKeys, hsites, hservice, List.mem_filterMap]
      simp only [List.mem_filter, List.mem_cons, List.not_mem_nil, or_false, or_and_right,
        exists_or, exists_eq_left, and_assoc, hunknown, hknown, hunit, reduceCtorEq, and_false, false_or,
        true_and, Option.some.injEq]
      exact eq_comm
    rw [hkeysAfter key, if_pos hpass, ← hkey]
    simp [Prod.ext_iff]

end Example

end Generator

end Facade
