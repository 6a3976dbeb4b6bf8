import Mathlib.Data.List.Flatten
import Facade.Generator.Run
import Facade.Proofs.Generation.Registration
import Facade.Proofs.Syntax.Characters
import Facade.Proofs.Syntax.WrittenSource

/-!
# What notices are about

A notice says something of a candidate whose facade was generated. A pass notes it as soon as it knows
the interface of the candidate, and then looks whether it can write the facade: so the notices of a
candidate that is turned down at last stay.

* `Resolution.IsUnremarkable`: there is nothing to say of a candidate;
* `Generator.resolve_of_skip`: the two stages that turn a candidate down;
* **`Generator.notices_of_execute`**: what the notices of a pass are about;
* `not_notices_of_emitting`: a notice of a pass that generates nothing.
-/

namespace Facade

theorem flatMap_filter_eq_iff {α β : Type} (p : α → Bool) (f : α → List β) (xs : List α) :
    xs.flatMap f = (xs.filter p).flatMap f ↔ ∀ x ∈ xs, p x = false → f x = [] := by
  induction xs with
  | nil => simp
  | cons x xs ih =>
    rw [List.flatMap_cons, List.forall_mem_cons]
    cases hx : p x with
    | true =>
      rw [List.filter_cons_of_pos hx, List.flatMap_cons, List.append_cancel_left_eq, ih]
      simp
    | false =>
      rw [List.filter_cons_of_neg (by simp [hx]), ← ih]
      constructor
      · intro h
        -- the rest is no longer than before
        have hle : ((xs.filter p).flatMap f).length ≤ (xs.flatMap f).length :=
          (List.filter_sublist.flatMap f).length_le
        have hlength := congrArg List.length h
        rw [List.length_append] at hlength
        have hnil : f x = [] := List.length_eq_zero_iff.mp (by omega)
        exact ⟨fun _ => hnil, by rwa [hnil, List.nil_append] at h⟩
      · rintro ⟨hnil, h⟩
        rw [hnil rfl, List.nil_append, h]

/-! ## Candidates -/

/-- There is nothing to say of the candidate: it realizes the marker once, it is partial, and its
interface has methods to forward. -/
structure Resolution.IsUnremarkable (r : Resolution) : Prop where
  realizations : r.realizations ≤ 1
  isPartial : r.site.head.isPartial = true
  methods : r.target.methods ≠ []

theorem Resolution.notices_eq_nil {r : Resolution} : r.notices = [] ↔ r.IsUnremarkable := by
  have hiff : r.notices = [] ↔
      r.realizations ≤ 1 ∧ r.site.head.isPartial = true ∧ r.target.methods ≠ [] := by
    simp only [notices]
    split_ifs <;> simp_all
  exact hiff.trans ⟨fun h => ⟨h.1, h.2.1, h.2.2⟩, fun h => ⟨h.1, h.2, h.3⟩⟩

theorem reason_of_emit {c : Container} {t : Target} {s : Skip} (h : emit c t = .skip s) :
    s.reason = .noNamespace ∨ s.reason = .unsupportedAccessibility := by
  unfold emit at h
  split at h
  · cases h
    exact Or.inl rfl
  · cases h
    exact Or.inr rfl
  · cases h

namespace Generator

variable {g : Generator} {service : Service} {site : TypeSite}

theorem emit_of_produce {memo : Memo} {c : Container} {t : Target} {s : Skip}
    (h : (g.produce memo c t).1 = .skip s) : emit c t = .skip s := by
  unfold produce at h
  cases hf : g.fingerprint? with
  | none => rwa [hf] at h
  | some f =>
    rw [hf] at h
    simp only at h
    cases hget : g.memo.get? (f c t) with
    | some u =>
      rw [hget] at h
      cases h
    | none =>
      rw [hget] at h
      cases hemit : emit c t with
      | unit u =>
        rw [hemit] at h
        cases h
      | skip s' =>
        rw [hemit] at h
        exact h

/-- **A candidate is turned down at one of two stages**: it does not resolve, and nothing is said of it;
or it does, and its facade cannot be written. -/
theorem resolve_of_skip {s : Skip} (h : g.outcomeOf service site = .skip s) :
    service.resolve site = .error s ∧ service.noticesOf site = [] ∨
      ∃ res, service.resolve site = .ok res ∧ emit (res.container service) res.target = .skip s := by
  unfold outcomeOf at h
  unfold Service.noticesOf
  cases hresolve : service.resolve site with
  | error s' =>
    rw [hresolve] at h
    cases h
    exact Or.inl ⟨rfl, rfl⟩
  | ok res =>
    rw [hresolve] at h
    exact Or.inr ⟨res, rfl, emit_of_produce h⟩

/-- **What the notices of a pass are about.** A completed pass registers the outcomes of its candidates
and what is worth saying of those that resolve. Something is said of a candidate that is skipped only if
its facade cannot be written, for want of a namespace or of a level of access that can be declared. And
all notices are about candidates that have a unit exactly if there is nothing to say of any candidate
that resolves and has none. -/
theorem notices_of_execute {moment : Moment} {candidates : List (Option TypeSite)}
    {registry : Registry} {after : Generator} {r : Registry}
    (h : g.execute service moment candidates registry = .ok (after, r)) :
    let sites := distinctCandidates candidates
    let emitting := sites.filter fun site => (g.outcomeOf service site).unit?.isSome
    (∃ p, g.Gathers service sites p ∧ r = registry.add p.units p.skips p.notices) ∧
      (∀ site ∈ sites, ∀ s, g.outcomeOf service site = .skip s → service.noticesOf site ≠ [] →
        (s.reason = .noNamespace ∨ s.reason = .unsupportedAccessibility) ∧
          ∃ res, service.resolve site = .ok res ∧ ¬ res.IsUnremarkable) ∧
      (r.notices = registry.notices ++ emitting.flatMap service.noticesOf ↔
        ∀ site ∈ sites, ∀ res, service.resolve site = .ok res →
          (g.outcomeOf service site).unit? = none → res.IsUnremarkable) := by
  intro sites emitting
  obtain ⟨p, hp, rfl⟩ := registry_of_execute h
  refine ⟨⟨p, hp, rfl⟩, fun site _ s hskip hnotices => ?_, ?_⟩
  · obtain ⟨-, hnone⟩ | ⟨res, hres, hemit⟩ := resolve_of_skip hskip
    · exact absurd hnone hnotices
    · refine ⟨reason_of_emit hemit, res, hres, fun hplain => hnotices ?_⟩
      rw [Service.noticesOf, hres]
      exact Resolution.notices_eq_nil.mpr hplain
  · rw [Registry.notices_add, hp.notices, List.append_cancel_left_eq, flatMap_filter_eq_iff]
    refine forall₂_congr fun site _ => ?_
    have hunit : (g.outcomeOf service site).unit?.isSome = false ↔
        (g.outcomeOf service site).unit? = none := by simp
    rw [hunit, Service.noticesOf]
    cases service.resolve site with
    | error s => simp
    | ok res => simp [Resolution.notices_eq_nil]

section Example

/-- A pass over one source, by a generator that remembers nothing. -/
def passOver? (source : String) : Option (CompilationUnit × Generator × Registry) := do
  let unit ← (CompilationUnit.parse "src0.cs" source).toOption
  let (after, r) ← ((fresh none).execute (Model.ofUnits (withMarker [unit])).service .never
    ((candidatesOf [unit]).map some) .empty).toOption
  return (unit, after, r)

theorem of_passOver {source : String} {u : CompilationUnit} {after : Generator} {r : Registry}
    (h : passOver? source = some (u, after, r)) :
    CompilationUnit.parse "src0.cs" source = .ok u ∧
      (fresh none).execute (Model.ofUnits (withMarker [u])).service .never
        ((candidatesOf [u]).map some) .empty = .ok (after, r) := by
  simp only [passOver?, Option.pure_def, Option.bind_eq_bind, Option.bind_eq_some_iff,
    Option.some.injEq] at h
  obtain ⟨unit, hunit, ⟨after, r⟩, hpass, heq⟩ := h
  cases heq
  exact ⟨eq_ok_of_toOption hunit, eq_ok_of_toOption hpass⟩

/-- Candidates of all kinds: two of them get a facade, and one of these is not partial. -/
def mixedSource : String :=
  "using FacadeGenerator;\nnamespace N \x7b\n public interface I \x7b long M(); \x7d\n" ++
    " public class W \x7b \x7d\n public partial class Good : IFacadeGenerator<I> \x7b \x7d\n" ++
    " file partial class Hidden : IFacadeGenerator<I> \x7b \x7d\n" ++
    " public class Other : IFacadeGenerator<W> \x7b \x7d\n" ++
    " public class Plain : IFacadeGenerator<I> \x7b \x7d\n\x7d\n"

/-- **The notices of a pass over such candidates** are about those that have units. -/
theorem notices_of_execute_mixed : ∃ u after r,
    (fresh none).execute (Model.ofUnits (withMarker [u])).service .never
        ((candidatesOf [u]).map some) .empty = .ok (after, r) ∧
      r.units.map GeneratedUnit.name = ["Good", "Plain"] ∧
      r.skips.map Skip.reason = [.noMarker, .unsupportedAccessibility, .notAnInterface] ∧
      r.notices.map Notice.container = ["Plain"] ∧
      r.notices = ((distinctCandidates ((candidatesOf [u]).map some)).filter fun site =>
          ((fresh none).outcomeOf (Model.ofUnits (withMarker [u])).service site).unit?.isSome).flatMap
        (Model.ofUnits (withMarker [u])).service.noticesOf := by
  have hprogram : (passOver? mixedSource).any
      (fun (x : CompilationUnit × Generator × Registry) =>
        let service := (Model.ofUnits (withMarker [x.1])).service
        decide (x.2.2.units.map GeneratedUnit.name = ["Good", "Plain"] ∧
          x.2.2.skips.map Skip.reason = [.noMarker, .unsupportedAccessibility, .notAnInterface] ∧
          x.2.2.notices.map Notice.container = ["Plain"] ∧
          ∀ site ∈ distinctCandidates ((candidatesOf [x.1]).map some),
            ((fresh none).outcomeOf service site).unit? = none →
              (service.noticesOf site).isEmpty)) = true := by
    refine CompilationUnit.any_of_ofCharacters (toList_append_eq (toList_append_eq (toList_append_eq
      (toList_append_eq String.toList_ofList String.toList_ofList) String.toList_ofList)
      String.toList_ofList) String.toList_ofList) ?_
    decide +kernel
  obtain ⟨⟨u, after, r⟩, hx, hfacts⟩ := (Option.any_eq_true _ _).mp hprogram
  obtain ⟨hunits, hskips, hcontainers, hplain⟩ := of_decide_eq_true hfacts
  obtain ⟨-, hpass⟩ := of_passOver hx
  refine ⟨u, after, r, hpass, hunits, hskips, hcontainers, ?_⟩
  refine (notices_of_execute hpass).2.2.mpr fun site hsite res hres hnone => ?_
  have hnotices := List.isEmpty_iff.mp (hplain site hsite hnone)
  rw [Service.noticesOf, hres] at hnotices
  exact Resolution.notices_eq_nil.mp hnotices

/-- A candidate in no namespace, that is not partial. -/
def outsideSource : String :=
  "using FacadeGenerator;\npublic interface I \x7b void M(); \x7d\n" ++
    "public class C : IFacadeGenerator<I> \x7b \x7d\n"

/-- **A pass that generates nothing has a notice**: its only candidate is turned down for want of a
namespace, and it is not partial. -/
theorem not_notices_of_emitting : ∃ u after r,
    CompilationUnit.parse "src0.cs" outsideSource = .ok u ∧
      (fresh none).execute (Model.ofUnits (withMarker [u])).service .never
        ((candidatesOf [u]).map some) .empty = .ok (after, r) ∧
      r.units = [] ∧ r.skips.map (fun s => (s.reason, s.container)) = [(.noNamespace, "C")] ∧
      r.notices.map (fun n => (n.kind, n.container)) = [(.notPartial, "C")] := by
  have hprogram : (passOver? outsideSource).any
      (fun (x : CompilationUnit × Generator × Registry) =>
        decide (x.2.2.units = [] ∧
          x.2.2.skips.map (fun s => (s.reason, s.container)) = [(.noNamespace, "C")] ∧
          x.2.2.notices.map (fun n => (n.kind, n.container)) = [(.notPartial, "C")])) = true := by
    refine CompilationUnit.any_of_ofCharacters
      (toList_append_eq String.toList_ofList String.toList_ofList) ?_
    decide +kernel
  obtain ⟨⟨u, after, r⟩, hx, hfacts⟩ := (Option.any_eq_true _ _).mp hprogram
  obtain ⟨hparsed, hpass⟩ := of_passOver hx
  exact ⟨u, after, r, hparsed, hpass, of_decide_eq_true hfacts⟩

end Example

end Generator

end Facade
