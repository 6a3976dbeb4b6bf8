import Facade.Proofs.Binding.Merging
import Facade.Proofs.Generation.ReadBack

/-!
# The interface that a facade is for

A facade is for the type argument of the marker. One nullable mark of it is taken away; with more than
one the target is a nullable type, which has no methods.

* `MethodSymbol.IsForwarded`, `Model.declaredMethods`: the methods a facade is made of;
* `Service.forwardedMethods_eq`: those of an interface, from its declarations;
* `Service.Asks`, `Program.IsInterface`: an interface with nullable marks;
* **`Service.target_of_resolve`**: the target of a facade, and which type arguments give one;
* `target_of_resolve_nullable`: an interface with one mark;
* `not_target_plain`: a mark put on the argument of a generic interface that marks it again.
-/

namespace Facade

/-! ## Forwarded methods -/

/-- The method is a public instance method that implements none of another interface. -/
def MethodSymbol.IsForwarded (f : MethodSymbol) : Bool :=
  !f.isStatic && !f.isExplicit && f.accessibility == .publicAccess

/-- The methods in all declarations of an interface, in their order. -/
def Model.declaredMethods (m : Model) (k : DefinitionKey) : List MethodSymbol :=
  (m.environment.declarations.sitesOf k).flatMap (m.environment.methodsAt k .interfaceKind)

/-- The type is an interface that the program declares, alone or with type arguments. -/
def Program.IsInterface (p : Program) (t : TypeSymbol) (d : Definition) : Prop :=
  p.definitionOf? t = some d ∧ d.kind = .interfaceKind

theorem Program.IsInterface.key? {p : Program} {t : TypeSymbol} {d : Definition}
    (h : p.IsInterface t d) : t.key? = some d.key := by
  obtain ⟨k, hk, hd⟩ := Option.bind_eq_some_iff.mp h.1
  rw [hk, (Program.definition?_eq_some hd).2]

section

variable {units : List CompilationUnit}

theorem Model.methods_of_interface {d : Definition}
    (hd : d ∈ (Model.ofUnits units).program.definitions) (hkind : d.kind = .interfaceKind) :
    d.methods = (Model.ofUnits units).declaredMethods d.key := by
  rw [Model.methods_of_mem hd hkind, Model.sites_of_mem hd]
  rfl

/-- The forwarded methods of an interface: those among its own, with the type arguments put in. -/
theorem Service.forwardedMethods_eq {t : TypeSymbol} {d : Definition}
    (h : (Model.ofUnits units).program.IsInterface t d) :
    (Model.ofUnits units).service.forwardedMethods t =
      (((Model.ofUnits units).declaredMethods d.key).filter MethodSymbol.IsForwarded).map
        (MethodSymbol.substitute ((Model.ofUnits units).program.arguments t)) := by
  obtain ⟨hd, hkind⟩ := h
  obtain ⟨k, -, hk⟩ := Option.bind_eq_some_iff.mp hd
  have hmethods : (Model.ofUnits units).program.methods t =
      ((Model.ofUnits units).declaredMethods d.key).map
        (MethodSymbol.substitute ((Model.ofUnits units).program.arguments t)) := by
    rw [Program.methods, hd, ← Model.methods_of_interface (Program.definition?_eq_some hk).1 hkind]
  rw [Service.forwardedMethods]
  change List.filter _ ((Model.ofUnits units).program.methods t) = _
  rw [hmethods, List.filter_map]
  rfl

end

/-! ## Nullable marks -/

theorem TypeSymbol.exists_iterate_nullable (t : TypeSymbol) :
    ∃ n u, t = TypeSymbol.nullable^[n] u ∧ ∀ e, u ≠ .nullable e := by
  by_cases hmarked : ∃ e, t = .nullable e
  · obtain ⟨e, rfl⟩ := hmarked
    obtain ⟨n, u, he, hu⟩ := e.exists_iterate_nullable
    exact ⟨n + 1, u, by rw [Function.iterate_succ_apply', ← he], hu⟩
  · exact ⟨0, t, rfl, fun e he => hmarked ⟨e, he⟩⟩
termination_by sizeOf t

namespace Program

variable (p : Program)

theorem kind_iterate_nullable (n : Nat) (t : TypeSymbol) :
    p.kind (TypeSymbol.nullable^[n] t) = p.kind t := by
  induction n with
  | zero => rfl
  | succ n ih => rw [Function.iterate_succ_apply', kind, ih]

variable {p}

theorem exists_isInterface {t : TypeSymbol} (ht : ∀ e, t ≠ .nullable e)
    (hkind : p.kind t = .interfaceKind) : ∃ d, p.IsInterface t d := by
  have hdeclared : ∀ k : DefinitionKey, t.key? = some k →
      p.kind (.definition k) = .interfaceKind → ∃ d, p.IsInterface t d := by
    intro k hk hkind
    rw [kind] at hkind
    split at hkind
    · next d hd => exact ⟨d, by rw [definitionOf?, hk]; exact hd, hkind⟩
    · cases hkind
  cases t with
  | definition k => exact hdeclared k rfl hkind
  | constructed k as => exact hdeclared k rfl hkind
  | nullable e => exact absurd rfl (ht e)
  | special k =>
    rw [kind] at hkind
    split_ifs at hkind
  | _ => cases hkind

theorem IsInterface.kind {t : TypeSymbol} {d : Definition} (h : p.IsInterface t d) :
    p.kind t = .interfaceKind := by
  obtain ⟨k, hk, hd⟩ := Option.bind_eq_some_iff.mp h.1
  cases t with
  | definition l | constructed l as =>
    cases hk
    rw [Program.kind, hd]
    exact h.2
  | _ => cases hk

theorem IsInterface.ne_nullable {t : TypeSymbol} {d : Definition} (h : p.IsInterface t d)
    (e : TypeSymbol) : t ≠ .nullable e := by
  rintro rfl
  cases h.key?

end Program

/-! ## Targets -/

namespace Service

variable {units : List CompilationUnit}

/-- The type argument of the marker is the type with so many nullable marks. -/
def Asks (service : Service) (marker : TypeSymbol) (n : Nat) (t : TypeSymbol) : Prop :=
  (service.program.typeArguments marker).head? = some (TypeSymbol.nullable^[n] t)

theorem markerTarget?_of_asks {service : Service} {marker t : TypeSymbol} {n : Nat}
    (h : service.Asks marker n t) (ht : ∀ e, t ≠ .nullable e) :
    service.markerTarget? marker = some (TypeSymbol.nullable^[n - 1] t) := by
  rw [markerTarget?, h]
  cases n with
  | zero =>
    cases t with
    | nullable e => exact absurd rfl (ht e)
    | _ => rfl
  | succ n => rw [Function.iterate_succ_apply']; rfl

theorem exists_asks {service : Service} {marker u : TypeSymbol}
    (h : service.markerTarget? marker = some u) :
    ∃ n t, service.Asks marker n t ∧ (∀ e, t ≠ .nullable e) ∧ u = TypeSymbol.nullable^[n - 1] t := by
  obtain ⟨argument, hargument⟩ : ∃ a, (service.program.typeArguments marker).head? = some a := by
    rw [← Option.isSome_iff_exists]
    by_contra hnone
    rw [markerTarget?, Option.not_isSome_iff_eq_none.mp hnone] at h
    cases h
  obtain ⟨n, t, rfl, ht⟩ := argument.exists_iterate_nullable
  rw [markerTarget?_of_asks hargument ht, Option.some.injEq] at h
  exact ⟨n, t, hargument, ht, h.symm⟩

theorem forwardedMethods_nullable (service : Service) (t : TypeSymbol) :
    service.forwardedMethods (.nullable t) = [] := rfl

theorem resolve_eq_ok {service : Service} {site : TypeSite} {r : Resolution}
    (h : service.resolve site = .ok r) : ∃ more,
      service.declaredSymbol? site.id = some r.symbol ∧
      service.realizations r.symbol = r.marker :: more ∧
      service.markerTarget? r.marker = some r.targetSymbol ∧
      service.program.kind r.targetSymbol = .interfaceKind ∧
      r = ⟨site, r.symbol, r.marker, r.targetSymbol, service.describe r.targetSymbol,
        more.length + 1⟩ := by
  unfold resolve at h
  split at h
  · cases h
  · next symbol hsymbol =>
    unfold resolveSymbol at h
    split at h
    · cases h
    · next marker more hmarkers =>
      split at h
      · cases h
      · next target htarget =>
        split_ifs at h with hkind
        cases h
        exact ⟨more, hsymbol, hmarkers, htarget, hkind, rfl⟩

/-- **The target of a facade.** The type argument of the marker is a declared interface with nullable
marks. With at most one the target is the interface, and its methods are the forwarded ones of all its
declarations, in their order, with the type arguments put in; with more the target is nullable and has
none. Every such type argument gives a target. -/
theorem target_of_resolve (units : List CompilationUnit) :
    let m := Model.ofUnits units
    (∀ site r, m.service.resolve site = .ok r → ∃ n t d,
      m.service.Asks r.marker n t ∧ m.program.IsInterface t d ∧
      (n ≤ 1 → r.targetSymbol = t ∧ r.target = m.service.describe t ∧
        r.target.methods = ((m.declaredMethods d.key).filter MethodSymbol.IsForwarded).map
          fun f => m.service.describeMethod (f.substitute (m.program.arguments t))) ∧
      (2 ≤ n → r.targetSymbol = TypeSymbol.nullable^[n - 1] t ∧ r.target.methods = [])) ∧
    ∀ site symbol marker more n t d,
      m.service.declaredSymbol? site.id = some symbol →
      m.service.realizations symbol = marker :: more →
      m.service.Asks marker n t → m.program.IsInterface t d →
      ∃ r, m.service.resolve site = .ok r ∧ r.marker = marker ∧
        (n ≤ 1 → r.target = m.service.describe t) := by
  intro m
  have hmethods : ∀ {t d}, m.program.IsInterface t d → (m.service.describe t).methods =
      ((m.declaredMethods d.key).filter MethodSymbol.IsForwarded).map
        fun f => m.service.describeMethod (f.substitute (m.program.arguments t)) := by
    intro t d h
    rw [describe, forwardedMethods_eq h, List.map_map]
    rfl
  constructor
  case left =>
    intro site r h
    obtain ⟨more, -, -, htarget, hkind, hr⟩ := resolve_eq_ok h
    obtain ⟨n, t, hasks, ht, htarget⟩ := exists_asks htarget
    rw [htarget, Program.kind_iterate_nullable] at hkind
    obtain ⟨d, hd⟩ := Program.exists_isInterface ht hkind
    have hdescribe : r.target = m.service.describe r.targetSymbol := congrArg Resolution.target hr
    refine ⟨n, t, d, hasks, hd, fun hn => ?_, fun hn => ⟨htarget, ?_⟩⟩
    · obtain rfl : r.targetSymbol = t := by rw [htarget, Nat.sub_eq_zero_of_le hn]; rfl
      exact ⟨rfl, hdescribe, hdescribe ▸ hmethods hd⟩
    · obtain ⟨k, hk⟩ := Nat.exists_eq_add_of_le' (Nat.le_sub_one_of_lt hn)
      have hnullable : r.targetSymbol = .nullable (TypeSymbol.nullable^[k] t) := by
        rw [htarget, hk, Function.iterate_succ_apply']
      rw [hdescribe, hnullable, describe, forwardedMethods_nullable, List.map_nil]
  case right =>
    intro site symbol marker more n t d hsymbol hmarkers hasks hd
    have htarget := markerTarget?_of_asks hasks hd.ne_nullable
    have hkind : m.service.program.kind (TypeSymbol.nullable^[n - 1] t) = .interfaceKind :=
      (Program.kind_iterate_nullable _ _ _).trans hd.kind
    refine ⟨⟨site, symbol, marker, TypeSymbol.nullable^[n - 1] t,
      m.service.describe (TypeSymbol.nullable^[n - 1] t), more.length + 1⟩, ?_, rfl, fun hn => ?_⟩
    · simp only [resolve, hsymbol, resolveSymbol, hmarkers, htarget, hkind, if_true]
    · exact congrArg (fun n => m.service.describe (TypeSymbol.nullable^[n] t))
        (Nat.sub_eq_zero_of_le hn)

end Service

section Example

/-- A container that realizes the marker with a nullable interface. -/
def nullableSource : String :=
  "using FacadeGenerator;\nnamespace N \x7b\n public interface I \x7b void M(); \x7d\n" ++
    " public partial class C : IFacadeGenerator<I?> \x7b \x7d\n\x7d\n"

/-- The interface `I` itself. -/
def plainInterface : TypeSymbol := .definition (.topLevel (some "N") "I" 0)

/-- **With one nullable mark the target is the interface**, with its method. -/
theorem target_of_resolve_nullable : ∃ units site r,
    (Model.ofUnits units).service.resolve site = .ok r ∧
    (Model.ofUnits units).service.Asks r.marker 1 plainInterface ∧
    r.targetSymbol = plainInterface ∧
    r.target = (Model.ofUnits units).service.describe plainInterface ∧
    r.target.methods.map ForwardedMethod.name = ["M"] := by
  have hprogram : (resolved? nullableSource).any (fun x =>
      decide (x.2.2.targetSymbol = plainInterface ∧
        x.2.2.target.methods.map ForwardedMethod.name = ["M"] ∧
        ((Model.ofUnits x.1).program.typeArguments x.2.2.marker).head? =
          some (.nullable plainInterface))) = true := by
    decide +kernel
  obtain ⟨⟨units, site, r⟩, hx, hfacts⟩ := (Option.any_eq_true _ _).mp hprogram
  obtain ⟨htarget, hmethods, hasks⟩ := of_decide_eq_true hfacts
  obtain ⟨-, -, hr⟩ := parsed_of_resolved hx
  refine ⟨units, site, r, hr, hasks, htarget, ?_, hmethods⟩
  obtain ⟨n, t, d, -, -, hone, hmore⟩ := (Service.target_of_resolve units).1 site r hr
  by_cases hn : n ≤ 1
  · obtain ⟨htarget', hdescribe, -⟩ := hone hn
    rw [hdescribe, ← htarget', htarget]
  · rw [(hmore (by omega)).2] at hmethods
    cases hmethods

/-- A generic interface that marks its type argument, and a container that marks it once more. -/
def markedTwiceSource : String :=
  "using FacadeGenerator;\nnamespace N \x7b\n public interface I \x7b void M(); \x7d\n" ++
    " public interface J<T> : IFacadeGenerator<T?> \x7b \x7d\n" ++
    " public partial class C : J<I?> \x7b \x7d\n\x7d\n"

/-- **The target of a facade can be nullable, and have no methods.** -/
theorem not_target_plain :
    ¬ ∀ units : List CompilationUnit,
      (∀ u ∈ units, ∃ path source, CompilationUnit.parse path source = .ok u) →
      ∀ site r, (Model.ofUnits units).service.resolve site = .ok r →
        ∃ d, (Model.ofUnits units).program.IsInterface r.targetSymbol d := by
  intro h
  have hmarked : (resolved? markedTwiceSource).any (fun x =>
      decide (x.2.2.targetSymbol = .nullable plainInterface)) = true := by
    decide +kernel
  obtain ⟨⟨units, site, r⟩, hx, htarget⟩ := (Option.any_eq_true _ _).mp hmarked
  obtain ⟨hparsed, -, hr⟩ := parsed_of_resolved hx
  obtain ⟨d, hd⟩ := h units hparsed site r hr
  exact hd.ne_nullable plainInterface (of_decide_eq_true htarget)

end Example

end Facade
