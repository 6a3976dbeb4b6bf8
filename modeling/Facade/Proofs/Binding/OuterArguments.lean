import Facade.Proofs.Binding.Seen
import Facade.Proofs.Syntax.WrittenSource

/-!
# Type arguments on outer parts

A dotted name goes from a type to the types nested in it. A symbol has type arguments of its own type
only, so each step leaves behind those of the part before it: they count by their number alone.

* `Declarations.found?_congr`: names of one shape lead to one declared type;
* `Declarations.exists_of_found?_append`: what a name leads to has the type arguments of its last part;
* **`Environment.resolve_named_construct`**: what a dotted name means, and which names mean the same;
* `resolve_named_of_node`: a generic type nested in a generic one;
* `not_resolve_named_ne`: different type arguments on the outer part, and one meaning.
-/

namespace Facade

theorem DefinitionKey.construct_injective (k : DefinitionKey) : Function.Injective k.construct := by
  intro as bs h
  unfold construct at h
  split_ifs at h with ha hb
  · rw [List.isEmpty_iff.mp ha, List.isEmpty_iff.mp hb]
  · exact (TypeSymbol.constructed.inj h).2

namespace Declarations

variable {d : Declarations}

/-! ## Names of one shape -/

theorem descend_congr {t t' : TypeSymbol} {parts parts' : List ResolvedPart}
    (hkey : t.key? = t'.key?)
    (hshape : parts.map ResolvedPart.shape = parts'.map ResolvedPart.shape) :
    (d.descend t parts).map TypeSymbol.key? = (d.descend t' parts').map TypeSymbol.key? := by
  induction parts generalizing t t' parts' with
  | nil =>
    obtain rfl := List.map_eq_nil_iff.mp hshape.symm
    exact congrArg some hkey
  | cons q parts ih =>
    obtain ⟨q', rest, rfl, hq, hrest⟩ := List.map_eq_cons_iff.mp hshape.symm
    obtain ⟨hname, harity⟩ : q'.name = q.name ∧ q'.arity = q.arity := Prod.mk.inj hq
    simp only [descend, List.foldlM_cons, Option.bind_eq_bind]
    cases hkind : t.key? with
    | none => simp [step, hkind, ← hkey]
    | some k =>
      rw [step_eq hkind, step_eq (hkey ▸ hkind), hname, harity]
      cases d.type? (k.nested q.name q.arity) with
      | none => rfl
      | some nested => exact ih (by simp) hrest.symm

theorem longestQualified_congr {spaces : List (Option String)} {parts parts' : List ResolvedPart}
    (hshape : parts.map ResolvedPart.shape = parts'.map ResolvedPart.shape) :
    d.longestQualified spaces parts = d.longestQualified spaces parts' := by
  have hlength : parts.length = parts'.length := by
    simpa using congrArg List.length hshape
  simp only [longestQualified, inQualified_eq, hshape, hlength]

/-- **Names of one shape lead to one declared type**, whatever their type arguments. -/
theorem found?_congr {simple : String → Nat → Option TypeSymbol} {spaces : List (Option String)}
    {isGlobal : Bool} {parts parts' : List ResolvedPart}
    (hshape : parts.map ResolvedPart.shape = parts'.map ResolvedPart.shape) :
    (d.found? simple spaces isGlobal parts).map TypeSymbol.key? =
      (d.found? simple spaces isGlobal parts').map TypeSymbol.key? := by
  cases parts with
  | nil =>
    obtain rfl := List.map_eq_nil_iff.mp hshape.symm
    rfl
  | cons head rest =>
    have hwhole := hshape
    obtain ⟨head', rest', rfl, hhead, hrest⟩ := List.map_eq_cons_iff.mp hshape.symm
    obtain ⟨hname, harity⟩ : head'.name = head.name ∧ head'.arity = head.arity := Prod.mk.inj hhead
    simp only [found?, List.head?_cons, Option.bind_eq_bind, Option.bind_some, hname, harity,
      longestQualified_congr hwhole, List.tail_cons]
    split
    · exact descend_congr (by simp) hrest.symm
    · cases hq : d.longestQualified (if isGlobal = true then [none] else spaces)
          (head' :: rest') with
      | none => rfl
      | some found =>
        obtain ⟨k, i⟩ := found
        have hlength : (head :: rest).length = (head' :: rest').length := by
          simpa using congrArg List.length hwhole
        have hi : i < (head' :: rest').length := (longestQualified_eq_some.mp hq).2.1
        have hi' : i < (head :: rest).length := hlength ▸ hi
        simp only [Option.bind_some, List.getElem?_eq_getElem hi, List.getElem?_eq_getElem hi']
        refine descend_congr (by simp) ?_
        rw [List.map_drop, List.map_drop, hwhole]

/-! ## The type arguments of a name -/

theorem exists_of_descend_append {t u : TypeSymbol} {parts : List ResolvedPart} {last : ResolvedPart}
    (h : d.descend t (parts ++ [last]) = some u) :
    ∃ k : DefinitionKey, u = k.construct last.arguments := by
  rw [descend, List.foldlM_append, Option.bind_eq_bind, Option.bind_eq_some_iff] at h
  obtain ⟨v, -, h⟩ := h
  rw [List.foldlM_cons, Option.bind_eq_bind, Option.bind_eq_some_iff] at h
  obtain ⟨w, hw, h⟩ := h
  rw [List.foldlM_nil] at h
  cases hkey : v.key? with
  | none => simp [step, hkey] at hw
  | some k =>
    rw [step_eq hkey] at hw
    obtain ⟨nested, -, rfl⟩ := Option.map_eq_some_iff.mp hw
    exact ⟨nested, (Option.some.inj h).symm⟩

/-- **What a dotted name leads to has the type arguments of its last part.** -/
theorem exists_of_found?_append {simple : String → Nat → Option TypeSymbol}
    {spaces : List (Option String)} {isGlobal : Bool} {outer : List ResolvedPart}
    {last : ResolvedPart} (houter : outer ≠ []) {t : TypeSymbol}
    (h : d.found? simple spaces isGlobal (outer ++ [last]) = some t) :
    ∃ k : DefinitionKey, t = k.construct last.arguments := by
  simp only [found?, Option.bind_eq_bind, Option.bind_eq_some_iff] at h
  obtain ⟨head, -, h⟩ := h
  split at h
  · rw [List.tail_append_of_ne_nil houter] at h
    exact exists_of_descend_append h
  · obtain ⟨⟨k, i⟩, hk, h⟩ := Option.bind_eq_some_iff.mp h
    obtain ⟨part, hpart, h⟩ := Option.bind_eq_some_iff.mp h
    have hi : i < (outer ++ [last]).length := (longestQualified_eq_some.mp hk).2.1
    rw [List.length_append, List.length_singleton, Nat.lt_succ_iff_lt_or_eq] at hi
    obtain hi | rfl := hi
    · rw [List.drop_append_of_le_length hi] at h
      exact exists_of_descend_append h
    · rw [List.getElem?_concat_length] at hpart
      obtain rfl := Option.some.inj hpart
      rw [List.drop_of_length_le (by simp)] at h
      exact ⟨k, (Option.some.inj h).symm⟩

end Declarations

/-! ## Written names -/

namespace Environment

variable {e : Environment} {s : Scope} {isGlobal : Bool}

theorem key?_resolve_congr {parts parts' : List NamePart}
    (hshape : parts.map NamePart.shape = parts'.map NamePart.shape) :
    (e.resolve s (.named isGlobal parts)).key? = (e.resolve s (.named isGlobal parts')).key? := by
  have hfound : (e.leadsTo? s (.named isGlobal parts)).map TypeSymbol.key? =
      (e.leadsTo? s (.named isGlobal parts')).map TypeSymbol.key? :=
    Declarations.found?_congr (by rw [shape_resolveAll, shape_resolveAll, hshape])
  rw [resolve_named, resolve_named]
  cases h : e.leadsTo? s (.named isGlobal parts) with
  | none =>
    rw [h, Option.map_none, eq_comm, Option.map_eq_none_iff] at hfound
    simp [hfound]
  | some t =>
    rw [h, Option.map_some, eq_comm, Option.map_eq_some_iff] at hfound
    obtain ⟨t', ht', hkey⟩ := hfound
    simp [ht', hkey]

theorem resolve_named_append {outer : List NamePart} {last : NamePart} (houter : outer ≠ [])
    {k : DefinitionKey} (hk : (e.resolve s (.named isGlobal (outer ++ [last]))).key? = some k) :
    e.resolve s (.named isGlobal (outer ++ [last])) =
      k.construct (last.arguments.map (e.resolve s)) := by
  have hleads := leadsTo?_of_resolve hk
  rw [leadsTo?, resolveParts_eq_map, List.map_append, List.map_singleton] at hleads
  obtain ⟨l, hl⟩ := Declarations.exists_of_found?_append (by simpa using houter) hleads
  rw [hl, DefinitionKey.key?_construct, Option.some.injEq] at hk
  rw [hl, hk]
  rfl

/-- **What a dotted name means**: the declared type that its parts lead to, with the type arguments of
the last part. So the names of one shape mean types of one definition, and the same type exactly if the
type arguments of their last parts mean the same: those of the parts before it do not count. -/
theorem resolve_named_construct {outer : List NamePart} {last : NamePart} (houter : outer ≠ [])
    {k : DefinitionKey} (hk : (e.resolve s (.named isGlobal (outer ++ [last]))).key? = some k)
    (outer' : List NamePart) (last' : NamePart)
    (hshape : outer'.map NamePart.shape = outer.map NamePart.shape)
    (hlast : last'.shape = last.shape) :
    e.resolve s (.named isGlobal (outer' ++ [last'])) =
        k.construct (last'.arguments.map (e.resolve s)) ∧
      (e.resolve s (.named isGlobal (outer' ++ [last'])) =
          e.resolve s (.named isGlobal (outer ++ [last])) ↔
        last'.arguments.map (e.resolve s) = last.arguments.map (e.resolve s)) := by
  have houter' : outer' ≠ [] := by
    rintro rfl
    exact houter (List.map_eq_nil_iff.mp hshape.symm)
  have hsame : (e.resolve s (.named isGlobal (outer' ++ [last']))).key? = some k := by
    rw [← hk]
    exact key?_resolve_congr (by simp [hshape, hlast])
  rw [resolve_named_append houter hk, resolve_named_append houter' hsame]
  exact ⟨rfl, k.construct_injective.eq_iff⟩

end Environment

section Example

/-- A generic type with types nested in it. -/
def outerSource : String :=
  "namespace N \x7b class A \x7b \x7d class B \x7b \x7d class Outer<T> \x7b class Inner \x7b \x7d class Node<S> \x7b \x7d \x7d \x7d"

/-- One source, with its first type declaration. -/
def firstDeclared? (source : String) : Option (CompilationUnit × Declared) := do
  let unit ← (CompilationUnit.parse "a.cs" source).toOption
  let declared ← (Declarations.ofUnits [unit]).declared.head?
  return (unit, declared)

theorem of_firstDeclared {source : String} {u : CompilationUnit} {d : Declared}
    (h : firstDeclared? source = some (u, d)) :
    (∀ v ∈ [u], ∃ path source, CompilationUnit.parse path source = .ok v) ∧
      d ∈ (Declarations.ofUnits [u]).declared := by
  simp only [firstDeclared?, Option.pure_def, Option.bind_eq_bind, Option.bind_eq_some_iff,
    Option.some.injEq] at h
  obtain ⟨unit, hunit, declared, hdeclared, heq⟩ := h
  cases heq
  exact ⟨fun v hv => ⟨_, _, List.mem_singleton.mp hv ▸ eq_ok_of_toOption hunit⟩,
    List.mem_of_mem_head? hdeclared⟩

/-- The name of a type without type arguments. -/
def plainName (n : String) : TypeSyntax := .named false [.mk n []]

/-- The generic type with a type argument. -/
def outerPart (n : String) : NamePart := .mk "Outer" [plainName n]

/-- The generic type that is nested in it. -/
def nodeKey : DefinitionKey := .nested (.topLevel (some "N") "Outer" 1) "Node" 1

/-- **The type argument of the inner type counts**, and that of the outer type does not. -/
theorem resolve_named_of_node : ∃ u d, d ∈ (Declarations.ofUnits [u]).declared ∧
    (Model.ofUnits [u]).resolveAt d.site
        (.named false ([outerPart "B"] ++ [.mk "Node" [plainName "A"]])) =
      .constructed nodeKey [.definition (.topLevel (some "N") "A" 0)] ∧
    (Model.ofUnits [u]).resolveAt d.site
        (.named false ([outerPart "B"] ++ [.mk "Node" [plainName "A"]])) ≠
      (Model.ofUnits [u]).resolveAt d.site
        (.named false ([outerPart "A"] ++ [.mk "Node" [plainName "B"]])) := by
  have hprogram : (firstDeclared? outerSource).any
      (fun (x : CompilationUnit × Declared) =>
        let means := (Model.ofUnits [x.1]).resolveAt x.2.site
        decide ((means (.named false ([outerPart "A"] ++ [.mk "Node" [plainName "B"]]))).key? =
            some nodeKey ∧
          means (plainName "A") = .definition (.topLevel (some "N") "A" 0) ∧
          means (plainName "B") = .definition (.topLevel (some "N") "B" 0))) = true := by
    decide +kernel
  obtain ⟨⟨u, d⟩, hx, hfacts⟩ := (Option.any_eq_true _ _).mp hprogram
  obtain ⟨hkey, hA, hB⟩ := of_decide_eq_true hfacts
  obtain ⟨hmeans, hsame⟩ := Environment.resolve_named_construct (by simp) hkey [outerPart "B"]
    (.mk "Node" [plainName "A"]) rfl rfl
  have harguments : [(Model.ofUnits [u]).resolveAt d.site (plainName "A")] ≠
      [(Model.ofUnits [u]).resolveAt d.site (plainName "B")] := by
    rw [hA, hB]
    decide
  refine ⟨u, d, (of_firstDeclared hx).2, ?_, fun h => harguments (hsame.mp h)⟩
  rw [← hA]
  exact hmeans

/-- **Different type arguments on the outer part, and one meaning.** -/
theorem not_resolve_named_ne :
    ¬ ∀ units : List CompilationUnit,
      (∀ u ∈ units, ∃ path source, CompilationUnit.parse path source = .ok u) →
      ∀ d ∈ (Declarations.ofUnits units).declared,
      ∀ (isGlobal : Bool) (outer outer' : List NamePart) (last : NamePart),
        outer.map NamePart.shape = outer'.map NamePart.shape →
        (∀ n ∈ List.range (outer.length + 1), ((Model.ofUnits units).resolveAt d.site
          (.named isGlobal ((outer ++ [last]).take (n + 1)))).key?.isSome) →
        (outer.flatMap NamePart.arguments).map ((Model.ofUnits units).resolveAt d.site) ≠
          (outer'.flatMap NamePart.arguments).map ((Model.ofUnits units).resolveAt d.site) →
        (Model.ofUnits units).resolveAt d.site (.named isGlobal (outer ++ [last])) ≠
          (Model.ofUnits units).resolveAt d.site (.named isGlobal (outer' ++ [last])) := by
  intro h
  have hprogram : (firstDeclared? outerSource).any
      (fun (x : CompilationUnit × Declared) =>
        let means := (Model.ofUnits [x.1]).resolveAt x.2.site
        decide ((∀ n ∈ List.range 2, (means (.named false
            (([outerPart "A"] ++ [NamePart.mk "Inner" []]).take (n + 1)))).key?.isSome) ∧
          [means (plainName "A")] ≠ [means (plainName "B")] ∧
          means (.named false ([outerPart "A"] ++ [.mk "Inner" []])) =
            means (.named false ([outerPart "B"] ++ [.mk "Inner" []])))) = true := by
    decide +kernel
  obtain ⟨⟨u, d⟩, hx, hfacts⟩ := (Option.any_eq_true _ _).mp hprogram
  obtain ⟨hdeclared, harguments, hsame⟩ := of_decide_eq_true hfacts
  obtain ⟨hparsed, hd⟩ := of_firstDeclared hx
  exact h [u] hparsed d hd false [outerPart "A"] [outerPart "B"] (.mk "Inner" []) rfl hdeclared
    harguments hsame

end Example

end Facade
