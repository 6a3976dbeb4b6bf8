import Facade.Binding.Model
import Facade.Proofs.Symbol.Written

/-!
# Resolved types can be written

What names mean in a program whose declarations can be written.

* `Declarations.IsWritten`, `Scope.IsWritten`: programs and scopes made of what can be written;
* `Declarations.isWritten_resolveName`: a dotted name means a symbol that can be written;
* **`Environment.isWritten_resolve`**: so does every written type.
-/

namespace Facade

/-! ## Dotted names -/

/-- A part of a dotted name whose type arguments have been resolved. -/
structure ResolvedPart.IsWritten (q : ResolvedPart) : Prop where
  name : Named q.name
  arguments : ∀ a ∈ q.arguments, a.IsWritten
  text : ∃ part : NamePart, part.IsWritten ∧ part.text = q.text

theorem DefinitionKey.IsWritten.construct {k : DefinitionKey} (h : k.IsWritten)
    {as : List TypeSymbol} (has : ∀ a ∈ as, a.IsWritten) : (k.construct as).IsWritten := by
  unfold DefinitionKey.construct
  split_ifs with hempty
  · exact .definition h
  · exact .constructed h (by simpa using hempty) has

theorem ResolvedPart.IsWritten.construct {q : ResolvedPart} (hq : q.IsWritten) {t : TypeSymbol}
    (h : t.IsWritten) : (q.construct t).IsWritten := by
  unfold ResolvedPart.construct
  split
  · exact (h.key rfl).construct hq.arguments
  · exact h

theorem exists_parts {parts : List ResolvedPart} (h : ∀ q ∈ parts, q.IsWritten) :
    ∃ ps : List NamePart, (∀ q ∈ ps, q.IsWritten) ∧
      ps.map NamePart.text = parts.map ResolvedPart.text := by
  induction parts with
  | nil => exact ⟨[], by simp, rfl⟩
  | cons q parts ih =>
    obtain ⟨ps, hps, htexts⟩ := ih fun q hq => h q (List.mem_cons_of_mem _ hq)
    obtain ⟨part, hpart, htext⟩ := (h q List.mem_cons_self).text
    refine ⟨part :: ps, fun r hr => ?_, by rw [List.map_cons, htexts, htext, List.map_cons]⟩
    exact (List.mem_cons.mp hr).elim (fun h => h ▸ hpart) (hps r)

theorem isWritten_unresolvedName {isGlobal : Bool} {parts : List ResolvedPart}
    (hne : parts ≠ []) (h : ∀ q ∈ parts, q.IsWritten) :
    (unresolvedName isGlobal parts).IsWritten := by
  unfold unresolvedName
  rw [List.getLast?_eq_some_getLast hne]
  obtain ⟨ps, hps, htexts⟩ := exists_parts fun q hq => h q (List.dropLast_subset parts hq)
  have hlast := h _ (List.getLast_mem hne)
  exact .unresolved ⟨ps, _, hps, hlast.name, by rw [htexts]⟩ hlast.arguments

namespace Declarations

/-- The identities of the declared types and the using directives are made of what can be
written. -/
structure IsWritten (d : Declarations) : Prop where
  keys : ∀ k ∈ d.keys, k.IsWritten
  usings : ∀ u ∈ d.units, ∀ g ∈ u.usings, g.target.IsWritten

variable {d : Declarations}

theorem IsWritten.type? (hd : d.IsWritten) {k k' : DefinitionKey} (h : d.type? k = some k') :
    k'.IsWritten := by
  unfold Declarations.type? at h
  split_ifs at h with hmem
  cases h
  exact hd.keys _ hmem

theorem IsWritten.inSpaces (hd : d.IsWritten) {spaces : List (Option String)} {name : String}
    {arity : Nat} {k : DefinitionKey} (h : d.inSpaces spaces name arity = some k) :
    k.IsWritten := by
  obtain ⟨s, -, hs⟩ := List.exists_of_findSome?_eq_some h
  exact hd.type? hs

theorem IsWritten.step (hd : d.IsWritten) {t t' : TypeSymbol} {q : ResolvedPart}
    (hq : q.IsWritten) (h : d.step t q = some t') : t'.IsWritten := by
  simp only [Declarations.step, Option.pure_def, Option.bind_eq_bind, Option.bind_eq_some_iff,
    Option.some.injEq] at h
  obtain ⟨k, -, nested, hnested, rfl⟩ := h
  exact (hd.type? hnested).construct hq.arguments

theorem IsWritten.descend (hd : d.IsWritten) {parts : List ResolvedPart}
    (hparts : ∀ q ∈ parts, q.IsWritten) {t t' : TypeSymbol} (ht : t.IsWritten)
    (h : d.descend t parts = some t') : t'.IsWritten := by
  induction parts generalizing t with
  | nil =>
    simp only [Declarations.descend, List.foldlM_nil, Option.pure_def, Option.some.injEq] at h
    exact h ▸ ht
  | cons q parts ih =>
    simp only [Declarations.descend, List.foldlM_cons, Option.bind_eq_bind,
      Option.bind_eq_some_iff] at h
    obtain ⟨u, hu, h⟩ := h
    exact ih (fun q hq => hparts q (List.mem_cons_of_mem _ hq))
      (hd.step (hparts q List.mem_cons_self) hu) h

theorem IsWritten.longestQualified (hd : d.IsWritten) {spaces : List (Option String)}
    {parts : List ResolvedPart} {k : DefinitionKey} {i : Nat}
    (h : d.longestQualified spaces parts = some (k, i)) : k.IsWritten := by
  obtain ⟨count, -, hcount⟩ := List.exists_of_findSome?_eq_some h
  obtain ⟨k', hk', heq⟩ := Option.map_eq_some_iff.mp hcount
  cases heq
  simp only [Declarations.inQualified] at hk'
  split_ifs at hk'
  obtain ⟨last, -, hk'⟩ := Option.bind_eq_some_iff.mp hk'
  obtain ⟨s, -, hs⟩ := List.exists_of_findSome?_eq_some hk'
  split_ifs at hs
  exact hd.type? hs

/-- **A dotted name means a symbol that can be written**, if simple names do. -/
theorem IsWritten.isWritten_resolveName (hd : d.IsWritten) {simple : String → Nat → Option TypeSymbol}
    (hsimple : ∀ n a t, simple n a = some t → t.IsWritten) {spaces : List (Option String)}
    {isGlobal : Bool} {parts : List ResolvedPart} (hne : parts ≠ [])
    (hparts : ∀ q ∈ parts, q.IsWritten) :
    (d.resolveName simple spaces isGlobal parts).IsWritten := by
  obtain ⟨found, hfound, hwritten⟩ : ∃ found : Option TypeSymbol,
      d.resolveName simple spaces isGlobal parts = found.getD (unresolvedName isGlobal parts) ∧
        ∀ t, found = some t → t.IsWritten := by
    refine ⟨_, rfl, fun t h => ?_⟩
    simp only [Option.bind_eq_bind, Option.bind_eq_some_iff] at h
    obtain ⟨head, hhead, h⟩ := h
    have hheadw := hparts head (List.mem_of_mem_head? hhead)
    have htail : ∀ q ∈ parts.tail, q.IsWritten := fun q hq => hparts q (List.mem_of_mem_tail hq)
    split at h
    · next start hstart =>
      have hstartw : start.IsWritten := by
        split_ifs at hstart
        · obtain ⟨k, hk, rfl⟩ := Option.map_eq_some_iff.mp hstart
          exact .definition (hd.type? hk)
        · exact hsimple _ _ _ hstart
      exact hd.descend htail (hheadw.construct hstartw) h
    · obtain ⟨⟨k, i⟩, hk, h⟩ := Option.bind_eq_some_iff.mp h
      obtain ⟨part, hpart, h⟩ := Option.bind_eq_some_iff.mp h
      have hpartw := hparts part (List.mem_of_getElem? hpart)
      exact hd.descend (fun q hq => hparts q (List.mem_of_mem_drop hq))
        ((hd.longestQualified hk).construct hpartw.arguments) h
  rw [hfound]
  cases found with
  | none => exact isWritten_unresolvedName hne hparts
  | some t => exact hwritten t rfl

end Declarations

/-! ## Written types -/

theorem resolveAll_eq_map (named : Bool → List ResolvedPart → TypeSymbol) (ts : List TypeSyntax) :
    TypeSyntax.resolveAll named ts = ts.map (TypeSyntax.resolveWith named) := by
  induction ts with
  | nil => rfl
  | cons t ts ih => rw [TypeSyntax.resolveAll, ih, List.map_cons]

theorem resolveElements_eq_map (named : Bool → List ResolvedPart → TypeSymbol)
    (es : List (TypeSyntax × Option String)) :
    TypeSyntax.resolveElements named es = es.map fun e => (e.1.resolveWith named, e.2) := by
  induction es with
  | nil => rfl
  | cons e es ih => rw [TypeSyntax.resolveElements, ih, List.map_cons]

theorem resolveParts_eq_map (named : Bool → List ResolvedPart → TypeSymbol) (ps : List NamePart) :
    NamePart.resolveAll named ps = ps.map fun q =>
      ⟨q.name, q.arguments.map (TypeSyntax.resolveWith named), q.text⟩ := by
  induction ps with
  | nil => rfl
  | cons q ps ih =>
    cases q with
    | mk n as =>
      rw [NamePart.resolveAll, ih, resolveAll_eq_map, List.map_cons]
      rfl

/-- **A written type means a symbol that can be written**, if dotted names do. -/
theorem TypeSyntax.IsWritten.resolveWith {named : Bool → List ResolvedPart → TypeSymbol}
    (hnamed : ∀ isGlobal parts, parts ≠ [] → (∀ q ∈ parts, ResolvedPart.IsWritten q) →
      (named isGlobal parts).IsWritten)
    {t : TypeSyntax} (h : t.IsWritten) : (t.resolveWith named).IsWritten := by
  induction h with
  | predefined hk => exact .special hk
  | @named isGlobal parts hne hnames harguments ih =>
    rw [TypeSyntax.resolveWith, resolveParts_eq_map]
    refine hnamed _ _ (by simpa using hne) fun q hq => ?_
    obtain ⟨part, hpart, rfl⟩ := List.mem_map.mp hq
    refine ⟨hnames part hpart, fun a ha => ?_, part, ⟨hnames part hpart, harguments part hpart⟩,
      rfl⟩
    obtain ⟨b, hb, rfl⟩ := List.mem_map.mp ha
    exact ih part hpart b hb
  | array _ hrank ih => exact .array ih hrank
  | nullable _ ih => exact .nullable ih
  | pointer _ ih => exact .pointer ih
  | tuple hlength _ hnames ih =>
    rw [TypeSyntax.resolveWith, resolveElements_eq_map]
    refine .tuple (by simpa using hlength) (fun e he => ?_) (fun e he => ?_)
    · obtain ⟨e', he', rfl⟩ := List.mem_map.mp he
      exact ih e' he'
    · obtain ⟨e', he', rfl⟩ := List.mem_map.mp he
      exact hnames e' he'

/-! ## Scopes -/

/-- The aliases of a level stand for types that can be written. -/
def Level.IsWritten (l : Level) : Prop := ∀ a ∈ l.aliases, a.target.IsWritten

/-- A scope made of what can be written. -/
structure Scope.IsWritten (s : Scope) : Prop where
  methodParameters : ∀ q ∈ s.methodParameters, Named q.name
  levels : ∀ l ∈ s.levels, l.IsWritten

theorem isWritten_of_parameterNamed {ps : List TypeParameter} (h : ∀ q ∈ ps, Named q.name)
    {n : String} {arity : Nat} {t : TypeSymbol} (ht : parameterNamed? ps n arity = some t) :
    t.IsWritten := by
  unfold parameterNamed? at ht
  split_ifs at ht
  obtain ⟨q, hq, rfl⟩ := Option.map_eq_some_iff.mp ht
  exact .parameter (h q (List.mem_of_find?_eq_some hq))

namespace Declarations

variable {d : Declarations}

theorem IsWritten.resolvePlain (hd : d.IsWritten) (levels : List NamespaceLevel) {t : TypeSyntax}
    (ht : t.IsWritten) : (d.resolvePlain levels t).IsWritten := by
  refine ht.resolveWith fun isGlobal parts hne hparts => ?_
  refine hd.isWritten_resolveName (fun n a u hu => ?_) hne hparts
  obtain ⟨k, hk, rfl⟩ := Option.map_eq_some_iff.mp hu
  obtain ⟨l, -, hl⟩ := List.exists_of_findSome?_eq_some hk
  rw [Option.orElse_eq_some] at hl
  rcases hl with hl | ⟨-, hl⟩
  · exact .definition (hd.inSpaces hl)
  · exact .definition (hd.inSpaces hl)

theorem IsWritten.lookupLevel (hd : d.IsWritten) {l : Level} (hl : l.IsWritten) {n : String}
    {arity : Nat} {t : TypeSymbol} (h : d.lookupLevel l n arity = some t) : t.IsWritten := by
  unfold Declarations.lookupLevel at h
  rw [Option.orElse_eq_some, Option.orElse_eq_some] at h
  rcases h with h | ⟨-, h | ⟨-, h⟩⟩
  · obtain ⟨k, hk, rfl⟩ := Option.map_eq_some_iff.mp h
    exact .definition (hd.inSpaces hk)
  · split_ifs at h
    obtain ⟨a, ha, rfl⟩ := Option.map_eq_some_iff.mp h
    exact hd.resolvePlain _ (hl a (List.mem_of_find?_eq_some ha))
  · obtain ⟨k, hk, rfl⟩ := Option.map_eq_some_iff.mp h
    exact .definition (hd.inSpaces hk)

end Declarations

namespace Environment

/-- The declarations and the type parameters of declared types are made of what can be written. -/
structure IsWritten (e : Environment) : Prop where
  declarations : e.declarations.IsWritten
  parameters : e.program.HasNamedParameters

variable {e : Environment}

theorem IsWritten.lookup (he : e.IsWritten) {s : Scope} (hs : s.IsWritten) {n : String}
    {arity : Nat} {t : TypeSymbol} (h : e.lookup s n arity = some t) : t.IsWritten := by
  unfold Environment.lookup at h
  rw [Option.orElse_eq_some, Option.orElse_eq_some] at h
  rcases h with h | ⟨-, h | ⟨-, h⟩⟩
  · exact isWritten_of_parameterNamed hs.methodParameters h
  · obtain ⟨k, -, hk⟩ := List.exists_of_findSome?_eq_some h
    unfold Environment.lookupContaining at hk
    rw [Option.orElse_eq_some] at hk
    rcases hk with hk | ⟨-, hk⟩
    · exact isWritten_of_parameterNamed (he.parameters k) hk
    · obtain ⟨k', hk', rfl⟩ := Option.map_eq_some_iff.mp hk
      exact .definition (he.declarations.type? hk')
  · obtain ⟨l, hl, hl'⟩ := List.exists_of_findSome?_eq_some h
    exact he.declarations.lookupLevel (hs.levels l hl) hl'

/-- **Every written type means a symbol that can be written.** -/
theorem IsWritten.resolve (he : e.IsWritten) {s : Scope} (hs : s.IsWritten) {t : TypeSyntax}
    (ht : t.IsWritten) : (e.resolve s t).IsWritten :=
  ht.resolveWith fun _ _ hne hparts =>
    he.declarations.isWritten_resolveName (fun _ _ _ hu => he.lookup hs hu) hne hparts

end Environment

end Facade
