import Facade.Proofs.Binding.Nearest

/-!
# Global names

A name that begins with `global::` is looked for in the global namespace alone: its first part is a type
there, or the longest beginning of it is a namespace. Where no namespace is called like a type, each
declared type is found by the names of its namespace, of the types around it and its own.

* `DefinitionKey.dottedName`, `Declarations.NamedApart`: no namespace is called like a type;
* `Declarations.typeWithin?_eq_none_of_lt`: no longer beginning of the name of a type is a namespace;
* `Declarations.found?_global`: what a global name leads to;
* **`Environment.resolve_global_name`**: what it means, at any place;
* `resolve_global_name_from_within`: a place where all of its parts mean something else.
-/

namespace Facade

/-- The name of a type with its namespace and the types around it, without type parameters. -/
def DefinitionKey.dottedName (k : DefinitionKey) : String := ".".intercalate (k.path.map Prod.fst)

theorem DefinitionKey.getLast?_path (k : DefinitionKey) : k.path.getLast? = some (k.name, k.arity) := by
  cases k <;> simp [path, chain, name, arity]

namespace Declarations

/-- **No namespace is called like a type.** A type that has type parameters, or is within one that has
some, shows them in its name, so that no namespace can be called like it. -/
def NamedApart (d : Declarations) : Prop :=
  ∀ k ∈ d.keys, (∀ n ∈ k.chain, n.2 = 0) → k.dottedName ∉ d.spaces

instance (d : Declarations) : Decidable d.NamedApart :=
  inferInstanceAs (Decidable (∀ k ∈ d.keys, (∀ n ∈ k.chain, n.2 = 0) → k.dottedName ∉ d.spaces))

variable {units : List CompilationUnit} {k : DefinitionKey}

/-! ## Beginnings of the name of a type -/

theorem exists_path_take (hk : k ∈ (ofUnits units).keys) {count : Nat}
    (hlt : k.segments.length < count) : ∃ l ∈ (ofUnits units).keys,
      l.path = k.path.take count ∧ l.chain = k.chain.take (count - k.segments.length) := by
  obtain ⟨inner, hchain, hnest⟩ := k.exists_chain
  obtain ⟨more, hmore⟩ : ∃ more, count - k.segments.length = more + 1 :=
    Nat.exists_eq_succ_of_ne_zero (by omega)
  let l := k.outermost.nest (inner.take more)
  have hspace : l.space = k.space := by simp [l]
  have hlchain : l.chain = k.chain.take (count - k.segments.length) := by
    rw [hmore, hchain, List.take_succ_cons, DefinitionKey.chain_nest, k.outermost_eq]
    rfl
  have hlk : l.nest (inner.drop more) = k := by
    rw [← DefinitionKey.nest_append, List.take_append_drop, ← hnest]
  have hsegments : l.segments = k.segments := by rw [DefinitionKey.segments, hspace]; rfl
  have htake : (k.segments.map fun n => (n, 0)).take count = k.segments.map fun n => (n, 0) :=
    List.take_of_length_le (by simpa using hlt.le)
  refine ⟨l, mem_keys_of_nest (hlk.symm ▸ hk), ?_, hlchain⟩
  rw [DefinitionKey.path, DefinitionKey.path, hsegments, hlchain, List.take_append, htake,
    List.length_map]

/-- **No longer beginning of the name of a type is a namespace** than the one it is in. -/
theorem typeWithin?_eq_none_of_lt (hapart : (ofUnits units).NamedApart)
    (hk : k ∈ (ofUnits units).keys) {count : Nat} (hlt : k.segments.length < count) :
    (ofUnits units).typeWithin? k.path count none = none := by
  by_contra hne
  obtain ⟨l, hl⟩ := Option.ne_none_iff_exists'.mp hne
  obtain ⟨last, -, hl⟩ := Option.bind_eq_some_iff.mp hl
  dsimp only at hl
  split_ifs at hl with hknown
  obtain ⟨hplain, hknown⟩ := hknown
  obtain ⟨around, haround, hpath, hchain⟩ := exists_path_take hk hlt
  refine hapart around haround (fun n hn => ?_) ?_
  · have hmem : n ∈ k.path.take count := by
      rw [← hpath, DefinitionKey.path]
      exact List.mem_append_right _ hn
    simpa using List.any_eq_false.mp hplain n hmem
  · rw [DefinitionKey.dottedName, hpath]
    exact hknown

/-- A namespace at the beginning of the name of a type is no type of the global namespace. -/
theorem type?_segment_eq_none (hapart : (ofUnits units).NamedApart) (hk : k ∈ (ofUnits units).keys)
    {first : String} {names : List String} (hsegments : k.segments = first :: names) :
    (ofUnits units).type? (.topLevel none first 0) = none := by
  obtain ⟨space, hspace⟩ : ∃ space, k.space = some space :=
    Option.ne_none_iff_exists'.mp fun hnone => by
      rw [DefinitionKey.segments_eq_nil.mpr hnone] at hsegments
      cases hsegments
  have hwhole : qualify none (".".intercalate (first :: names)) ∈ (ofUnits units).spaces := by
    rw [← hsegments, DefinitionKey.segments, hspace]
    simpa [qualify, Text.intercalate_split] using mem_spaces hk hspace
  have hknown : first ∈ (ofUnits units).spaces := mem_spaces_of_intercalate hwhole
  refine if_neg fun htype => hapart _ htype (by simp [DefinitionKey.chain]) ?_
  simpa [DefinitionKey.dottedName, DefinitionKey.path, DefinitionKey.segments, DefinitionKey.space,
    DefinitionKey.chain] using hknown

/-! ## Global names -/

/-- **A global name leads to the type**, whatever simple names mean and whatever is around. -/
theorem found?_global (hapart : (ofUnits units).NamedApart) (hk : k ∈ (ofUnits units).keys)
    (simple : String → Nat → Option TypeSymbol) (spaces : List (Option String))
    {parts : List ResolvedPart} (hparts : parts.map ResolvedPart.shape = k.path) (hne : parts ≠ []) :
    (ofUnits units).found? simple spaces true parts =
      some (k.construct (parts.getLast hne).arguments) := by
  obtain ⟨before, part, after, rfl, hbefore, hshape⟩ := k.exists_parts hparts
  rw [List.getLast_append_of_ne_nil _ (by simp)]
  cases before with
  | nil =>
    have hspace : k.space = none :=
      DefinitionKey.segments_eq_nil.mp (List.map_eq_nil_iff.mp hbefore.symm)
    obtain ⟨houtermost, htop⟩ := mem_keys_of_shape hk hspace hshape
    have hdescend := descend_outermost hk hshape
    rw [houtermost] at hdescend
    simpa [found?, type?, htop, ResolvedPart.construct] using hdescend
  | cons head rest =>
    obtain ⟨first, names, hsegments, hhead, hrest⟩ := List.map_eq_cons_iff.mp hbefore.symm
    obtain ⟨hname, harity⟩ : head.name = first ∧ head.arity = 0 := Prod.mk.inj hhead.symm
    have hlength : k.segments.length = rest.length + 1 := by
      simpa using (congrArg List.length hbefore).symm
    refine found?_eq_of_longestQualified hk hshape ?_ ?_
    · rw [hname, harity, type?_segment_eq_none hapart hk hsegments]
      rfl
    · rw [longestQualified_eq_some, hparts, ← hlength]
      refine ⟨by omega, ?_, ?_, fun count hlt _ => ?_⟩
      · rw [hlength]
        simp
      · have hspace : k.space ≠ none := by
          rw [← DefinitionKey.segments_eq_nil.ne, hsegments]
          exact List.cons_ne_nil _ _
        simpa [inBeginning?] using typeWithin?_path hk hspace
      · simpa [inBeginning?] using typeWithin?_eq_none_of_lt hapart hk hlt

end Declarations

namespace Environment

variable {units : List CompilationUnit} {k : DefinitionKey}

/-- **Every declared type is reached by its global name**, from any place: the name means the type
itself, or the type with the type arguments of its last part, if it has type parameters. -/
theorem resolve_global_name (hapart : (ofUnits units).declarations.NamedApart)
    (hk : k ∈ (ofUnits units).declarations.keys) (s : Scope) {outer : List NamePart} {last : NamePart}
    (hparts : (outer ++ [last]).map NamePart.shape = k.path) :
    (ofUnits units).resolve s (.named true (outer ++ [last])) =
      if k.arity = 0 then .definition k
      else .constructed k (last.arguments.map ((ofUnits units).resolve s)) := by
  have hshape : (NamePart.resolveAll ((ofUnits units).named s) (outer ++ [last])).map
      ResolvedPart.shape = k.path := by rw [shape_resolveAll, hparts]
  have hne : NamePart.resolveAll ((ofUnits units).named s) (outer ++ [last]) ≠ [] := by
    simp [resolveParts_eq_map]
  have hlast : ((NamePart.resolveAll ((ofUnits units).named s) (outer ++ [last])).getLast hne).arguments =
      last.arguments.map ((ofUnits units).resolve s) := by
    simp [resolveParts_eq_map, resolve_eq]
  have hfound : (ofUnits units).leadsTo? s (.named true (outer ++ [last])) =
      some (k.construct (last.arguments.map ((ofUnits units).resolve s))) := by
    rw [← hlast]
    exact Declarations.found?_global hapart hk _ _ hshape hne
  have harity : last.arguments.length = k.arity := by
    have hshapes := congrArg List.getLast? hparts
    rw [List.map_append, List.map_singleton, List.getLast?_concat, k.getLast?_path,
      Option.some.injEq] at hshapes
    exact congrArg Prod.snd hshapes
  rw [resolve_named, hfound, Option.getD_some, DefinitionKey.construct]
  simp [← harity]

end Environment

section Example

/-- Generic types nested in one another in `A.B`, and a class `M.A` that imports a namespace and has a
type parameter, a nested type and an alias called like the parts of their name. -/
def globalSource : String :=
  "namespace M \x7b using Outer = B; using N; class A<B> \x7b class Outer<S> \x7b \x7d \x7d \x7d " ++
    "class B \x7b \x7d namespace N \x7b class Inner<S> \x7b \x7d \x7d " ++
    "namespace A.B \x7b class Outer<T> \x7b class Inner<S> \x7b \x7d \x7d \x7d"

/-- **The name `global::A.B.Outer<B>.Inner<B>` within `M.A<B>`** means the type in `A.B`, with the type
parameter as its type argument. -/
theorem resolve_global_name_from_within : ∃ u d,
    d ∈ (Declarations.ofUnits [u]).declared ∧
      (Model.ofUnits [u]).resolveAt d.site (.named true
          ([.mk "A" [], .mk "B" [], outerPart "B"] ++ [.mk "Inner" [plainName "B"]])) =
        .constructed (.nested (.topLevel (some "A.B") "Outer" 1) "Inner" 1)
          [.parameter ⟨"B", 0, "M.A", none⟩] := by
  have hprogram : (firstDeclared? globalSource).any
      (fun (x : CompilationUnit × Declared) =>
        let e := Environment.ofUnits [x.1]
        decide (e.declarations.NamedApart ∧
          .nested (.topLevel (some "A.B") "Outer" 1) "Inner" 1 ∈ e.declarations.keys ∧
          e.resolve (e.declarations.scopeAt x.2.site) (plainName "B") =
            .parameter ⟨"B", 0, "M.A", none⟩)) = true := by
    refine CompilationUnit.any_of_ofCharacters (toList_append_eq
      (toList_append_eq String.toList_ofList String.toList_ofList) String.toList_ofList) ?_
    decide +kernel
  obtain ⟨⟨u, d⟩, hx, hfacts⟩ := (Option.any_eq_true _ _).mp hprogram
  obtain ⟨hapart, hk, hB⟩ := of_decide_eq_true hfacts
  have hparts : ([NamePart.mk "A" [], .mk "B" [], outerPart "B"] ++
      [NamePart.mk "Inner" [plainName "B"]]).map NamePart.shape =
        (DefinitionKey.nested (.topLevel (some "A.B") "Outer" 1) "Inner" 1).path := rfl
  have hmeans := Environment.resolve_global_name hapart hk
    ((Environment.ofUnits [u]).declarations.scopeAt d.site) hparts
  refine ⟨u, d, (of_firstDeclared hx).2, hmeans.trans ?_⟩
  rw [← hB]
  rfl

end Example

end Facade
