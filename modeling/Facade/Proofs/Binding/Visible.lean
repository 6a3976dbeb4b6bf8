import Facade.Proofs.Binding.Found

/-!
# What is visible under its qualified name

The qualified name of a declared type leads to it from a place where nothing else of that name is in
the way: no type parameter, nested type or alias, and no type of a nearer namespace.

* `Scope.SeesGlobal`: the global namespace is around the place;
* `Environment.Uncaptured`: nothing is in the way of a qualified name;
* **`Environment.Uncaptured.found?_eq`**: the name leads to the type then;
* **`Environment.uncaptured_of_found?`**: and only then.
-/

namespace Facade

variable {units : List CompilationUnit}

/-- The global namespace is around the place. -/
def Scope.SeesGlobal (s : Scope) : Prop := ∃ l ∈ s.levels, none ∈ l.plain.spaces

theorem Scope.SeesGlobal.mem_spaces {s : Scope} (h : s.SeesGlobal) : none ∈ s.spaces := by
  obtain ⟨l, hl, hnone⟩ := h
  exact List.mem_flatMap.mpr ⟨l, hl, hnone⟩

theorem Declarations.mem_levelsWithin {l : Level} {around : List Level} (h : l ∈ around)
    (outer : Option String) (heads : List NamespaceHead) : l ∈ levelsWithin outer around heads := by
  induction heads generalizing outer around with
  | nil => exact h
  | cons head heads ih => exact ih (List.mem_cons_of_mem _ h) _

theorem Declarations.seesGlobal_scopeAt (d : Declarations) (t : TypeSite) :
    (d.scopeAt t).SeesGlobal :=
  ⟨_, mem_levelsWithin List.mem_cons_self none t.site.namespaces, List.mem_cons_self⟩

namespace Environment

/-- **Nothing is in the way of the qualified name of a declared type.** As a simple name its first part
means nothing, or the outermost type if that is in the global namespace. And in no namespace around
the place it leads to another type before it has left the namespace of this one behind. -/
structure Uncaptured (e : Environment) (s : Scope) (k : DefinitionKey) : Prop where
  declared : k ∈ e.declarations.keys
  simple : ∀ n ∈ k.path.head?, ∀ t ∈ e.lookup s n.1 n.2,
    k.space = none ∧ t = .definition k.outermost
  qualified : k.space ≠ none → ∀ count < k.path.length, k.segments.length ≤ count →
    ∀ l ∈ e.declarations.inBeginning? s.spaces k.path count, l = k.outermost

instance (e : Environment) (s : Scope) (k : DefinitionKey) : Decidable (e.Uncaptured s k) :=
  decidable_of_iff (k ∈ e.declarations.keys ∧
    (∀ n ∈ k.path.head?, ∀ t ∈ e.lookup s n.1 n.2,
      k.space = none ∧ t = .definition k.outermost) ∧
    (k.space ≠ none → ∀ count < k.path.length, k.segments.length ≤ count →
      ∀ l ∈ e.declarations.inBeginning? s.spaces k.path count, l = k.outermost))
    ⟨fun h => ⟨h.1, h.2.1, h.2.2⟩, fun h => ⟨h.declared, h.simple, h.qualified⟩⟩

theorem length_qualify (space : Option String) (n : String) :
    n.length ≤ (qualify space n).length := by
  unfold qualify
  split
  · split_ifs
    · exact le_refl _
    · simp
  · exact le_refl _

theorem length_intercalate_lt {xs ys : List String} (hxs : xs ≠ []) (hys : ys ≠ []) :
    (".".intercalate xs).length < (".".intercalate (xs ++ ys)).length := by
  rw [String.intercalate_append_of_ne_nil hxs hys, String.length_append, String.length_append]
  have hdot : ".".length = 1 := rfl
  omega

theorem lookup_ne_none {s : Scope} (hs : s.SeesGlobal) {n : String} {a : Nat}
    (h : .topLevel none n a ∈ (ofUnits units).declarations.keys) :
    (ofUnits units).lookup s n a ≠ none := by
  obtain ⟨l, hl, hnone⟩ := hs
  have htype : (ofUnits units).declarations.type? (.topLevel none n a) ≠ none := by
    simp [Declarations.type?, h]
  have hlevel : (ofUnits units).declarations.lookupLevel l n a ≠ none := by
    have hin : (ofUnits units).declarations.inLevel l.plain n a ≠ none := fun hin =>
      htype (List.findSome?_eq_none_iff.mp hin none hnone)
    obtain ⟨k, hk⟩ := Option.ne_none_iff_exists'.mp hin
    simp [Declarations.lookupLevel, hk]
  intro hlookup
  unfold lookup at hlookup
  simp only [Option.orElse_eq_none] at hlookup
  exact hlevel (List.findSome?_eq_none_iff.mp hlookup.2.2 l hl)

variable {s : Scope} {k : DefinitionKey} {parts : List ResolvedPart}

theorem Uncaptured.inBeginning?_segments (h : (ofUnits units).Uncaptured s k)
    (hs : s.SeesGlobal) (hspace : k.space ≠ none) :
    (ofUnits units).declarations.inBeginning? s.spaces k.path k.segments.length =
      some k.outermost := by
  have hwithin : (ofUnits units).declarations.typeWithin? k.path k.segments.length none =
      some k.outermost := Declarations.typeWithin?_path h.declared hspace
  have hne : (ofUnits units).declarations.inBeginning? s.spaces k.path k.segments.length ≠ none :=
    fun hnone => by
      rw [List.findSome?_eq_none_iff.mp hnone none hs.mem_spaces] at hwithin
      cases hwithin
  obtain ⟨l, hl⟩ := Option.ne_none_iff_exists'.mp hne
  have hlength : k.segments.length < k.path.length := by
    simpa [DefinitionKey.path] using k.length_chain_pos
  rw [hl, h.qualified hspace _ hlength (le_refl _) l hl]

theorem Uncaptured.inBeginning?_eq_none (h : (ofUnits units).Uncaptured s k)
    (hspace : k.space ≠ none) {count : Nat} (hcount : k.segments.length < count)
    (hlength : count < k.path.length) :
    (ofUnits units).declarations.inBeginning? s.spaces k.path count = none := by
  by_contra hne
  obtain ⟨l, hl⟩ := Option.ne_none_iff_exists'.mp hne
  obtain ⟨space, hspace'⟩ := Option.ne_none_iff_exists'.mp hspace
  have hsegments : k.segments = Text.split '.' space := by simp [DefinitionKey.segments, hspace']
  obtain ⟨-, space', -, n, a, hkey⟩ := Declarations.exists_of_inBeginning? hl
  rw [h.qualified hspace _ hlength hcount.le l hl, k.outermost_eq, hspace'] at hkey
  obtain ⟨hfull, -, -⟩ := DefinitionKey.topLevel.inj hkey
  -- a longer beginning is longer as a text
  have htake : (k.path.take count).map Prod.fst =
      k.segments ++ (k.chain.take (count - k.segments.length)).map Prod.fst := by
    rw [DefinitionKey.path, List.take_append, List.map_append, List.length_map,
      List.take_of_length_le (by simpa using hcount.le), List.map_map]
    simp [Function.comp_def]
  have hmore : (k.chain.take (count - k.segments.length)).map Prod.fst ≠ [] := by
    have hlt : k.segments.length + k.chain.length = k.path.length := by simp [DefinitionKey.path]
    simp only [ne_eq, List.map_eq_nil_iff, List.take_eq_nil_iff, not_or]
    exact ⟨by omega, fun hnil => by rw [hnil, List.length_nil] at hlt; omega⟩
  have hlt := length_intercalate_lt (hsegments ▸ Text.split_ne_nil '.' space) hmore
  rw [← htake, hsegments, Text.intercalate_split] at hlt
  have hle := length_qualify space' (".".intercalate ((k.path.take count).map Prod.fst))
  rw [← Option.some.inj hfull] at hle
  omega

/-- **The qualified name of a type leads to it** if nothing is in the way. -/
theorem Uncaptured.found?_eq (h : (ofUnits units).Uncaptured s k) (hs : s.SeesGlobal)
    (hparts : parts.map ResolvedPart.shape = k.path) (hne : parts ≠ []) :
    (ofUnits units).declarations.found? ((ofUnits units).lookup s) s.spaces false parts =
      some (k.construct (parts.getLast hne).arguments) := by
  obtain ⟨before, part, after, rfl, hbefore, hshape⟩ := k.exists_parts hparts
  have hlength : before.length = k.segments.length := by
    simpa using congrArg List.length hbefore
  have hhead : ∀ q ∈ (before ++ part :: after).head?, q.shape ∈ k.path.head? := by
    intro q hq
    rw [← hparts, List.head?_map]
    exact Option.mem_map_of_mem _ hq
  rw [List.getLast_append_of_ne_nil _ (by simp)]
  cases before with
  | nil =>
    have hspace : k.space = none :=
      DefinitionKey.segments_eq_nil.mp (List.length_eq_zero_iff.mp hlength.symm)
    obtain ⟨t, ht⟩ := Option.ne_none_iff_exists'.mp
      (lookup_ne_none hs (Declarations.mem_keys_of_shape h.declared hspace hshape).2)
    obtain ⟨-, rfl⟩ := h.simple part.shape (hhead part rfl) t ht
    have hdescend : (ofUnits units).declarations.descend (k.outermost.construct part.arguments) after =
        some (k.construct ((part :: after).getLast (by simp)).arguments) :=
      Declarations.descend_outermost h.declared hshape
    simpa [Declarations.found?, ht, ResolvedPart.construct] using hdescend
  | cons head rest =>
    have hspace : k.space ≠ none := by
      rw [← DefinitionKey.segments_eq_nil.ne, ← List.length_pos_iff, ← hlength, List.length_cons]
      omega
    have hmiss : (ofUnits units).lookup s head.name head.arity = none := by
      by_contra hlookup
      obtain ⟨t, ht⟩ := Option.ne_none_iff_exists'.mp hlookup
      exact hspace (h.simple _ (hhead head rfl) t ht).1
    refine Declarations.found?_eq_of_longestQualified h.declared hshape hmiss ?_
    rw [← List.length_cons (a := head), Declarations.longestQualified_eq_some, hparts, hlength]
    refine ⟨?_, ?_, h.inBeginning?_segments hs hspace,
      fun j hj hlt => h.inBeginning?_eq_none hspace hj ?_⟩
    · rw [← hlength, List.length_cons]
      omega
    · rw [← hlength]
      simp
    · rw [← hparts]
      simpa using hlt

/-! ## What is in the way -/

theorem eq_definition_of_lookup {e : Environment} (he : e.IsWritten) (hs : s.IsWritten) {n : String}
    {t : TypeSymbol} (h : e.lookup s n k.arity = some t) (ht : t.key? = some k) :
    t = .definition k := by
  rcases exists_of_lookup h with ⟨-, l, -, rfl⟩ | ⟨harity, -⟩
  · rw [Option.some.inj ht]
  · have hover := denotes_lookup h ⟨n, [], n⟩ harity.symm (by simp)
    have hwritten := he.lookup hs h
    cases t with
    | definition l => rw [Option.some.inj ht]
    | constructed l as =>
      cases hover with
      | constructed hlength =>
        cases hwritten with
        | constructed _ hne =>
          rw [Option.some.inj ht, harity] at hlength
          exact absurd (List.length_eq_zero_iff.mp hlength) hne
    | _ => cases ht

variable {P : String → Prop} (hunits : ∀ u ∈ units, u.IsWritten P)

include hunits

/-- **A qualified name that leads to its type has nothing in the way.** -/
theorem uncaptured_of_found? (hs : s.IsWritten) (hk : k ∈ (ofUnits units).declarations.keys)
    (hparts : parts.map ResolvedPart.shape = k.path) {t : TypeSymbol}
    (h : (ofUnits units).declarations.found? ((ofUnits units).lookup s) s.spaces false parts =
      some t) (ht : t.key? = some k) : (ofUnits units).Uncaptured s k := by
  have hlength : parts.length = k.segments.length + k.chain.length := by
    simpa [DefinitionKey.path] using congrArg List.length hparts
  simp only [Declarations.found?, Option.bind_eq_bind, Option.bind_eq_some_iff,
    Bool.false_eq_true, if_false] at h
  obtain ⟨head, hhead, h⟩ := h
  obtain ⟨rest, rfl⟩ : ∃ rest, parts = head :: rest := by
    cases parts with
    | nil => cases hhead
    | cons q rest => exact ⟨rest, by rw [Option.some.inj hhead]⟩
  have hfirst : k.path.head? = some head.shape := by
    rw [← hparts]
    rfl
  cases hlookup : (ofUnits units).lookup s head.name head.arity with
  | some start =>
    rw [hlookup] at h
    obtain ⟨l, hl, hnest⟩ := Declarations.exists_of_descend h ht
    rw [ResolvedPart.key?_construct] at hl
    have hchain : k.chain.length = l.chain.length + rest.length := by simp [hnest]
    rw [List.length_cons] at hlength
    have hpos := l.length_chain_pos
    have hsegments : k.segments = [] := List.length_eq_zero_iff.mp (by omega)
    have houtermost : k.outermost = l := by
      rw [hnest, DefinitionKey.outermost_nest]
      exact DefinitionKey.outermost_of_length_chain (by omega)
    obtain ⟨names, hnames, -⟩ := k.exists_chain
    have harity : l.arity = head.arity := by
      have hhere := hfirst
      rw [DefinitionKey.path, hsegments, hnames, List.map_nil, List.nil_append, List.head?_cons,
        houtermost] at hhere
      exact (Prod.mk.inj (Option.some.inj hhere)).2
    have hstart : start = .definition l :=
      eq_definition_of_lookup (isWritten_ofUnits hunits) hs (harity ▸ hlookup) hl
    refine ⟨hk, fun n hn u hu => ?_, fun hspace => ?_⟩
    · rw [hfirst] at hn
      obtain rfl := Option.some.inj hn
      have hu : start = u := Option.some.inj (hlookup.symm.trans hu)
      exact ⟨DefinitionKey.segments_eq_nil.mp hsegments, by rw [← hu, hstart, houtermost]⟩
    · exact absurd (DefinitionKey.segments_eq_nil.mp hsegments) hspace
  | none =>
    rw [hlookup] at h
    obtain ⟨⟨l, i⟩, hl, h⟩ := Option.bind_eq_some_iff.mp h
    obtain ⟨part, -, h⟩ := Option.bind_eq_some_iff.mp h
    obtain ⟨hpos, hi, hbegin, hlonger⟩ := Declarations.longestQualified_eq_some.mp hl
    obtain ⟨l', hl', hnest⟩ := Declarations.exists_of_descend h ht
    rw [DefinitionKey.key?_construct] at hl'
    obtain rfl := Option.some.inj hl'
    obtain ⟨-, space, -, n, a, htop⟩ := Declarations.exists_of_inBeginning? hbegin
    have hchain : k.chain.length = 1 + (rest.length - i) := by
      rw [hnest, DefinitionKey.chain_nest, htop]
      simp [DefinitionKey.chain, Nat.add_comm]
    have hsegments : k.segments.length = i := by
      rw [List.length_cons] at hlength hi
      omega
    have houtermost : k.outermost = l := by
      rw [hnest, DefinitionKey.outermost_nest, htop]
      rfl
    rw [hparts] at hbegin hlonger
    refine ⟨hk, fun n hn u hu => ?_, fun hspace count hcount hle m hm => ?_⟩
    · rw [hfirst] at hn
      obtain rfl := Option.some.inj hn
      cases hlookup.symm.trans hu
    · rcases Nat.eq_or_lt_of_le (hsegments ▸ hle) with rfl | hlt
      · rw [hbegin] at hm
        rw [houtermost, Option.some.inj hm]
      · rw [hlonger count hlt (by rwa [← hparts, List.length_map] at hcount)] at hm
        cases hm

end Environment

end Facade
