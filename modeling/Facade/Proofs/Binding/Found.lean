import Facade.Proofs.Binding.Declared
import Facade.Proofs.Binding.WrittenModel

/-!
# What dotted names lead to

A dotted name begins with a simple name if that means anything, and otherwise with a namespace. From
there it goes inwards, from type to nested type.

* `DefinitionKey.path`: the parts of the qualified name of a type;
* `Declarations.found?`: what a dotted name leads to, if anything;
* `Declarations.inBeginning?`, **`Declarations.longestQualified_eq_some`**: the namespaces at its
  beginning;
* `Declarations.exists_of_descend`, **`Declarations.descend_construct`**: the way inwards;
* `Declarations.typeWithin?_eq`, **`Declarations.found?_eq_of_longestQualified`**: a name that leads from
  a namespace to a type;
* `Declarations.Knows`, `Environment.exists_of_lookup`: names lead to declared types.
-/

namespace Facade

/-! ## Qualified names -/

/-- The names of the namespace of a type; the global namespace has none. -/
def DefinitionKey.segments (k : DefinitionKey) : List String :=
  match k.space with
  | none => []
  | some s => Text.split '.' s

/-- The parts of the qualified name of a type, with the numbers of their type arguments. -/
def DefinitionKey.path (k : DefinitionKey) : List (String × Nat) :=
  k.segments.map (fun n => (n, 0)) ++ k.chain

/-- A part of a name with the number of its type arguments. -/
def ResolvedPart.shape (q : ResolvedPart) : String × Nat := (q.name, q.arity)

/-- The namespaces around a site, the innermost first. -/
def Scope.spaces (s : Scope) : List (Option String) := s.levels.flatMap fun l => l.plain.spaces

theorem DefinitionKey.segments_eq_nil {k : DefinitionKey} : k.segments = [] ↔ k.space = none := by
  unfold segments
  split
  · next h => simp [h]
  · next h => simp [h, Text.split_ne_nil]

@[simp] theorem DefinitionKey.key?_construct (k : DefinitionKey) (as : List TypeSymbol) :
    (k.construct as).key? = some k := by
  unfold construct
  split_ifs <;> rfl

@[simp] theorem ResolvedPart.key?_construct (q : ResolvedPart) (t : TypeSymbol) :
    (q.construct t).key? = t.key? := by
  unfold construct
  split
  · exact DefinitionKey.key?_construct _ _
  · rfl

@[simp] theorem key?_unresolvedName (isGlobal : Bool) (parts : List ResolvedPart) :
    (unresolvedName isGlobal parts).key? = none := by
  unfold unresolvedName
  split <;> rfl

theorem DefinitionKey.exists_parts {k : DefinitionKey} {parts : List ResolvedPart}
    (hparts : parts.map ResolvedPart.shape = k.path) : ∃ before part after,
      parts = before ++ part :: after ∧
        before.map ResolvedPart.shape = k.segments.map (fun n => (n, 0)) ∧
        (part :: after).map ResolvedPart.shape = k.chain := by
  obtain ⟨before, rest, rfl, hbefore, hrest⟩ := List.map_eq_append_iff.mp hparts
  obtain ⟨inner, hchain, -⟩ := k.exists_chain
  obtain ⟨part, after, rfl, -, -⟩ := List.map_eq_cons_iff.mp (hrest.trans hchain)
  exact ⟨before, part, after, rfl, hbefore, hrest⟩

namespace Declarations

variable (d : Declarations)

/-! ## Namespaces at the beginning of a name -/

/-- The type that a name leads to if its first `count` parts name a namespace within `space`. -/
def typeWithin? (names : List (String × Nat)) (count : Nat) (space : Option String) :
    Option DefinitionKey := do
  let last ← names[count]?
  let full := qualify space (".".intercalate ((names.take count).map Prod.fst))
  if ((names.take count).any fun n => n.2 != 0) = false ∧ full ∈ d.spaces then
    d.type? (.topLevel (some full) last.1 last.2)
  else none

/-- The type that a name leads to if its first `count` parts name a namespace within one of `spaces`:
the first of them where it leads to any. -/
def inBeginning? (spaces : List (Option String)) (names : List (String × Nat)) (count : Nat) :
    Option DefinitionKey :=
  spaces.findSome? (d.typeWithin? names count)

/-- What a dotted name leads to. -/
def found? (simple : String → Nat → Option TypeSymbol) (spaces : List (Option String))
    (isGlobal : Bool) (parts : List ResolvedPart) : Option TypeSymbol := do
  let head ← parts.head?
  let start := if isGlobal
    then (d.type? (.topLevel none head.name head.arity)).map TypeSymbol.definition
    else simple head.name head.arity
  match start with
  | some t => d.descend (head.construct t) parts.tail
  | none =>
    let (k, i) ← d.longestQualified (if isGlobal then [none] else spaces) parts
    let part ← parts[i]?
    d.descend (k.construct part.arguments) (parts.drop (i + 1))

theorem resolveName_eq (simple : String → Nat → Option TypeSymbol) (spaces : List (Option String))
    (isGlobal : Bool) (parts : List ResolvedPart) : d.resolveName simple spaces isGlobal parts =
      (d.found? simple spaces isGlobal parts).getD (unresolvedName isGlobal parts) := rfl

variable {d}

theorem exists_of_inBeginning? {spaces : List (Option String)} {names : List (String × Nat)}
    {count : Nat} {k : DefinitionKey} (h : d.inBeginning? spaces names count = some k) :
    k ∈ d.keys ∧ ∃ space ∈ spaces, ∃ n a,
      k = .topLevel (some (qualify space (".".intercalate ((names.take count).map Prod.fst)))) n a := by
  obtain ⟨space, hspace, h⟩ := List.exists_of_findSome?_eq_some h
  obtain ⟨last, -, h⟩ := Option.bind_eq_some_iff.mp h
  dsimp only at h
  split_ifs at h
  exact ⟨mem_of_type? h, space, hspace, _, _, eq_of_type? h⟩

theorem inQualified_eq (spaces : List (Option String)) (parts : List ResolvedPart) (count : Nat) :
    d.inQualified spaces parts count =
      d.inBeginning? spaces (parts.map ResolvedPart.shape) count := by
  have hnames : ((parts.map ResolvedPart.shape).take count).map Prod.fst =
      (parts.take count).map ResolvedPart.name := by
    rw [← List.map_take, List.map_map]
    rfl
  have hany : (((parts.map ResolvedPart.shape).take count).any fun n => n.2 != 0) =
      (parts.take count).any fun p => !p.arguments.isEmpty := by
    rw [← List.map_take, List.any_map]
    congr 1
    funext p
    cases h : p.arguments <;> simp [ResolvedPart.shape, ResolvedPart.arity, h]
  unfold inQualified inBeginning?
  cases hlast : parts[count]? with
  | none =>
    have hnone : ∀ space, d.typeWithin? (parts.map ResolvedPart.shape) count space = none := by
      intro space
      simp [typeWithin?, hlast]
    rw [funext hnone, List.findSome?_eq_none_iff.mpr fun _ _ => rfl]
    simp
  | some last =>
    have htype : ∀ space, d.typeWithin? (parts.map ResolvedPart.shape) count space =
        if ((parts.take count).any fun p => !p.arguments.isEmpty) = false ∧
          qualify space (".".intercalate ((parts.take count).map ResolvedPart.name)) ∈ d.spaces
        then d.type? (.topLevel (some (qualify space
          (".".intercalate ((parts.take count).map ResolvedPart.name)))) last.name last.arity)
        else none := by
      intro space
      rw [typeWithin?, hnames, hany]
      simp [hlast, ResolvedPart.shape]
    rw [funext htype]
    cases hany' : (parts.take count).any fun p => !p.arguments.isEmpty with
    | false => simp only [hany', Bool.false_eq_true, if_false, true_and, Option.bind_eq_bind,
        Option.bind_some]
    | true =>
      simp only [hany', if_true, Bool.true_eq_false, false_and, if_false]
      exact (List.findSome?_eq_none_iff.mpr fun _ _ => rfl).symm

theorem findSome?_range_reverse {α : Type} {f : Nat → Option α} {n i : Nat} {a : α} :
    (((List.range n).reverse.map (· + 1)).findSome? fun c => (f c).map fun b => (b, c)) =
        some (a, i) ↔
      1 ≤ i ∧ i ≤ n ∧ f i = some a ∧ ∀ j, i < j → j ≤ n → f j = none := by
  induction n with
  | zero => simp; omega
  | succ n ih =>
    rw [List.range_succ, List.reverse_append, List.reverse_singleton, List.singleton_append,
      List.map_cons, List.findSome?_cons]
    cases hf : f (n + 1) with
    | none =>
      rw [Option.map_none]
      simp only [ih]
      refine and_congr_right fun hi => ⟨fun ⟨hn, ha, hj⟩ => ⟨by omega, ha, fun j hij hjn => ?_⟩,
        fun ⟨hn, ha, hj⟩ => ⟨?_, ha, fun j hij hjn => hj j hij (by omega)⟩⟩
      · obtain rfl | hlt := Nat.eq_or_lt_of_le hjn
        · exact hf
        · exact hj j hij (by omega)
      · obtain rfl | hlt := Nat.eq_or_lt_of_le hn
        · rw [hf] at ha
          cases ha
        · omega
    | some b =>
      simp only [Option.map_some, Option.some.injEq, Prod.mk.injEq]
      constructor
      · rintro ⟨rfl, rfl⟩
        exact ⟨by omega, le_refl _, hf, by omega⟩
      · rintro ⟨hi, hn, ha, hj⟩
        obtain rfl | hlt := Nat.eq_or_lt_of_le hn
        · rw [hf] at ha
          exact ⟨Option.some.inj ha, rfl⟩
        · have := hj (n + 1) hlt (le_refl _)
          rw [hf] at this
          cases this

/-- **The longest namespace at the beginning of a name.** -/
theorem longestQualified_eq_some {spaces : List (Option String)} {parts : List ResolvedPart}
    {k : DefinitionKey} {i : Nat} :
    d.longestQualified spaces parts = some (k, i) ↔
      1 ≤ i ∧ i < parts.length ∧
      d.inBeginning? spaces (parts.map ResolvedPart.shape) i = some k ∧
      ∀ j, i < j → j < parts.length →
        d.inBeginning? spaces (parts.map ResolvedPart.shape) j = none := by
  unfold longestQualified
  rw [findSome?_range_reverse]
  simp only [inQualified_eq]
  refine and_congr_right fun hi => ?_
  refine ⟨fun ⟨hn, hk, hj⟩ => ⟨by omega, hk, fun j hij hjn => hj j hij (by omega)⟩,
    fun ⟨hn, hk, hj⟩ => ⟨by omega, hk, fun j hij hjn => hj j hij (by omega)⟩⟩

/-! ## The way inwards -/

theorem step_eq {t : TypeSymbol} {k : DefinitionKey} (ht : t.key? = some k) (q : ResolvedPart) :
    d.step t q = (d.type? (k.nested q.name q.arity)).map fun n => n.construct q.arguments := by
  rw [step, ht]
  cases h : d.type? (k.nested q.name q.arity) <;> simp [h]

/-- What a name leads to within a type is nested in it by the names of its parts. -/
theorem exists_of_descend {start t : TypeSymbol} {parts : List ResolvedPart} {k : DefinitionKey}
    (h : d.descend start parts = some t) (ht : t.key? = some k) :
    ∃ k₀, start.key? = some k₀ ∧ k = k₀.nest (parts.map ResolvedPart.shape) := by
  induction parts generalizing start with
  | nil =>
    cases h
    exact ⟨k, ht, rfl⟩
  | cons q parts ih =>
    obtain ⟨u, hu, h⟩ := Option.bind_eq_some_iff.mp h
    obtain ⟨k₁, hk₁, rfl⟩ := ih h
    cases hstart : start.key? with
    | none =>
      rw [step, hstart] at hu
      cases hu
    | some k₀ =>
      rw [step_eq hstart] at hu
      obtain ⟨n, hn, rfl⟩ := Option.map_eq_some_iff.mp hu
      rw [DefinitionKey.key?_construct, eq_of_type? hn] at hk₁
      obtain rfl := Option.some.inj hk₁
      exact ⟨k₀, rfl, rfl⟩

/-- Only the type itself is no declared type where a name leads to within it. -/
theorem eq_of_descend {start t : TypeSymbol} {parts : List ResolvedPart}
    (h : d.descend start parts = some t) (ht : t.key? = none) : parts = [] ∧ t = start := by
  induction parts generalizing start with
  | nil =>
    cases h
    exact ⟨rfl, rfl⟩
  | cons q parts ih =>
    obtain ⟨u, hu, h⟩ := Option.bind_eq_some_iff.mp h
    obtain ⟨-, rfl⟩ := ih h
    cases hkey : start.key? with
    | none =>
      rw [step, hkey] at hu
      cases hu
    | some k =>
      rw [step_eq hkey] at hu
      obtain ⟨n, -, rfl⟩ := Option.map_eq_some_iff.mp hu
      rw [DefinitionKey.key?_construct] at ht
      cases ht

variable {units : List CompilationUnit}

/-- **A name leads inwards to a declared type**, with the type arguments of its last part. -/
theorem descend_construct {k : DefinitionKey} {q : ResolvedPart} {parts : List ResolvedPart}
    (h : k.nest (parts.map ResolvedPart.shape) ∈ (ofUnits units).keys) :
    (ofUnits units).descend (k.construct q.arguments) parts =
      some ((k.nest (parts.map ResolvedPart.shape)).construct
        ((q :: parts).getLast (by simp)).arguments) := by
  induction parts generalizing k q with
  | nil => rfl
  | cons r parts ih =>
    have hmem : k.nested r.name r.arity ∈ (ofUnits units).keys := mem_keys_of_nest h
    have hstep : (ofUnits units).step (k.construct q.arguments) r =
        some ((k.nested r.name r.arity).construct r.arguments) := by
      rw [step_eq (DefinitionKey.key?_construct _ _), type?, if_pos hmem]
      rfl
    rw [descend, List.foldlM_cons, hstep]
    exact ih h

/-! ## Names that lead from a namespace to a type -/

/-- **A name leads to the outermost type** if it begins with its namespace, within another one. -/
theorem typeWithin?_eq {k : DefinitionKey} (hk : k ∈ (ofUnits units).keys) {space : Option String}
    {names : List String} (hspace : k.space = some (qualify space (".".intercalate names))) :
    (ofUnits units).typeWithin? (names.map (fun n => (n, 0)) ++ k.chain) names.length space =
      some k.outermost := by
  obtain ⟨inner, hchain, -⟩ := k.exists_chain
  have htype : (ofUnits units).type? (.topLevel k.space k.outermost.name k.outermost.arity) =
      some k.outermost := by
    rw [← k.outermost_eq]
    exact if_pos (mem_keys_outermost hk)
  have hlast : (names.map (fun n => (n, 0)) ++ k.chain)[names.length]? =
      some (k.outermost.name, k.outermost.arity) := by
    rw [List.getElem?_append_right (by simp), hchain]
    simp
  have htake : (names.map (fun n => (n, 0)) ++ k.chain).take names.length =
      names.map fun n => (n, 0) := List.take_left' (by simp)
  have hnames : (names.map fun n => (n, 0)).map Prod.fst = names := by simp [Function.comp_def]
  rw [typeWithin?, hlast, htake, hnames]
  simpa [mem_spaces hk hspace, ← hspace] using htype

theorem typeWithin?_path {k : DefinitionKey} (hk : k ∈ (ofUnits units).keys) (hspace : k.space ≠ none) :
    (ofUnits units).typeWithin? k.path k.segments.length none = some k.outermost := by
  obtain ⟨space, hspace⟩ := Option.ne_none_iff_exists'.mp hspace
  refine typeWithin?_eq hk ?_
  rw [hspace, DefinitionKey.segments, hspace]
  exact congrArg some (Text.intercalate_split space).symm

theorem mem_keys_of_shape {k : DefinitionKey} (hk : k ∈ (ofUnits units).keys) (hspace : k.space = none)
    {part : ResolvedPart} {after : List ResolvedPart}
    (hshape : (part :: after).map ResolvedPart.shape = k.chain) :
    k.outermost = .topLevel none part.name part.arity ∧
      .topLevel none part.name part.arity ∈ (ofUnits units).keys := by
  obtain ⟨inner, hchain, -⟩ := k.exists_chain
  obtain ⟨hname, harity⟩ := Prod.mk.inj (List.cons.inj (hshape.trans hchain)).1
  have houtermost : k.outermost = .topLevel none part.name part.arity := by
    rw [k.outermost_eq, hspace, hname, harity]
  exact ⟨houtermost, houtermost ▸ mem_keys_outermost hk⟩

theorem descend_outermost {k : DefinitionKey} (hk : k ∈ (ofUnits units).keys) {part : ResolvedPart}
    {parts : List ResolvedPart} (hshape : (part :: parts).map ResolvedPart.shape = k.chain) :
    (ofUnits units).descend (k.outermost.construct part.arguments) parts =
      some (k.construct ((part :: parts).getLast (by simp)).arguments) := by
  obtain ⟨inner, hchain, hnest⟩ := k.exists_chain
  have hinner : parts.map ResolvedPart.shape = inner := (List.cons.inj (hshape.trans hchain)).2
  have hdescend := descend_construct (q := part) (by rwa [hinner, ← hnest] :
    k.outermost.nest (parts.map ResolvedPart.shape) ∈ (ofUnits units).keys)
  rwa [hinner, ← hnest] at hdescend

/-- **A name that means nothing at its beginning leads to the type in the longest namespace there.** -/
theorem found?_eq_of_longestQualified {simple : String → Nat → Option TypeSymbol}
    {spaces : List (Option String)} {isGlobal : Bool} {k : DefinitionKey}
    (hk : k ∈ (ofUnits units).keys) {head part : ResolvedPart} {rest after : List ResolvedPart}
    (hshape : (part :: after).map ResolvedPart.shape = k.chain)
    (hstart : (if isGlobal then
      ((ofUnits units).type? (.topLevel none head.name head.arity)).map TypeSymbol.definition
      else simple head.name head.arity) = none)
    (hlongest : (ofUnits units).longestQualified (if isGlobal then [none] else spaces)
      (head :: rest ++ part :: after) = some (k.outermost, rest.length + 1)) :
    (ofUnits units).found? simple spaces isGlobal (head :: rest ++ part :: after) =
      some (k.construct ((part :: after).getLast (by simp)).arguments) := by
  have hpart : (head :: rest ++ part :: after)[rest.length + 1]? = some part := by simp
  have hdrop : (head :: rest ++ part :: after).drop (rest.length + 1 + 1) = after := by simp
  simp only [found?, List.cons_append, List.head?_cons, Option.bind_eq_bind, Option.bind_some, hstart]
  rw [List.cons_append] at hlongest hpart hdrop
  rw [hlongest, Option.bind_some, hpart, Option.bind_some, hdrop, descend_outermost hk hshape]

end Declarations

/-! ## Declared types -/

namespace Declarations

variable {d : Declarations}

/-- If the symbol is a declared type, it is one of the program's. -/
def Knows (d : Declarations) (t : TypeSymbol) : Prop := ∀ k ∈ t.key?, k ∈ d.keys

theorem permits_knows (d : Declarations) : d.Permits d.Knows where
  special _ _ h := nomatch h
  unresolved _ _ _ _ h := nomatch h
  array _ _ _ _ h := nomatch h
  nullable _ _ h := nomatch h
  pointer _ _ h := nomatch h
  tuple _ _ h := nomatch h
  construct hk _ _ l hl := by
    rw [DefinitionKey.key?_construct] at hl
    exact Option.some.inj hl ▸ hk

end Declarations

namespace Environment

variable {e : Environment} {s : Scope}

/-- What a simple name can mean. Only a declared type is named with type arguments. -/
theorem exists_of_lookup {n : String} {a : Nat} {t : TypeSymbol} (h : e.lookup s n a = some t) :
    (∃ k l, e.declarations.type? k = some l ∧ t = .definition l) ∨
      a = 0 ∧ ((∃ q, t = .parameter q) ∨ ∃ x, t = e.declarations.resolveAlias x) := by
  have hparameter : ∀ {ps}, parameterNamed? ps n a = some t → a = 0 ∧ ∃ q, t = .parameter q := by
    intro ps h
    unfold parameterNamed? at h
    split_ifs at h with ha
    obtain ⟨q, -, rfl⟩ := Option.map_eq_some_iff.mp h
    exact ⟨ha, q, rfl⟩
  have hspaces : ∀ {spaces}, (e.declarations.inSpaces spaces n a).map TypeSymbol.definition = some t →
      ∃ k l, e.declarations.type? k = some l ∧ t = .definition l := by
    intro spaces h
    obtain ⟨l, hl, rfl⟩ := Option.map_eq_some_iff.mp h
    obtain ⟨space, -, hspace⟩ := List.exists_of_findSome?_eq_some hl
    exact ⟨_, l, hspace, rfl⟩
  unfold lookup at h
  rw [Option.orElse_eq_some, Option.orElse_eq_some] at h
  rcases h with h | ⟨-, h | ⟨-, h⟩⟩
  · exact Or.inr ((hparameter h).imp_right Or.inl)
  · obtain ⟨k, -, h⟩ := List.exists_of_findSome?_eq_some h
    unfold lookupContaining at h
    rw [Option.orElse_eq_some] at h
    rcases h with h | ⟨-, h⟩
    · exact Or.inr ((hparameter h).imp_right Or.inl)
    · obtain ⟨l, hl, rfl⟩ := Option.map_eq_some_iff.mp h
      exact Or.inl ⟨_, l, hl, rfl⟩
  · obtain ⟨l, -, h⟩ := List.exists_of_findSome?_eq_some h
    unfold Declarations.lookupLevel at h
    rw [Option.orElse_eq_some, Option.orElse_eq_some] at h
    rcases h with h | ⟨-, h | ⟨-, h⟩⟩
    · exact Or.inl (hspaces h)
    · split_ifs at h with ha
      obtain ⟨x, -, rfl⟩ := Option.map_eq_some_iff.mp h
      exact Or.inr ⟨ha, Or.inr ⟨x, rfl⟩⟩
    · exact Or.inl (hspaces h)

/-- A name that leads to no declared type has one part, without type arguments. -/
theorem exists_of_found? {spaces : List (Option String)} {isGlobal : Bool}
    {parts : List ResolvedPart} {t : TypeSymbol}
    (h : e.declarations.found? (e.lookup s) spaces isGlobal parts = some t) (ht : t.key? = none) :
    ∃ q, parts = [q] ∧ q.arguments = [] := by
  simp only [Declarations.found?, Option.bind_eq_bind, Option.bind_eq_some_iff] at h
  obtain ⟨head, hhead, h⟩ := h
  obtain ⟨rest, rfl⟩ : ∃ rest, parts = head :: rest := by
    cases parts with
    | nil => cases hhead
    | cons q rest => exact ⟨rest, by rw [Option.some.inj hhead]⟩
  split at h
  · next start hstart =>
    obtain ⟨hrest, rfl⟩ := Declarations.eq_of_descend h ht
    rw [ResolvedPart.key?_construct] at ht
    obtain rfl : rest = [] := hrest
    refine ⟨head, rfl, ?_⟩
    split_ifs at hstart
    · obtain ⟨k, -, rfl⟩ := Option.map_eq_some_iff.mp hstart
      cases ht
    · rcases exists_of_lookup hstart with ⟨-, l, -, rfl⟩ | ⟨harity, -⟩
      · cases ht
      · exact List.length_eq_zero_iff.mp harity
  · obtain ⟨⟨k, i⟩, -, h⟩ := Option.bind_eq_some_iff.mp h
    obtain ⟨part, -, h⟩ := Option.bind_eq_some_iff.mp h
    obtain ⟨-, rfl⟩ := Declarations.eq_of_descend h ht
    rw [DefinitionKey.key?_construct] at ht
    cases ht

end Environment

end Facade
