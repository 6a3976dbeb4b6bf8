import Facade.Proofs.Binding.OuterArguments
import Facade.Proofs.Binding.Unfolding
import Facade.Proofs.Syntax.Characters

/-!
# The nearest meaning of a dotted name

The namespaces around a place are searched for the beginning of a dotted name only after all of them
have been searched for a type that is called like its first part, and then for its longest beginning
first. So the nearest namespace that leads to a type wins where nothing further out offers either.

* `Declarations.mem_spaces_of_append`: the namespaces around a known one are known;
* `Scope.NearestSpace`: the nearest namespace that has one of some name nested in it;
* `Scope.NearestSpace.Unhidden`, `Scope.NearestSpace.furtherOut?`: what that name means nearer, and
  further out;
* **`Environment.resolve_nearest_iff`**: when the nearest namespace gives a name its meaning;
* `resolve_nearest_beside_import`: a type that an import of a nearer level does not hide;
* `not_resolve_nearest`: a type further out, and a longer namespace further out, come first.
-/

namespace Facade

/-! ## Known namespaces -/

theorem qualify_append_dot (space : Option String) (a b : String) :
    qualify space (a ++ "." ++ b) = qualify space a ++ "." ++ b := by
  unfold qualify
  split
  · split_ifs
    · rfl
    · simp only [String.append_assoc]
  · rfl

theorem eq_or_append_of_mem_dottedPrefixes {n full : String} (h : n ∈ dottedPrefixes full) :
    full = n ∨ ∃ rest, full = n ++ "." ++ rest := by
  obtain ⟨i, -, rfl⟩ := List.mem_map.mp h
  have hfull := Text.intercalate_split full
  rw [← List.take_append_drop (i + 1) (Text.split '.' full)] at hfull
  have htake : (Text.split '.' full).take (i + 1) ≠ [] := by simp [Text.split_ne_nil]
  by_cases hdrop : (Text.split '.' full).drop (i + 1) = []
  · left
    rw [hdrop, List.append_nil] at hfull
    exact hfull.symm
  · right
    rw [String.intercalate_append_of_ne_nil htake hdrop] at hfull
    exact ⟨_, hfull.symm⟩

theorem mem_dottedPrefixes_of_append {a b full : String} (h : a ++ "." ++ b ∈ dottedPrefixes full) :
    a ∈ dottedPrefixes full := by
  obtain ⟨rest, rfl⟩ : ∃ rest, full = a ++ "." ++ rest := by
    rcases eq_or_append_of_mem_dottedPrefixes h with rfl | ⟨rest, rfl⟩
    · exact ⟨b, rfl⟩
    · exact ⟨b ++ "." ++ rest, by simp only [String.append_assoc]⟩
  rw [dottedPrefixes_append]
  exact List.mem_append_left _ (mem_dottedPrefixes a)

mutual

/-- Namespaces are declared with all beginnings of their names. -/
theorem NamespaceMember.mem_spaces_of_append {a b : String} : (m : NamespaceMember) →
    (around : Option String) → a ++ "." ++ b ∈ m.spaces around → a ∈ m.spaces around
  | .space head members, around, h => by
    rw [NamespaceMember.spaces] at h ⊢
    rcases List.mem_append.mp h with h | h
    · exact List.mem_append_left _ (mem_dottedPrefixes_of_append h)
    · exact List.mem_append_right _ (NamespaceMember.mem_spacesAll_of_append members _ h)
  | .type _, _, h => absurd h List.not_mem_nil

theorem NamespaceMember.mem_spacesAll_of_append {a b : String} : (ms : List NamespaceMember) →
    (around : Option String) → a ++ "." ++ b ∈ NamespaceMember.spacesAll around ms →
      a ∈ NamespaceMember.spacesAll around ms
  | [], _, h => absurd h List.not_mem_nil
  | m :: ms, around, h => by
    rw [NamespaceMember.spacesAll] at h ⊢
    rcases List.mem_append.mp h with h | h
    · exact List.mem_append_left _ (NamespaceMember.mem_spaces_of_append m around h)
    · exact List.mem_append_right _ (NamespaceMember.mem_spacesAll_of_append ms around h)

end

namespace Declarations

variable {units : List CompilationUnit}

/-- **The namespaces around a known one are known.** -/
theorem mem_spaces_of_append {a b : String} (h : a ++ "." ++ b ∈ (ofUnits units).spaces) :
    a ∈ (ofUnits units).spaces := by
  obtain ⟨u, hu, h⟩ := List.mem_flatMap.mp (List.mem_eraseDups.mp h)
  exact List.mem_eraseDups.mpr (List.mem_flatMap.mpr
    ⟨u, hu, NamespaceMember.mem_spacesAll_of_append u.members none h⟩)

theorem mem_spaces_of_intercalate {space : Option String} {first : String} {names : List String}
    (h : qualify space (".".intercalate (first :: names)) ∈ (ofUnits units).spaces) :
    qualify space first ∈ (ofUnits units).spaces := by
  cases names with
  | nil => simpa using h
  | cons n names =>
    rw [String.intercalate_cons_cons, qualify_append_dot] at h
    exact mem_spaces_of_append h

/-! ## Names that begin with a namespace -/

/-- **A name with more parts than its type has in its chain begins with a namespace**, the longest there
is, and its first part means nothing as a simple name. -/
theorem longestQualified_of_found? {d : Declarations} {simple : String → Nat → Option TypeSymbol}
    {spaces : List (Option String)} {head : ResolvedPart} {rest : List ResolvedPart} {t : TypeSymbol}
    {k : DefinitionKey} (h : d.found? simple spaces false (head :: rest) = some t)
    (ht : t.key? = some k) (hlonger : k.chain.length ≤ rest.length) :
    simple head.name head.arity = none ∧ ∃ l i,
      d.longestQualified spaces (head :: rest) = some (l, i) ∧
        i + k.chain.length = rest.length + 1 := by
  simp only [found?, List.head?_cons, Option.bind_eq_bind, Option.bind_some, Bool.false_eq_true,
    if_false] at h
  cases hsimple : simple head.name head.arity with
  | some start =>
    rw [hsimple] at h
    obtain ⟨l, -, hnest⟩ := exists_of_descend h ht
    have hchain : k.chain.length = l.chain.length + rest.length := by simp [hnest]
    have hpos := l.length_chain_pos
    omega
  | none =>
    rw [hsimple] at h
    obtain ⟨⟨l, i⟩, hl, h⟩ := Option.bind_eq_some_iff.mp h
    obtain ⟨part, -, h⟩ := Option.bind_eq_some_iff.mp h
    obtain ⟨-, hi, hbegin, -⟩ := longestQualified_eq_some.mp hl
    obtain ⟨l', hl', hnest⟩ := exists_of_descend h ht
    rw [DefinitionKey.key?_construct] at hl'
    obtain rfl := Option.some.inj hl'
    obtain ⟨-, space, -, n, a, htop⟩ := exists_of_inBeginning? hbegin
    have hchain : k.chain.length = 1 + (rest.length - i) := by
      rw [hnest, DefinitionKey.chain_nest, htop]
      simp [DefinitionKey.chain, Nat.add_comm]
    rw [List.length_cons] at hi
    exact ⟨rfl, l, i, hl, by omega⟩

end Declarations

/-! ## The nearest namespace -/

/-- **The nearest namespace around a place that has a namespace of some name nested in it**: `space`, at
`level`; with what is nearer, the levels `nearer` and the namespaces `before` of this level, and what is
further out, the namespaces `after` of this level and the levels `further`. -/
structure Scope.NearestSpace (d : Declarations) (s : Scope) (name : String) where
  nearer : List Level
  level : Level
  further : List Level
  before : List (Option String)
  space : Option String
  after : List (Option String)
  levels_eq : s.levels = nearer ++ level :: further
  spaces_eq : level.plain.spaces = before ++ space :: after
  known : qualify space name ∈ d.spaces
  first : ∀ n ∈ (nearer.flatMap fun l => l.plain.spaces) ++ before, qualify n name ∉ d.spaces

namespace Scope.NearestSpace

variable {e : Environment} {s : Scope} {name : String}

/-- The nearest namespace and those further out. -/
def outwards (w : s.NearestSpace e.declarations name) : List (Option String) :=
  w.space :: w.after ++ w.further.flatMap fun l => l.plain.spaces

/-- Nothing nearer is called by the name: no type parameter, no nested type of an enclosing type,
nothing at a nearer level, and no type of the nearest namespace or of one before it at its level. -/
structure Unhidden (w : s.NearestSpace e.declarations name) : Prop where
  parameter : parameterNamed? s.methodParameters name 0 = none
  containing : s.containing.findSome? (e.lookupContaining name 0) = none
  nearer : (w.nearer.findSome? fun l => e.declarations.lookupLevel l name 0) = none
  type : e.declarations.declared? (w.before ++ [w.space]) name 0 = none

/-- What the name means further out: a type of a namespace after the nearest one, what the using
directives of its level say, or the meaning at a level further out. -/
def furtherOut? (w : s.NearestSpace e.declarations name) : Option TypeSymbol :=
  e.declarations.declared? w.after name 0 <|> e.declarations.directed? w.level name 0 <|>
    w.further.findSome? fun l => e.declarations.lookupLevel l name 0

variable {w : s.NearestSpace e.declarations name}

theorem spaces_eq_append :
    s.spaces = ((w.nearer.flatMap fun l => l.plain.spaces) ++ w.before) ++ w.outwards := by
  rw [Scope.spaces, w.levels_eq, List.flatMap_append, List.flatMap_cons, w.spaces_eq, outwards]
  simp only [List.append_assoc, List.cons_append]

instance : Decidable w.Unhidden :=
  decidable_of_iff (parameterNamed? s.methodParameters name 0 = none ∧
      s.containing.findSome? (e.lookupContaining name 0) = none ∧
      (w.nearer.findSome? fun l => e.declarations.lookupLevel l name 0) = none ∧
      e.declarations.declared? (w.before ++ [w.space]) name 0 = none)
    ⟨fun h => ⟨h.1, h.2.1, h.2.2.1, h.2.2.2⟩, fun h => ⟨h.parameter, h.containing, h.nearer, h.type⟩⟩

/-- The nearest namespace, if it is the one at this place of the level of this number. -/
def at? (d : Declarations) (s : Scope) (name : String) (i j : Nat) : Option (s.NearestSpace d name) :=
  match hlevels : s.levels.drop i with
  | [] => none
  | level :: further =>
    match hspaces : level.plain.spaces.drop j with
    | [] => none
    | space :: after =>
      let before := level.plain.spaces.take j
      let nearer := s.levels.take i
      if h : qualify space name ∈ d.spaces ∧
          ∀ n ∈ (nearer.flatMap fun l => l.plain.spaces) ++ before, qualify n name ∉ d.spaces then
        some {
          nearer, level, further, before, space, after
          levels_eq := by rw [← hlevels, List.take_append_drop]
          spaces_eq := by rw [← hspaces, List.take_append_drop]
          known := h.1
          first := h.2 }
      else none

/-- **Where nothing nearer is called by a name, it means what it means further out.** -/
theorem lookup_eq (hw : w.Unhidden) : e.lookup s name 0 = w.furtherOut? := by
  have hspaces : e.declarations.declared? w.level.plain.spaces name 0 =
      e.declarations.declared? w.after name 0 := by
    rw [w.spaces_eq, ← List.singleton_append, ← List.append_assoc, Declarations.declared?_append,
      hw.type]
    rfl
  rw [Environment.lookup, hw.parameter, hw.containing, w.levels_eq, List.findSome?_append, hw.nearer,
    Option.none_or, Declarations.lookupLevel_cons, hspaces, furtherOut?]
  rfl

end Scope.NearestSpace

namespace Environment

variable {units : List CompilationUnit} {s : Scope} {first : String}
  {w : s.NearestSpace (ofUnits units).declarations first} {k : DefinitionKey}

/-- No nearer namespace leads anywhere, however long the beginning of the name is. -/
theorem inBeginning?_nearest {names : List (String × Nat)} {arity : Nat}
    (hnames : names.head? = some (first, arity)) {count : Nat} (hcount : 0 < count) :
    (ofUnits units).declarations.inBeginning? s.spaces names count =
      (ofUnits units).declarations.inBeginning? w.outwards names count := by
  have hnear : ∀ n ∈ (w.nearer.flatMap fun l => l.plain.spaces) ++ w.before,
      (ofUnits units).declarations.typeWithin? names count n = none := by
    intro n hn
    by_contra hne
    obtain ⟨l, hl⟩ := Option.ne_none_iff_exists'.mp hne
    obtain ⟨last, -, hl⟩ := Option.bind_eq_some_iff.mp hl
    dsimp only at hl
    split_ifs at hl with hknown
    obtain ⟨more, rfl⟩ : ∃ more, names = (first, arity) :: more := by
      cases names with
      | nil => cases hnames
      | cons n more => exact ⟨more, by rw [Option.some.inj hnames]⟩
    obtain ⟨count, rfl⟩ := Nat.exists_eq_succ_of_ne_zero hcount.ne'
    rw [List.take_succ_cons, List.map_cons] at hknown
    exact w.first n hn (Declarations.mem_spaces_of_intercalate hknown.2)
  rw [Declarations.inBeginning?, w.spaces_eq_append, List.findSome?_append,
    List.findSome?_eq_none_iff.mpr hnear, Option.none_or]
  rfl

theorem arguments_getLast_of_resolveAll {named : Bool → List ResolvedPart → TypeSymbol}
    {outer : List NamePart} {last : NamePart} {before after : List ResolvedPart} {part : ResolvedPart}
    (h : NamePart.resolveAll named (outer ++ [last]) = before ++ part :: after) :
    ((part :: after).getLast (by simp)).arguments =
      last.arguments.map (TypeSyntax.resolveWith named) := by
  have hlast := congrArg List.getLast? h
  rw [resolveParts_eq_map, List.map_append, List.map_singleton, List.getLast?_concat,
    List.getLast?_append_of_ne_nil _ (by simp), List.getLast?_eq_some_getLast (by simp),
    Option.some.injEq] at hlast
  rw [← hlast]

section

variable (hw : w.Unhidden) (hk : k ∈ (ofUnits units).declarations.keys) {segments : List String}
  (hspace : k.space = some (qualify w.space (".".intercalate (first :: segments))))
  {outer : List NamePart} {last : NamePart}
  (hparts : (outer ++ [last]).map NamePart.shape =
    (first :: segments).map (fun n => (n, 0)) ++ k.chain)

include hparts in
theorem exists_parts_nearest : ∃ head rest part after,
    NamePart.resolveAll ((ofUnits units).named s) (outer ++ [last]) = head :: rest ++ part :: after ∧
      head.name = first ∧ head.arity = 0 ∧ rest.length = segments.length ∧
      (part :: after).map ResolvedPart.shape = k.chain ∧
      ∀ count, 0 < count → (ofUnits units).declarations.inBeginning? s.spaces
        ((head :: rest ++ part :: after).map ResolvedPart.shape) count =
          (ofUnits units).declarations.inBeginning? w.outwards
            ((outer ++ [last]).map NamePart.shape) count := by
  have hshape := shape_resolveAll ((ofUnits units).named s) (outer ++ [last])
  obtain ⟨before, inner, hresolved, hbefore, hinner⟩ :=
    List.map_eq_append_iff.mp (hshape.trans hparts)
  obtain ⟨head, rest, rfl, hhead, hrest⟩ := List.map_eq_cons_iff.mp hbefore
  obtain ⟨names, hchain, -⟩ := k.exists_chain
  obtain ⟨part, after, rfl, -, -⟩ := List.map_eq_cons_iff.mp (hinner.trans hchain)
  obtain ⟨hname, harity⟩ : head.name = first ∧ head.arity = 0 := Prod.mk.inj hhead
  refine ⟨head, rest, part, after, hresolved, hname, harity, ?_, hinner, fun count hcount => ?_⟩
  · simpa using congrArg List.length hrest
  · rw [← hresolved, hshape]
    exact inBeginning?_nearest (by rw [hparts]; rfl) hcount

include hw hk hspace hparts

/-- **The nearest meaning of a dotted name** that leads from the nearest namespace to a type, where
nothing nearer is called by its first part. The name means that type exactly if its first part means
nothing further out either, and no longer beginning of it leads to a type, from the nearest namespace or
from one further out. -/
theorem resolve_nearest_iff :
    (ofUnits units).resolve s (.named false (outer ++ [last])) =
        k.construct (last.arguments.map ((ofUnits units).resolve s)) ↔
      w.furtherOut? = none ∧ ∀ count, segments.length + 1 < count → count ≤ outer.length →
        (ofUnits units).declarations.inBeginning? w.outwards
          ((outer ++ [last]).map NamePart.shape) count = none := by
  obtain ⟨head, rest, part, after, hresolved, hname, harity, hrest, hshape, hbegin⟩ :=
    exists_parts_nearest (s := s) (w := w) hparts
  have hchain : (part :: after).length = k.chain.length := by rw [← hshape, List.length_map]
  have hlength : outer.length = segments.length + k.chain.length := by
    have := congrArg List.length hparts
    simp only [List.length_map, List.length_append, List.length_cons, List.length_nil] at this
    omega
  constructor
  · intro h
    have hkey : ((ofUnits units).resolve s (.named false (outer ++ [last]))).key? = some k := by
      rw [h, DefinitionKey.key?_construct]
    have hleads := leadsTo?_of_resolve hkey
    rw [leadsTo?, hresolved, List.cons_append] at hleads
    obtain ⟨hsimple, l, i, hlongest, hi⟩ := Declarations.longestQualified_of_found? hleads hkey
      (by rw [List.length_append, hchain]; omega)
    obtain ⟨-, -, -, hlonger⟩ := Declarations.longestQualified_eq_some.mp hlongest
    rw [List.length_append, hchain, hrest] at hi
    rw [hname, harity, Scope.NearestSpace.lookup_eq hw] at hsimple
    refine ⟨hsimple, fun count hcount hle => ?_⟩
    rw [← hbegin count (by omega)]
    refine hlonger count (by omega) ?_
    rw [List.length_cons, List.length_append, hchain, hrest]
    omega
  · rintro ⟨hfurther, hlonger⟩
    have hlookup : (ofUnits units).lookup s head.name head.arity = none := by
      rw [hname, harity, Scope.NearestSpace.lookup_eq hw, hfurther]
    have hlongest : (ofUnits units).declarations.longestQualified s.spaces
        (head :: rest ++ part :: after) = some (k.outermost, rest.length + 1) := by
      refine Declarations.longestQualified_eq_some.mpr ⟨by omega, by simp, ?_, fun count hcount hlt => ?_⟩
      · have hwithin : (ofUnits units).declarations.typeWithin?
            ((outer ++ [last]).map NamePart.shape) (rest.length + 1) w.space = some k.outermost := by
          rw [hparts, hrest]
          exact Declarations.typeWithin?_eq hk hspace
        rw [hbegin _ (by omega), Declarations.inBeginning?, Scope.NearestSpace.outwards,
          List.cons_append, List.findSome?_cons, hwithin]
      · rw [hbegin _ (by omega)]
        refine hlonger count (by omega) ?_
        rw [List.cons_append, List.length_cons, List.length_append, hchain, hrest] at hlt
        omega
    have hfound : (ofUnits units).declarations.found? ((ofUnits units).lookup s) s.spaces false
        (head :: rest ++ part :: after) =
          some (k.construct ((part :: after).getLast (by simp)).arguments) :=
      Declarations.found?_eq_of_longestQualified hk hshape hlookup hlongest
    rw [arguments_getLast_of_resolveAll hresolved] at hfound
    rw [resolve_named, leadsTo?, hresolved]
    exact congrArg (Option.getD · _) hfound

end

end Environment

section Example

/-- A class in `N.M`, which imports `Lib`, and a namespace `A.B` in `N` with a generic type nested in
another one. -/
def nearestSource : String :=
  "namespace N \x7b namespace M \x7b using Lib; class C \x7b \x7d \x7d " ++
    "namespace A.B \x7b class Outer<T> \x7b class Inner<S> \x7b \x7d \x7d \x7d \x7d " ++
    "namespace Lib \x7b class B \x7b \x7d \x7d namespace A \x7b class Outer \x7b \x7d \x7d"

/-- The inner one of these types. -/
def innerKey : DefinitionKey := .nested (.topLevel (some "N.A.B") "Outer" 1) "Inner" 1

/-- **The name `A.B.Outer<C>.Inner<C>` within `N.M`** means the type in `N.A.B`. -/
theorem resolve_nearest_beside_import : ∃ u d,
    d ∈ (Declarations.ofUnits [u]).declared ∧
      (Model.ofUnits [u]).resolveAt d.site (.named false
          ([.mk "A" [], .mk "B" [], outerPart "C"] ++ [.mk "Inner" [plainName "C"]])) =
        .constructed innerKey [.definition (.topLevel (some "N.M") "C" 0)] := by
  have hprogram : (firstDeclared? nearestSource).any
      (fun (x : CompilationUnit × Declared) =>
        let e := Environment.ofUnits [x.1]
        let s := e.declarations.scopeAt x.2.site
        (Scope.NearestSpace.at? e.declarations s "A" 1 0).any fun w => decide (w.Unhidden ∧
          innerKey ∈ e.declarations.keys ∧
          innerKey.space = some (qualify w.space (".".intercalate ["A", "B"])) ∧
          w.furtherOut? = none ∧
          (∀ count ∈ List.range 4, 2 < count → e.declarations.inBeginning? w.outwards
            [("A", 0), ("B", 0), ("Outer", 1), ("Inner", 1)] count = none) ∧
          e.resolve s (plainName "C") = .definition (.topLevel (some "N.M") "C" 0))) = true := by
    refine CompilationUnit.any_of_ofCharacters (toList_append_eq
      (toList_append_eq String.toList_ofList String.toList_ofList) String.toList_ofList) ?_
    decide +kernel
  obtain ⟨⟨u, d⟩, hx, hfacts⟩ := (Option.any_eq_true _ _).mp hprogram
  obtain ⟨w, -, hfacts⟩ := (Option.any_eq_true _ _).mp hfacts
  obtain ⟨hw, hk, hspace, hfurther, hlonger, hC⟩ := of_decide_eq_true hfacts
  have hparts : ([NamePart.mk "A" [], .mk "B" [], outerPart "C"] ++
      [NamePart.mk "Inner" [plainName "C"]]).map NamePart.shape =
        ["A", "B"].map (fun n => (n, 0)) ++ innerKey.chain := rfl
  have hmeans := (Environment.resolve_nearest_iff hw hk hspace hparts).mpr
    ⟨hfurther, fun count hcount hle =>
      hlonger count (List.mem_range.mpr (Nat.lt_succ_of_le hle)) hcount⟩
  refine ⟨u, d, (of_firstDeclared hx).2, ?_⟩
  rw [← hC]
  exact hmeans

/-- Two names at `N.C`: `A.T` begins with a namespace in `N` and with a class further out, and `B.D.T`
leads to a nested type in `N.B`, and to a type in the longer namespace `B.D` further out. -/
def crossedSource : String :=
  "namespace N \x7b class C \x7b \x7d namespace A \x7b class T \x7b \x7d \x7d " ++
    "namespace B \x7b class D \x7b class T \x7b \x7d \x7d \x7d \x7d " ++
    "class A \x7b \x7d namespace B.D \x7b class T \x7b \x7d \x7d"

/-- **A class further out, and a longer namespace further out, come before the nearest meaning.** -/
theorem not_resolve_nearest : ∃ u d, firstDeclared? crossedSource = some (u, d) ∧
    let e := Environment.ofUnits [u]
    let s := e.declarations.scopeAt d.site
    (∃ (w : s.NearestSpace e.declarations "A") (k : DefinitionKey),
      w.Unhidden ∧ k ∈ e.declarations.keys ∧
        k.space = some (qualify w.space "A") ∧ k.chain = [("T", 0)] ∧
        e.resolve s (.named false [.mk "A" [], .mk "T" []]) ≠ .definition k) ∧
    ∃ (w : s.NearestSpace e.declarations "B") (k : DefinitionKey),
      w.Unhidden ∧ k ∈ e.declarations.keys ∧
        k.space = some (qualify w.space "B") ∧ k.chain = [("D", 0), ("T", 0)] ∧
        e.resolve s (.named false [.mk "B" [], .mk "D" [], .mk "T" []]) ≠ .definition k := by
  have hprogram : (firstDeclared? crossedSource).any
      (fun (x : CompilationUnit × Declared) =>
        let e := Environment.ofUnits [x.1]
        let s := e.declarations.scopeAt x.2.site
        ((Scope.NearestSpace.at? e.declarations s "A" 0 0).any fun w =>
          let k := DefinitionKey.topLevel (some "N.A") "T" 0
          decide (w.Unhidden ∧ k ∈ e.declarations.keys ∧ k.space = some (qualify w.space "A") ∧
            k.chain = [("T", 0)] ∧
            e.resolve s (.named false [.mk "A" [], .mk "T" []]) ≠ .definition k)) &&
        ((Scope.NearestSpace.at? e.declarations s "B" 0 0).any fun w =>
          let k := DefinitionKey.nested (.topLevel (some "N.B") "D" 0) "T" 0
          decide (w.Unhidden ∧ k ∈ e.declarations.keys ∧ k.space = some (qualify w.space "B") ∧
            k.chain = [("D", 0), ("T", 0)] ∧
            e.resolve s (.named false [.mk "B" [], .mk "D" [], .mk "T" []]) ≠ .definition k))) =
          true := by
    refine CompilationUnit.any_of_ofCharacters (toList_append_eq
      (toList_append_eq String.toList_ofList String.toList_ofList) String.toList_ofList) ?_
    decide +kernel
  obtain ⟨⟨u, d⟩, hx, hfacts⟩ := (Option.any_eq_true _ _).mp hprogram
  obtain ⟨hA, hB⟩ := (Bool.and_eq_true _ _).mp hfacts
  obtain ⟨wA, -, hA⟩ := (Option.any_eq_true _ _).mp hA
  obtain ⟨wB, -, hB⟩ := (Option.any_eq_true _ _).mp hB
  exact ⟨u, d, hx, ⟨wA, _, of_decide_eq_true hA⟩, ⟨wB, _, of_decide_eq_true hB⟩⟩

end Example

end Facade
