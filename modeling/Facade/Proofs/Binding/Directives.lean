import Mathlib.Data.List.Infix
import Facade.Proofs.Binding.Unfolding

/-!
# The using directives of a program

A using directive is told from the namespace declaration, or the source, that has it, and from its number
there. What a place sees are the levels of that declaration and of those around it, each with the aliases
of its directives and, at the outermost level, with the global ones of other sources.

* `DirectiveId`, `Declarations.siteAt?`, `Declarations.aliasAt?`: the directives and their aliases;
* **`Declarations.levelsAt_eq`**: the levels of a place;
* **`Declarations.aliases_eq`**: the aliases of a level;
* `TypeSite.place`, `Declarations.siteAt?_place`: every declaration stands at a place.
-/

namespace Facade

/-! ## The using directives of a program -/

/-- Which using directive of a program this is: the namespace declaration, or the source, that has it, and
its number there. -/
structure DirectiveId where
  place : DeclarationId
  index : Nat
deriving Repr, DecidableEq

/-- The way into the namespace declaration with this number, from a site and what stands at it. -/
def NamespaceMember.enter (at_ : Site × List NamespaceMember) (i : Nat) :
    Option (Site × List NamespaceMember) :=
  match at_.2[i]? with
  | some (.space head members) => some (at_.1.inNamespace i head, members)
  | _ => none

/-- The using directives that stand directly at a site: those of the innermost namespace declaration, or
of the source. -/
def Site.ownUsings (s : Site) : List UsingDirective :=
  match s.namespaces.getLast? with
  | some head => head.usings
  | none => s.unit.usings

/-- The alias that a using directive declares, if its target is resolved at these levels. -/
def UsingDirective.alias? (u : UsingDirective) (home : List NamespaceLevel) : Option Alias :=
  match u.target with
  | .alias n t => some ⟨n, t, home⟩
  | _ => none

namespace Declarations

variable (d : Declarations)

/-- The inside of the namespace declaration at a place, or of the source. -/
def insideOf? (p : DeclarationId) : Option (Site × List NamespaceMember) := do
  let unit ← d.units[p.tree]?
  p.path.foldlM NamespaceMember.enter (.ofUnit p.tree unit, unit.members)

/-- The site of what stands at a place. -/
def siteAt? (p : DeclarationId) : Option Site := (d.insideOf? p).map Prod.fst

/-- The using directive with this identity. -/
def directive? (id : DirectiveId) : Option UsingDirective := do
  let s ← d.siteAt? id.place
  s.ownUsings[id.index]?

/-- The alias that a using directive declares. Its target is resolved where the directive stands. -/
def aliasAt? (id : DirectiveId) : Option Alias := do
  let s ← d.siteAt? id.place
  let u ← s.ownUsings[id.index]?
  u.alias? ((d.levelsAt s).map Level.plain)

/-- The innermost level of a place. -/
def levelAt? (p : DeclarationId) : Option Level := do
  let s ← d.siteAt? p
  (d.levelsAt s).head?

/-- The using directives that a place itself has. -/
def ownDirectives (p : DeclarationId) : List DirectiveId :=
  match d.siteAt? p with
  | some s => (List.range s.ownUsings.length).map fun i => ⟨p, i⟩
  | none => []

/-- The global using directives of the sources other than one. -/
def foreignDirectives (tree : Nat) : List DirectiveId :=
  (List.range d.units.length).flatMap fun i =>
    if i = tree then []
    else (d.ownDirectives ⟨i, []⟩).filter fun id => (d.directive? id).any UsingDirective.isGlobal

/-- The using directives of the level of a place: its own, and the global ones of other sources at the
outermost level. -/
def directivesAt (p : DeclarationId) : List DirectiveId :=
  d.ownDirectives p ++ if p.path = [] then d.foreignDirectives p.tree else []

end Declarations

/-- A place and those around it, the innermost first. -/
def DeclarationId.outwards (p : DeclarationId) : List DeclarationId :=
  p.path.inits.reverse.map fun path => ⟨p.tree, path⟩

namespace Declarations

variable {d : Declarations}

theorem insideOf?_concat (tree : Nat) (path : List Nat) (i : Nat) :
    d.insideOf? ⟨tree, path ++ [i]⟩ =
      (d.insideOf? ⟨tree, path⟩).bind fun inside => NamespaceMember.enter inside i := by
  simp [insideOf?, Option.bind_assoc]

theorem exists_of_siteAt?_concat {tree : Nat} {path : List Nat} {i : Nat} {s : Site}
    (h : d.siteAt? ⟨tree, path ++ [i]⟩ = some s) : ∃ outer head,
      d.siteAt? ⟨tree, path⟩ = some outer ∧ s = outer.inNamespace i head := by
  obtain ⟨⟨s, members⟩, hs, rfl⟩ := Option.map_eq_some_iff.mp h
  rw [insideOf?_concat] at hs
  obtain ⟨⟨outer, around⟩, houter, hs⟩ := Option.bind_eq_some_iff.mp hs
  unfold NamespaceMember.enter at hs
  split at hs
  · next head members' _ =>
    cases hs
    exact ⟨outer, head, by rw [siteAt?, houter]; rfl, rfl⟩
  · cases hs

theorem siteAt?_nil (tree : Nat) :
    d.siteAt? ⟨tree, []⟩ = d.units[tree]?.map (Site.ofUnit tree) := by
  rw [siteAt?, insideOf?]
  cases d.units[tree]? <;> rfl

theorem home_of_aliasAt? {id : DirectiveId} {a : Alias} (h : d.aliasAt? id = some a) :
    ∃ s, d.siteAt? id.place = some s ∧ a.home = (d.levelsAt s).map Level.plain := by
  obtain ⟨s, hs, h⟩ := Option.bind_eq_some_iff.mp h
  obtain ⟨u, -, h⟩ := Option.bind_eq_some_iff.mp h
  refine ⟨s, hs, ?_⟩
  unfold UsingDirective.alias? at h
  split at h <;> cases h
  rfl

/-! ## The levels of a place -/

theorem outwards_concat (tree : Nat) (path : List Nat) (i : Nat) :
    DeclarationId.outwards ⟨tree, path ++ [i]⟩ =
      ⟨tree, path ++ [i]⟩ :: DeclarationId.outwards ⟨tree, path⟩ := by
  simp [DeclarationId.outwards, List.inits_append]

theorem levelsAt_inNamespace (s : Site) (i : Nat) (head : NamespaceHead) :
    d.levelsAt (s.inNamespace i head) =
      levelOf (nameWithin none s.namespaces) (d.levelsAt s) head :: d.levelsAt s :=
  levelsWithin_concat none [d.outermostLevel s.tree] s.namespaces head

/-- **The levels of a place** are its own and those of the places around it. -/
theorem levelsAt_eq {p : DeclarationId} {s : Site} (h : d.siteAt? p = some s) :
    d.levelsAt s = p.outwards.filterMap d.levelAt? := by
  obtain ⟨tree, path⟩ := p
  induction path using List.reverseRecOn generalizing s with
  | nil =>
    have hlevel : d.levelAt? ⟨tree, []⟩ = (d.levelsAt s).head? := by rw [levelAt?, h]; rfl
    rw [siteAt?_nil] at h
    obtain ⟨unit, -, rfl⟩ := Option.map_eq_some_iff.mp h
    change _ = [(⟨tree, []⟩ : DeclarationId)].filterMap d.levelAt?
    rw [List.filterMap_cons, hlevel]
    rfl
  | append_singleton path i ih =>
    have hlevel : d.levelAt? ⟨tree, path ++ [i]⟩ = (d.levelsAt s).head? := by rw [levelAt?, h]; rfl
    obtain ⟨outer, head, houter, rfl⟩ := exists_of_siteAt?_concat h
    rw [outwards_concat, List.filterMap_cons, hlevel, ← ih houter, levelsAt_inNamespace]
    rfl

/-! ## The aliases of a place -/

theorem filterMap_range_getElem? {α β : Type} (xs : List α) (f : α → Option β) :
    (List.range xs.length).filterMap (fun i => xs[i]?.bind f) = xs.filterMap f := by
  induction xs using List.reverseRecOn with
  | nil => rfl
  | append_singleton xs x ih =>
    have hinit : ∀ i ∈ List.range xs.length, (xs ++ [x])[i]?.bind f = xs[i]?.bind f := by
      intro i hi
      rw [List.getElem?_append_left (List.mem_range.mp hi)]
    rw [List.length_append, List.length_singleton, List.range_succ, List.filterMap_append,
      List.filterMap_congr hinit, ih, List.filterMap_append]
    simp [List.filterMap_cons]

theorem aliasesOf_eq (us : List UsingDirective) (home : List NamespaceLevel) :
    aliasesOf us home = us.filterMap fun u => u.alias? home := rfl

theorem aliasAt?_eq {p : DeclarationId} {s : Site} (h : d.siteAt? p = some s) (i : Nat) :
    d.aliasAt? ⟨p, i⟩ = s.ownUsings[i]?.bind fun u => u.alias? ((d.levelsAt s).map Level.plain) := by
  rw [aliasAt?, h]
  rfl

theorem ownDirectives_eq {p : DeclarationId} {s : Site} (h : d.siteAt? p = some s) :
    d.ownDirectives p = (List.range s.ownUsings.length).map fun i => ⟨p, i⟩ := by
  rw [ownDirectives, h]

theorem aliases_own {p : DeclarationId} {s : Site} (h : d.siteAt? p = some s) :
    (d.ownDirectives p).filterMap d.aliasAt? =
      aliasesOf s.ownUsings ((d.levelsAt s).map Level.plain) := by
  rw [ownDirectives_eq h, List.filterMap_map, aliasesOf_eq,
    ← filterMap_range_getElem? s.ownUsings fun u => u.alias? _]
  exact List.filterMap_congr fun i _ => aliasAt?_eq h i

theorem flatten_mapIdx {α β : Type} (f : Nat → α → List β) (xs : List α) :
    (xs.mapIdx f).flatten = (List.range xs.length).flatMap fun i => (xs[i]?.map (f i)).getD [] := by
  rw [List.flatMap_def]
  exact congrArg List.flatten (List.ext_getElem (by simp) fun i hi _ => by
    rw [List.length_mapIdx] at hi
    simp [hi])

theorem aliases_global {i : Nat} {unit : CompilationUnit} (hunit : d.units[i]? = some unit) :
    ((d.ownDirectives ⟨i, []⟩).filter fun id =>
        (d.directive? id).any UsingDirective.isGlobal).filterMap d.aliasAt? =
      aliasesOf (unit.usings.filter UsingDirective.isGlobal) [d.unitLevel i] := by
  have hs : d.siteAt? ⟨i, []⟩ = some (.ofUnit i unit) := by rw [siteAt?_nil, hunit]; rfl
  have hown : (Site.ofUnit i unit).ownUsings = unit.usings := rfl
  have hhome : (d.levelsAt (.ofUnit i unit)).map Level.plain = [d.unitLevel i] := rfl
  rw [ownDirectives_eq hs, List.filter_map, List.filterMap_map, List.filterMap_filter, aliasesOf_eq,
    List.filterMap_filter, ← filterMap_range_getElem? unit.usings, hown]
  refine List.filterMap_congr fun j _ => ?_
  have hdirective : d.directive? ⟨⟨i, []⟩, j⟩ = unit.usings[j]? := by
    rw [directive?, hs]
    rfl
  simp only [Function.comp_apply, hdirective, aliasAt?_eq hs, hown, hhome]
  cases unit.usings[j]? <;> simp

theorem aliases_foreign (tree : Nat) : (d.foreignDirectives tree).filterMap d.aliasAt? =
    (d.foreignGlobals tree).flatMap fun g => aliasesOf [g.2] [d.unitLevel g.1] := by
  rw [foreignDirectives, foreignGlobals, globalUsings, flatten_mapIdx, List.filterMap_flatMap,
    List.filter_flatMap, List.flatMap_assoc]
  refine List.flatMap_congr fun i hi => ?_
  obtain ⟨unit, hunit⟩ : ∃ unit, d.units[i]? = some unit :=
    ⟨_, List.getElem?_eq_getElem (List.mem_range.mp hi)⟩
  rw [hunit, Option.map_some, Option.getD_some, List.filter_map]
  by_cases htree : i = tree
  · simp [htree, Function.comp_def]
  · have hforeign : (i != tree) = true := by simpa using htree
    rw [if_neg htree, aliases_global hunit]
    simp [hforeign, Function.comp_def, aliasesOf_eq, List.filterMap_eq_flatMap_toList,
      List.flatMap_map]

/-- **The aliases of the level of a place** are those that its using directives declare. -/
theorem aliases_eq {p : DeclarationId} {l : Level} (h : d.levelAt? p = some l) :
    l.aliases = (d.directivesAt p).filterMap d.aliasAt? := by
  obtain ⟨s, hs, hl⟩ := Option.bind_eq_some_iff.mp h
  obtain ⟨tree, path⟩ := p
  rw [directivesAt, List.filterMap_append, aliases_own hs]
  cases path using List.reverseRecOn with
  | nil =>
    rw [siteAt?_nil] at hs
    obtain ⟨unit, hunit, rfl⟩ := Option.map_eq_some_iff.mp hs
    obtain rfl : d.outermostLevel tree = l := Option.some.inj hl
    have husings : d.usingsOf tree = unit.usings := by rw [usingsOf, hunit]
    rw [if_pos rfl, aliases_foreign, outermostLevel, husings]
    rfl
  | append_singleton path i =>
    obtain ⟨outer, head, houter, rfl⟩ := exists_of_siteAt?_concat hs
    rw [levelsAt_inNamespace] at hl ⊢
    obtain rfl := Option.some.inj hl
    rw [if_neg (by simp), List.filterMap_nil, List.append_nil]
    simp [levelOf, Site.ownUsings, Site.inNamespace]

end Declarations

/-! ## The places of declarations -/

/-- One site is within another one, in the same namespaces. -/
structure Site.IsAround (s t : Site) : Prop where
  tree : t.tree = s.tree
  namespaces : t.namespaces = s.namespaces
  path : s.path <+: t.path

theorem Site.IsAround.refl (s : Site) : s.IsAround s := ⟨rfl, rfl, List.prefix_rfl⟩

theorem Site.isAround_inType (s : Site) (i : Nat) (head : TypeHead) : s.IsAround (s.inType i head) :=
  ⟨rfl, rfl, List.prefix_append _ _⟩

theorem Site.IsAround.trans {s t u : Site} (h : s.IsAround t) (h' : t.IsAround u) : s.IsAround u :=
  ⟨h'.tree.trans h.tree, h'.namespaces.trans h.namespaces, h.path.trans h'.path⟩

mutual

theorem Member.isAround_declare (space : Option String) : (m : Member) → (s : Site) → (i : Nat) →
    (outer : Option DefinitionKey) → ∀ e ∈ m.declare s i space outer, s.IsAround e.site.site
  | .type head members, s, i, outer, e, he => by
    rw [Member.declare] at he
    rcases List.mem_cons.mp he with rfl | he
    · exact .refl s
    · exact (s.isAround_inType i head).trans (Member.isAround_declareAll space members _ 0 _ e he)
  | .method _, _, _, _, _, he => absurd he List.not_mem_nil
  | .other _, _, _, _, _, he => absurd he List.not_mem_nil

theorem Member.isAround_declareAll (space : Option String) : (ms : List Member) → (s : Site) →
    (i : Nat) → (outer : Option DefinitionKey) →
    ∀ e ∈ Member.declareAll s i space outer ms, s.IsAround e.site.site
  | [], _, _, _, _, he => absurd he List.not_mem_nil
  | m :: ms, s, i, outer, e, he => by
    rw [Member.declareAll] at he
    rcases List.mem_append.mp he with he | he
    · exact Member.isAround_declare space m s i outer e he
    · exact Member.isAround_declareAll space ms s (i + 1) outer e he

end

namespace Declarations

variable {d : Declarations}

/-- The site is that of a place, with these members from number `i` on. -/
structure IsInside (d : Declarations) (s : Site) (i : Nat) (members : List NamespaceMember) : Prop where
  length : s.path.length = s.namespaces.length
  inside : ∃ before, before.length = i ∧ d.insideOf? ⟨s.tree, s.path⟩ = some (s, before ++ members)

theorem IsInside.next {s : Site} {i : Nat} {m : NamespaceMember} {members : List NamespaceMember}
    (h : d.IsInside s i (m :: members)) : d.IsInside s (i + 1) members := by
  obtain ⟨before, hlength, hinside⟩ := h.inside
  exact ⟨h.length, before ++ [m], by simp [hlength], by simpa using hinside⟩

theorem IsInside.enter {s : Site} {i : Nat} {head : NamespaceHead}
    {inner members : List NamespaceMember} (h : d.IsInside s i (.space head inner :: members)) :
    d.IsInside (s.inNamespace i head) 0 inner := by
  obtain ⟨before, rfl, hinside⟩ := h.inside
  refine ⟨by simp [Site.inNamespace, h.length], [], rfl, ?_⟩
  change d.insideOf? ⟨s.tree, s.path ++ [before.length]⟩ = _
  rw [insideOf?_concat, hinside]
  simp [NamespaceMember.enter]

/-- The site of a place is around this one. -/
def HasPlace (d : Declarations) (t : Site) : Prop :=
  ∃ s, d.siteAt? ⟨s.tree, s.path⟩ = some s ∧ s.path.length = s.namespaces.length ∧ s.IsAround t

theorem IsInside.hasPlace {s t : Site} {i : Nat} {members : List NamespaceMember}
    (h : d.IsInside s i members) (ht : s.IsAround t) : d.HasPlace t := by
  obtain ⟨before, -, hinside⟩ := h.inside
  exact ⟨s, by rw [siteAt?, hinside]; rfl, h.length, ht⟩

end Declarations

mutual

theorem NamespaceMember.hasPlace_declare {d : Declarations} {rest : List NamespaceMember} :
    (m : NamespaceMember) → (s : Site) → (i : Nat) → (around : Option String) →
    d.IsInside s i (m :: rest) → ∀ e ∈ m.declare s i around, d.HasPlace e.site.site
  | .space head members, s, i, around, h, e, he => by
    rw [NamespaceMember.declare] at he
    exact NamespaceMember.hasPlace_declareAll members _ 0 _ h.enter e he
  | .type t, s, i, around, h, e, he =>
    h.hasPlace (Member.isAround_declare around (.type t.head t.members) s i none e he)

theorem NamespaceMember.hasPlace_declareAll {d : Declarations} : (ms : List NamespaceMember) →
    (s : Site) → (i : Nat) → (around : Option String) → d.IsInside s i ms →
    ∀ e ∈ NamespaceMember.declareAll s i around ms, d.HasPlace e.site.site
  | [], _, _, _, _, _, he => absurd he List.not_mem_nil
  | m :: ms, s, i, around, h, e, he => by
    rw [NamespaceMember.declareAll] at he
    rcases List.mem_append.mp he with he | he
    · exact NamespaceMember.hasPlace_declare m s i around h e he
    · exact NamespaceMember.hasPlace_declareAll ms s (i + 1) around h.next e he

end

/-- The place where a type declaration stands, the types around it left aside. -/
def TypeSite.place (t : TypeSite) : DeclarationId :=
  ⟨t.site.tree, t.site.path.take t.site.namespaces.length⟩

/-- **Every declaration stands at a place**, whose levels are those of its site. -/
theorem Declarations.siteAt?_place {units : List CompilationUnit} {e : Declared}
    (he : e ∈ (ofUnits units).declared) : ∃ s, (ofUnits units).siteAt? e.site.place = some s ∧
      (ofUnits units).levelsAt s = (ofUnits units).levelsAt e.site.site := by
  obtain ⟨i, hi, he⟩ := mem_declared.mp he
  have hinside : (ofUnits units).IsInside (.ofUnit i units[i]) 0 units[i].members := by
    refine ⟨rfl, [], rfl, ?_⟩
    have hunit : (ofUnits units).units[i]? = some units[i] := List.getElem?_eq_getElem hi
    rw [insideOf?, Site.ofUnit, hunit]
    rfl
  obtain ⟨s, hs, hlength, haround⟩ := NamespaceMember.hasPlace_declareAll _ _ 0 none hinside e he
  have hplace : e.site.place = ⟨s.tree, s.path⟩ := by
    rw [TypeSite.place, haround.tree, haround.namespaces, ← hlength,
      ← List.prefix_iff_eq_take.mp haround.path]
  refine ⟨s, hplace ▸ hs, ?_⟩
  rw [levelsAt, levelsAt, haround.tree, haround.namespaces]

end Facade
