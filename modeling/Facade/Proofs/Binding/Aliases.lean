import Facade.Proofs.Binding.AliasMemory
import Facade.Proofs.Binding.Spans

/-!
# Aliases do not see each other

Taking all aliases out of the sources of a program leaves what it declares as it is, and what the targets
of aliases mean. So an alias has one meaning in all programs that differ in other aliases only, and it has
this meaning whatever was asked before.

* `CompilationUnit.withoutAliases`, `SameButAliases`: sources without their aliases;
* `Declarations.knowsSame_withoutAliases`: the declared types and the namespaces;
* `Declarations.siteAt?_withoutAliases`, `Declarations.home_eq_of_sameButAliases`: where the target of an
  alias is resolved;
* **`Environment.alias_alone`**: the meaning of an alias, whatever other aliases there are and whatever
  was asked before;
* `alias_alone_recursive`: aliases that refer to themselves and to each other.
-/

namespace Facade

/-! ## Sources without aliases -/

/-- The directive declares an alias. -/
def UsingDirective.isAlias (u : UsingDirective) : Bool :=
  match u.target with
  | .alias _ _ => true
  | _ => false

/-- The directives that declare no alias, without their spans. -/
def UsingDirective.withoutAliases (us : List UsingDirective) : List UsingDirective :=
  (us.filter fun u => !u.isAlias).map UsingDirective.withoutSpans

/-- The head of a namespace without aliases and spans. -/
def NamespaceHead.withoutAliases (h : NamespaceHead) : NamespaceHead :=
  { h with usings := UsingDirective.withoutAliases h.usings, span := none }

mutual

/-- The member of a namespace without aliases and spans. -/
def NamespaceMember.withoutAliases : NamespaceMember → NamespaceMember
  | .space head members => .space head.withoutAliases (NamespaceMember.withoutAliasesAll members)
  | .type d => .type d.withoutSpans

/-- The members of a namespace without aliases and spans. -/
def NamespaceMember.withoutAliasesAll : List NamespaceMember → List NamespaceMember
  | [] => []
  | m :: ms => NamespaceMember.withoutAliases m :: NamespaceMember.withoutAliasesAll ms

end

/-- The source without aliases and spans. -/
def CompilationUnit.withoutAliases (u : CompilationUnit) : CompilationUnit :=
  { u with
    usings := UsingDirective.withoutAliases u.usings
    members := NamespaceMember.withoutAliasesAll u.members
    span := none }

/-- **Two programs differ in their aliases only**, and in where anything stands in its source. -/
def SameButAliases (units units' : List CompilationUnit) : Prop :=
  units.map CompilationUnit.withoutAliases = units'.map CompilationUnit.withoutAliases

theorem NamespaceMember.withoutAliasesAll_eq (ms : List NamespaceMember) :
    withoutAliasesAll ms = ms.map withoutAliases := by
  induction ms with
  | nil => rfl
  | cons m ms ih => rw [withoutAliasesAll, ih, List.map_cons]

theorem importsOf_withoutAliases (us : List UsingDirective) :
    importsOf (UsingDirective.withoutAliases us) = importsOf us := by
  rw [UsingDirective.withoutAliases, importsOf_withoutSpans, importsOf, List.filterMap_filter]
  refine List.filterMap_congr fun u _ => ?_
  cases htarget : u.target <;> simp [UsingDirective.isAlias, htarget]

/-! ## What is declared -/

theorem Member.map_key_declare (space : Option String) (m : Member) (s s' : Site) (i : Nat)
    (outer : Option DefinitionKey) : (m.declare s i space outer).map Declared.key =
      (m.declare s' i space outer).map Declared.key :=
  map_eq_of_forall₂ (fun _ _ h => h.key)
    (Member.forall₂_declare (R := fun _ _ => True) (fun _ _ _ => trivial) space m trivial i outer)

mutual

theorem NamespaceMember.map_key_declare_withoutAliases : (m : NamespaceMember) → (s s' : Site) →
    (i : Nat) → (around : Option String) → (m.withoutAliases.declare s' i around).map Declared.key =
      (m.declare s i around).map Declared.key
  | .space head members, s, s', i, around => by
    rw [NamespaceMember.withoutAliases, NamespaceMember.declare, NamespaceMember.declare]
    exact NamespaceMember.map_key_declareAll_withoutAliases members _ _ 0 _
  | .type d, s, s', i, around => by
    have hspans := congrArg (List.map Declared.key)
      (Member.declare_withoutSpans around (.type d.head d.members) s i none)
    rw [List.map_map] at hspans
    exact (Member.map_key_declare around _ s' s.withoutSpans i none).trans hspans

theorem NamespaceMember.map_key_declareAll_withoutAliases : (ms : List NamespaceMember) →
    (s s' : Site) → (i : Nat) → (around : Option String) →
    (NamespaceMember.declareAll s' i around (NamespaceMember.withoutAliasesAll ms)).map Declared.key =
      (NamespaceMember.declareAll s i around ms).map Declared.key
  | [], _, _, _, _ => rfl
  | m :: ms, s, s', i, around => by
    rw [NamespaceMember.withoutAliasesAll, NamespaceMember.declareAll, NamespaceMember.declareAll,
      List.map_append, List.map_append, NamespaceMember.map_key_declare_withoutAliases m s s',
      NamespaceMember.map_key_declareAll_withoutAliases ms s s']

end

mutual

theorem NamespaceMember.spaces_withoutAliases : (m : NamespaceMember) → (around : Option String) →
    m.withoutAliases.spaces around = m.spaces around
  | .space head members, around => by
    rw [NamespaceMember.withoutAliases, NamespaceMember.spaces, NamespaceMember.spaces]
    exact congrArg _ (NamespaceMember.spacesAll_withoutAliases members _)
  | .type _, _ => rfl

theorem NamespaceMember.spacesAll_withoutAliases : (ms : List NamespaceMember) →
    (around : Option String) →
    NamespaceMember.spacesAll around (NamespaceMember.withoutAliasesAll ms) =
      NamespaceMember.spacesAll around ms
  | [], _ => rfl
  | m :: ms, around => by
    rw [NamespaceMember.withoutAliasesAll, NamespaceMember.spacesAll, NamespaceMember.spacesAll,
      NamespaceMember.spaces_withoutAliases m, NamespaceMember.spacesAll_withoutAliases ms]

end

theorem CompilationUnit.map_key_declare_withoutAliases (tree : Nat) (unit : CompilationUnit) :
    (unit.withoutAliases.declare tree).map Declared.key = (unit.declare tree).map Declared.key :=
  NamespaceMember.map_key_declareAll_withoutAliases unit.members _ _ 0 none

namespace Declarations

variable {units units' : List CompilationUnit}

theorem map_key_declared_withoutAliases (units : List CompilationUnit) :
    (ofUnits (units.map CompilationUnit.withoutAliases)).declared.map Declared.key =
      (ofUnits units).declared.map Declared.key := by
  rw [ofUnits, ofUnits, List.map_flatten, List.map_flatten]
  refine congrArg List.flatten (List.ext_getElem (by simp) fun i _ _ => ?_)
  simp [CompilationUnit.map_key_declare_withoutAliases]

/-- **Without aliases the same types and namespaces are declared.** -/
theorem knowsSame_withoutAliases (units : List CompilationUnit) :
    (ofUnits (units.map CompilationUnit.withoutAliases)).KnowsSame (ofUnits units) := by
  have hkeys : (ofUnits (units.map CompilationUnit.withoutAliases)).keys = (ofUnits units).keys :=
    congrArg List.eraseDups (map_key_declared_withoutAliases units)
  have hspaces : (ofUnits (units.map CompilationUnit.withoutAliases)).spaces =
      (ofUnits units).spaces := by
    simp only [ofUnits, List.flatMap_map, CompilationUnit.withoutAliases,
      NamespaceMember.spacesAll_withoutAliases]
  exact ⟨fun k => by rw [hkeys], fun n => by rw [hspaces]⟩

/-! ## Where targets are resolved -/

theorem usingsOf_withoutAliases (units : List CompilationUnit) (tree : Nat) :
    (ofUnits (units.map CompilationUnit.withoutAliases)).usingsOf tree =
      UsingDirective.withoutAliases ((ofUnits units).usingsOf tree) := by
  rw [usingsOf, usingsOf, ofUnits, ofUnits, List.getElem?_map]
  cases units[tree]? <;> rfl

theorem foreignGlobals_withoutAliases (units : List CompilationUnit) (tree : Nat) :
    (ofUnits (units.map CompilationUnit.withoutAliases)).foreignGlobals tree =
      (((ofUnits units).foreignGlobals tree).filter fun g => !g.2.isAlias).map
        fun g => (g.1, g.2.withoutSpans) := by
  have hglobals : (ofUnits (units.map CompilationUnit.withoutAliases)).globalUsings =
      ((ofUnits units).globalUsings.filter fun g => !g.2.isAlias).map
        fun g => (g.1, g.2.withoutSpans) := by
    rw [globalUsings, globalUsings, List.filter_flatten, List.map_flatten, List.map_map]
    refine congrArg List.flatten (mapIdx_map_eq (fun i u => ?_) units)
    simp only [CompilationUnit.withoutAliases, UsingDirective.withoutAliases, List.filter_map,
      List.map_map, List.filter_filter, Function.comp_def, UsingDirective.withoutSpans, Bool.and_comm]
  rw [foreignGlobals, foreignGlobals, hglobals, List.filter_map, List.filter_filter,
    List.filter_filter]
  simp only [Function.comp_def, Bool.and_comm]

theorem unitLevel_withoutAliases (units : List CompilationUnit) (tree : Nat) :
    (ofUnits (units.map CompilationUnit.withoutAliases)).unitLevel tree =
      (ofUnits units).unitLevel tree := by
  have hforeign : ((ofUnits (units.map CompilationUnit.withoutAliases)).foreignGlobals tree).map
      Prod.snd = UsingDirective.withoutAliases (((ofUnits units).foreignGlobals tree).map Prod.snd) := by
    rw [foreignGlobals_withoutAliases, UsingDirective.withoutAliases, List.filter_map, List.map_map,
      List.map_map]
    rfl
  have happend (us vs : List UsingDirective) : UsingDirective.withoutAliases us ++
      UsingDirective.withoutAliases vs = UsingDirective.withoutAliases (us ++ vs) := by
    simp only [UsingDirective.withoutAliases, List.filter_append, List.map_append]
  rw [unitLevel, unitLevel, usingsOf_withoutAliases, hforeign, happend, importsOf_withoutAliases]

theorem plain_levelsWithin_withoutAliases (heads : List NamespaceHead) (outer : Option String)
    {around around' : List Level} (h : around'.map Level.plain = around.map Level.plain) :
    (levelsWithin outer around' (heads.map NamespaceHead.withoutAliases)).map Level.plain =
      (levelsWithin outer around heads).map Level.plain := by
  induction heads generalizing outer around around' with
  | nil => exact h
  | cons head heads ih =>
    have hplain : namespaceLevel outer head.withoutAliases = namespaceLevel outer head := by
      rw [namespaceLevel, namespaceLevel, NamespaceHead.withoutAliases, importsOf_withoutAliases]
    rw [List.map_cons, levelsWithin, levelsWithin]
    exact ih _ (by simp only [List.map_cons, hplain, h])

end Declarations

/-- The site without aliases. -/
def Site.withoutAliases (s : Site) : Site :=
  { s with
    unit := s.unit.withoutAliases
    namespaces := s.namespaces.map NamespaceHead.withoutAliases }

/-- The inside of a namespace declaration without aliases. -/
def NamespaceMember.insideWithoutAliases (at_ : Site × List NamespaceMember) :
    Site × List NamespaceMember :=
  (at_.1.withoutAliases, NamespaceMember.withoutAliasesAll at_.2)

theorem NamespaceMember.enter_withoutAliases (at_ : Site × List NamespaceMember) (i : Nat) :
    enter (insideWithoutAliases at_) i = (enter at_ i).map insideWithoutAliases := by
  obtain ⟨s, members⟩ := at_
  rw [enter, enter, insideWithoutAliases, withoutAliasesAll_eq, List.getElem?_map]
  cases members[i]? with
  | none => rfl
  | some m =>
    cases m with
    | space head inner =>
      simp [withoutAliases, insideWithoutAliases, Site.withoutAliases, Site.inNamespace]
    | type t => rfl

namespace Declarations

variable {units units' : List CompilationUnit}

theorem insideOf?_withoutAliases (units : List CompilationUnit) (p : DeclarationId) :
    (ofUnits (units.map CompilationUnit.withoutAliases)).insideOf? p =
      ((ofUnits units).insideOf? p).map NamespaceMember.insideWithoutAliases := by
  obtain ⟨tree, path⟩ := p
  induction path using List.reverseRecOn with
  | nil =>
    rw [insideOf?, insideOf?, ofUnits, ofUnits, List.getElem?_map]
    cases units[tree]? <;> rfl
  | append_singleton path i ih =>
    rw [insideOf?_concat, insideOf?_concat, ih, Option.bind_map, Option.map_bind]
    exact congrArg _ (funext fun inside => NamespaceMember.enter_withoutAliases inside i)

theorem siteAt?_withoutAliases (units : List CompilationUnit) (p : DeclarationId) :
    (ofUnits (units.map CompilationUnit.withoutAliases)).siteAt? p =
      ((ofUnits units).siteAt? p).map Site.withoutAliases := by
  rw [siteAt?, siteAt?, insideOf?_withoutAliases, Option.map_map, Option.map_map]
  rfl

theorem plain_levelsAt_withoutAliases (units : List CompilationUnit) (s : Site) :
    ((ofUnits (units.map CompilationUnit.withoutAliases)).levelsAt s.withoutAliases).map Level.plain =
      ((ofUnits units).levelsAt s).map Level.plain :=
  plain_levelsWithin_withoutAliases s.namespaces none
    (congrArg (fun level => [level]) (unitLevel_withoutAliases units s.tree))

/-- **The target of an alias is resolved at levels that do not depend on aliases.** -/
theorem home_eq_of_sameButAliases (h : SameButAliases units units') {id id' : DirectiveId}
    (hplace : id.place = id'.place) {a a' : Alias} (ha : (ofUnits units).aliasAt? id = some a)
    (ha' : (ofUnits units').aliasAt? id' = some a') : a.home = a'.home := by
  obtain ⟨s, hs, hhome⟩ := home_of_aliasAt? ha
  obtain ⟨s', hs', hhome'⟩ := home_of_aliasAt? ha'
  rw [← hplace] at hs'
  -- both sites are those of one place in the sources without aliases
  have hsite : s.withoutAliases = s'.withoutAliases := by
    have hboth := siteAt?_withoutAliases units id.place
    rw [h, siteAt?_withoutAliases, hs, hs'] at hboth
    exact (Option.some.inj hboth).symm
  rw [hhome, hhome', ← plain_levelsAt_withoutAliases units, ← plain_levelsAt_withoutAliases units',
    hsite, h]

/-- **Written alike at one place, aliases have one meaning.** -/
theorem resolveAlias_eq_of_sameButAliases (h : SameButAliases units units') {id id' : DirectiveId}
    (hplace : id.place = id'.place) {a a' : Alias} (ha : (ofUnits units).aliasAt? id = some a)
    (ha' : (ofUnits units').aliasAt? id' = some a') (htarget : a.target = a'.target) :
    (ofUnits units).resolveAlias a = (ofUnits units').resolveAlias a' := by
  rw [← (knowsSame_withoutAliases units).resolveAlias_eq,
    ← (knowsSame_withoutAliases units').resolveAlias_eq, h, resolveAlias, resolveAlias, htarget,
    home_eq_of_sameButAliases h hplace ha ha']

end Declarations

/-! ## Aliases alone -/

namespace Environment

/-- **The alias always means this**: a program that remembers aliases says so at the end of every history
of questions, and its earlier answers are those of a program that remembers nothing. This holds at every
depth, so no alias is resolved within an alias. -/
def AlwaysMeans (e : Environment) (id : DirectiveId) (t : TypeSymbol) : Prop :=
  ∀ (depth : Nat) (history : List NameQuery), (∀ q ∈ history, q.IsPosed e) → ∃ memory,
    ((history ++ [NameQuery.directive id]).mapM (NameQuery.answerBy e (depth + 1))).run [] =
      some (history.map (NameQuery.answer e) ++ [some t], memory)

theorem alwaysMeans_resolveAlias {e : Environment} {id : DirectiveId} {a : Alias}
    (ha : e.declarations.aliasAt? id = some a) : e.AlwaysMeans id (e.declarations.resolveAlias a) := by
  intro depth history hposed
  have hlast : ∀ q ∈ history ++ [NameQuery.directive id], q.IsPosed e := by
    intro q hq
    rcases List.mem_append.mp hq with hq | hq
    · exact hposed q hq
    · obtain rfl := List.mem_singleton.mp hq
      exact Option.ne_none_iff_exists'.mpr ⟨a, ha⟩
  obtain ⟨memory, hrun, -⟩ := answers_of_history hlast depth [] Declarations.remembers_nil
  refine ⟨memory, hrun.trans ?_⟩
  simp [NameQuery.answer, ha]

variable {units units' : List CompilationUnit}

/-- **Aliases do not see each other.** An alias that is written alike at one place of two programs, which
differ in their other aliases as they like, always has the same meaning in both of them. -/
theorem alias_alone (h : SameButAliases units units') {id id' : DirectiveId}
    (hplace : id.place = id'.place) {a a' : Alias}
    (ha : (Declarations.ofUnits units).aliasAt? id = some a)
    (ha' : (Declarations.ofUnits units').aliasAt? id' = some a') (htarget : a.target = a'.target) :
    (Declarations.ofUnits units).resolveAlias a = (Declarations.ofUnits units').resolveAlias a' ∧
      (ofUnits units).AlwaysMeans id ((Declarations.ofUnits units).resolveAlias a) ∧
      (ofUnits units').AlwaysMeans id' ((Declarations.ofUnits units').resolveAlias a') :=
  ⟨Declarations.resolveAlias_eq_of_sameButAliases h hplace ha ha' htarget,
    alwaysMeans_resolveAlias ha, alwaysMeans_resolveAlias ha'⟩

end Environment

section Example

/-- A using directive that gives a type another name. -/
def aliasTo (name : String) (target : TypeSyntax) : UsingDirective := ⟨.alias name target, false, none⟩

/-- The alias `Pair` of a pair of a `Node` and an `Item`. -/
def pairAlias : UsingDirective :=
  aliasTo "Pair" (.tuple [(plainName "Node", none), (plainName "Item", none)])

/-- The pair of `N.Node` and an unknown type. -/
def pairMeaning : TypeSymbol :=
  .tuple [(.definition (.topLevel (some "N") "Node" 0), none), (.unresolved "Item" [], none)]

/-- A source with an interface `Node` in `N`, and with using directives at the top and in `N`. -/
def nodeUnit (outer inner : List UsingDirective) : CompilationUnit :=
  ⟨"", outer, [.space (namespaceNamed "N" inner) [interfaceNamed "Node" []]], none⟩

/-- `Item` is another alias beside `Pair`, and two aliases around them refer to each other. -/
def pairBefore : CompilationUnit :=
  nodeUnit [aliasTo "Ping" (plainName "Pong"), aliasTo "Pong" (plainName "Ping")]
    [aliasTo "Item" (plainName "Node"), pairAlias]

/-- `Item` and `Pair` refer to each other, and an alias around them refers to itself. -/
def pairAfter : CompilationUnit :=
  nodeUnit [aliasTo "Ping" (plainName "Ping")] [pairAlias, aliasTo "Item" (plainName "Pair")]

/-- The alias `Pair` means a pair of `N.Node` and an unknown type in both of these programs. -/
theorem alias_alone_recursive : SameButAliases [pairBefore] [pairAfter] ∧
    (Environment.ofUnits [pairBefore]).AlwaysMeans ⟨⟨0, [0]⟩, 1⟩ pairMeaning ∧
    (Environment.ofUnits [pairAfter]).AlwaysMeans ⟨⟨0, [0]⟩, 0⟩ pairMeaning := by
  have hsame : SameButAliases [pairBefore] [pairAfter] := rfl
  have hplace : (⟨⟨0, [0]⟩, 1⟩ : DirectiveId).place = (⟨⟨0, [0]⟩, 0⟩ : DirectiveId).place := rfl
  have hbefore : ((Declarations.ofUnits [pairBefore]).aliasAt? ⟨⟨0, [0]⟩, 1⟩).any (fun a =>
      decide (pairAlias.target = .alias a.name a.target ∧
        (Declarations.ofUnits [pairBefore]).resolveAlias a = pairMeaning)) = true := by
    decide +kernel
  have hafter : ((Declarations.ofUnits [pairAfter]).aliasAt? ⟨⟨0, [0]⟩, 0⟩).any (fun a =>
      decide (pairAlias.target = .alias a.name a.target)) = true := by
    decide +kernel
  obtain ⟨a, ha, hfacts⟩ := (Option.any_eq_true _ _).mp hbefore
  obtain ⟨hwritten, hmeaning⟩ := of_decide_eq_true hfacts
  obtain ⟨a', ha', hwritten'⟩ := (Option.any_eq_true _ _).mp hafter
  have htarget : a.target = a'.target :=
    (UsingTarget.alias.inj (hwritten.symm.trans (of_decide_eq_true hwritten'))).2
  obtain ⟨heq, halways, halways'⟩ := Environment.alias_alone hsame hplace ha ha' htarget
  rw [← heq, hmeaning] at halways'
  rw [hmeaning] at halways
  exact ⟨hsame, halways, halways'⟩

end Example

end Facade
