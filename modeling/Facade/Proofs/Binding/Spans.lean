import Facade.Proofs.Binding.Agreement
import Facade.Proofs.Syntax.WithoutSpans

/-!
# Spans mean nothing to a program

What the sources of a program declare and what their names mean does not depend on where anything stands
in them. Binding sources without their spans gives the same program, whose declarations and methods
have no spans.

* `Declarations.ofUnits_withoutSpans`: the declared types;
* `Declarations.scopeAt_withoutSpans`: the scopes of declarations;
* `Program.resembles_withoutSpans`: what is known of types;
* **`Model.ofUnits_withoutSpans`**: whole models.
-/

namespace Facade

/-! ## Declared types -/

/-- The declaration and its type without spans. -/
def Declared.withoutSpans (e : Declared) : Declared := ⟨e.key, e.site.withoutSpans⟩

theorem DefinitionKey.declare_withoutSpans (around : Option String) (outer : Option DefinitionKey)
    (head : TypeHead) : declare around outer head.withoutSpans = declare around outer head := by
  unfold declare
  rw [TypeHead.arity_withoutSpans]
  rfl

mutual

theorem Member.declare_withoutSpans (around : Option String) : (m : Member) → (s : Site) →
    (i : Nat) → (outer : Option DefinitionKey) →
    m.withoutSpans.declare s.withoutSpans i around outer =
      (m.declare s i around outer).map Declared.withoutSpans
  | .type head members, s, i, outer => by
    rw [Member.withoutSpans, Member.declare, Member.declare, DefinitionKey.declare_withoutSpans,
      ← Site.withoutSpans_inType, Member.declareAll_withoutSpans around members]
    rfl
  | .method _, _, _, _ => rfl
  | .other _, _, _, _ => rfl

theorem Member.declareAll_withoutSpans (around : Option String) : (ms : List Member) →
    (s : Site) → (i : Nat) → (outer : Option DefinitionKey) →
    Member.declareAll s.withoutSpans i around outer (Member.withoutSpansAll ms) =
      (Member.declareAll s i around outer ms).map Declared.withoutSpans
  | [], _, _, _ => rfl
  | m :: ms, s, i, outer => by
    rw [Member.withoutSpansAll, Member.declareAll, Member.declareAll, List.map_append,
      Member.declare_withoutSpans around m, Member.declareAll_withoutSpans around ms]

end

mutual

theorem NamespaceMember.declare_withoutSpans : (m : NamespaceMember) → (s : Site) → (i : Nat) →
    (around : Option String) → m.withoutSpans.declare s.withoutSpans i around =
      (m.declare s i around).map Declared.withoutSpans
  | .space head members, s, i, around => by
    rw [NamespaceMember.withoutSpans, NamespaceMember.declare, NamespaceMember.declare,
      ← Site.withoutSpans_inNamespace]
    exact NamespaceMember.declareAll_withoutSpans members _ 0 _
  | .type d, s, i, around => by
    rw [NamespaceMember.withoutSpans, NamespaceMember.declare, NamespaceMember.declare]
    exact Member.declare_withoutSpans around (.type d.head d.members) s i none

theorem NamespaceMember.declareAll_withoutSpans : (ms : List NamespaceMember) → (s : Site) →
    (i : Nat) → (around : Option String) →
    NamespaceMember.declareAll s.withoutSpans i around (NamespaceMember.withoutSpansAll ms) =
      (NamespaceMember.declareAll s i around ms).map Declared.withoutSpans
  | [], _, _, _ => rfl
  | m :: ms, s, i, around => by
    rw [NamespaceMember.withoutSpansAll, NamespaceMember.declareAll, NamespaceMember.declareAll,
      List.map_append, NamespaceMember.declare_withoutSpans m,
      NamespaceMember.declareAll_withoutSpans ms]

end

mutual

theorem NamespaceMember.spaces_withoutSpans : (m : NamespaceMember) → (around : Option String) →
    m.withoutSpans.spaces around = m.spaces around
  | .space head members, around => by
    rw [NamespaceMember.withoutSpans, NamespaceMember.spaces, NamespaceMember.spaces]
    exact congrArg _ (NamespaceMember.spacesAll_withoutSpans members _)
  | .type _, _ => rfl

theorem NamespaceMember.spacesAll_withoutSpans : (ms : List NamespaceMember) →
    (around : Option String) → NamespaceMember.spacesAll around (NamespaceMember.withoutSpansAll ms) =
      NamespaceMember.spacesAll around ms
  | [], _ => rfl
  | m :: ms, around => by
    rw [NamespaceMember.withoutSpansAll, NamespaceMember.spacesAll, NamespaceMember.spacesAll,
      NamespaceMember.spaces_withoutSpans m, NamespaceMember.spacesAll_withoutSpans ms]

end

theorem CompilationUnit.declare_withoutSpans (tree : Nat) (unit : CompilationUnit) :
    unit.withoutSpans.declare tree = (unit.declare tree).map Declared.withoutSpans :=
  NamespaceMember.declareAll_withoutSpans unit.members (.ofUnit tree unit) 0 none

theorem CompilationUnit.typeSites_withoutSpans (tree : Nat) (unit : CompilationUnit) :
    unit.withoutSpans.typeSites tree = (unit.typeSites tree).map TypeSite.withoutSpans := by
  rw [← map_site_declare, ← map_site_declare, declare_withoutSpans, List.map_map, List.map_map]
  rfl

theorem CompilationUnit.candidates_withoutSpans (tree : Nat) (unit : CompilationUnit) :
    unit.withoutSpans.candidates tree = (unit.candidates tree).map TypeSite.withoutSpans := by
  have hhost : (fun t : TypeSite => t.withoutSpans.head.canHost) = fun t => t.head.canHost :=
    funext fun t => t.head.canHost_withoutSpans
  rw [candidates, candidates, typeSites_withoutSpans, List.filter_map]
  exact congrArg (List.map TypeSite.withoutSpans) (congrArg (List.filter · _) hhost)

/-! ## Programs -/

theorem mapIdx_map_eq {α β : Type} {f : α → α} {g : β → β} {h : Nat → α → β}
    (hfg : ∀ i a, h i (f a) = g (h i a)) (xs : List α) :
    (xs.map f).mapIdx h = (xs.mapIdx h).map g :=
  List.ext_getElem (by simp) fun i _ _ => by simp [hfg]

/-- The declarations without spans. -/
def Declarations.withoutSpans (d : Declarations) : Declarations :=
  { d with
    units := d.units.map CompilationUnit.withoutSpans
    declared := d.declared.map Declared.withoutSpans }

namespace Declarations

theorem ofUnits_withoutSpans (units : List CompilationUnit) :
    ofUnits (units.map CompilationUnit.withoutSpans) = (ofUnits units).withoutSpans := by
  have hdeclared : ((units.map CompilationUnit.withoutSpans).mapIdx CompilationUnit.declare).flatten =
      ((units.mapIdx CompilationUnit.declare).flatten).map Declared.withoutSpans := by
    rw [mapIdx_map_eq CompilationUnit.declare_withoutSpans, List.map_flatten]
  have hkeys : ∀ es : List Declared, (es.map Declared.withoutSpans).map Declared.key =
      es.map Declared.key := fun es => List.map_map
  have hspaces : ((units.map CompilationUnit.withoutSpans).flatMap fun u =>
      NamespaceMember.spacesAll none u.members) =
        units.flatMap fun u => NamespaceMember.spacesAll none u.members := by
    simp only [List.flatMap_map, CompilationUnit.withoutSpans,
      NamespaceMember.spacesAll_withoutSpans]
  simp only [ofUnits, withoutSpans, hdeclared, hkeys, hspaces]

variable (d : Declarations)

theorem keyOf?_withoutSpans : d.withoutSpans.keyOf? = d.keyOf? := by
  funext id
  rw [keyOf?, keyOf?, withoutSpans, List.find?_map, Option.map_map]
  rfl

theorem sitesOf_withoutSpans (k : DefinitionKey) :
    d.withoutSpans.sitesOf k = (d.sitesOf k).map TypeSite.withoutSpans := by
  rw [sitesOf, sitesOf, withoutSpans, List.filter_map, List.map_map, List.map_map]
  rfl

theorem headOf?_withoutSpans (k : DefinitionKey) :
    d.withoutSpans.headOf? k = (d.headOf? k).map TypeHead.withoutSpans := by
  rw [headOf?, headOf?, sitesOf_withoutSpans, List.head?_map, Option.map_map, Option.map_map]
  rfl

theorem kindOf?_withoutSpans : d.withoutSpans.kindOf? = d.kindOf? := by
  have hkind : ∀ h : TypeHead, h.withoutSpans.form.kind = h.form.kind := fun h => by
    cases hform : h.form <;> simp only [TypeHead.withoutSpans, TypeForm.withoutSpans, hform,
      TypeForm.kind]
  funext k
  rw [kindOf?, kindOf?, headOf?_withoutSpans, Option.map_map]
  exact congrArg (Option.map · _) (funext hkind)

/-! ## Scopes -/

end Declarations

theorem importsOf_withoutSpans (us : List UsingDirective) :
    importsOf (us.map UsingDirective.withoutSpans) = importsOf us := by
  rw [importsOf, importsOf, List.filterMap_map]
  rfl

theorem aliasesOf_withoutSpans (us : List UsingDirective) :
    aliasesOf (us.map UsingDirective.withoutSpans) = aliasesOf us := by
  funext home
  rw [aliasesOf, aliasesOf, List.filterMap_map]
  rfl

namespace Declarations

variable (d : Declarations)

theorem usingsOf_withoutSpans (tree : Nat) :
    d.withoutSpans.usingsOf tree = (d.usingsOf tree).map UsingDirective.withoutSpans := by
  rw [usingsOf, usingsOf, withoutSpans, List.getElem?_map]
  cases d.units[tree]? <;> rfl

theorem foreignGlobals_withoutSpans (tree : Nat) : d.withoutSpans.foreignGlobals tree =
    (d.foreignGlobals tree).map fun g => (g.1, g.2.withoutSpans) := by
  have hglobals : d.withoutSpans.globalUsings =
      d.globalUsings.map fun g => (g.1, g.2.withoutSpans) := by
    rw [globalUsings, globalUsings, List.map_flatten, withoutSpans]
    refine congrArg List.flatten (mapIdx_map_eq (fun i u => ?_) d.units)
    rw [CompilationUnit.withoutSpans, List.filter_map, List.map_map, List.map_map]
    rfl
  rw [foreignGlobals, foreignGlobals, hglobals, List.filter_map]
  rfl

theorem unitLevel_withoutSpans (tree : Nat) : d.withoutSpans.unitLevel tree = d.unitLevel tree := by
  have hforeign : ((d.foreignGlobals tree).map fun g => (g.1, g.2.withoutSpans)).map Prod.snd =
      ((d.foreignGlobals tree).map Prod.snd).map UsingDirective.withoutSpans := by
    rw [List.map_map, List.map_map]
    rfl
  rw [unitLevel, unitLevel, usingsOf_withoutSpans, foreignGlobals_withoutSpans, hforeign,
    ← List.map_append, importsOf_withoutSpans]

theorem outermostLevel_withoutSpans (tree : Nat) :
    d.withoutSpans.outermostLevel tree = d.outermostLevel tree := by
  have hone : ∀ g : UsingDirective, aliasesOf [g.withoutSpans] = aliasesOf [g] := fun g =>
    aliasesOf_withoutSpans [g]
  simp only [outermostLevel, unitLevel_withoutSpans, usingsOf_withoutSpans, aliasesOf_withoutSpans,
    foreignGlobals_withoutSpans, List.flatMap_map, hone]

theorem levelsWithin_withoutSpans (outer : Option String) (around : List Level)
    (heads : List NamespaceHead) :
    levelsWithin outer around (heads.map NamespaceHead.withoutSpans) =
      levelsWithin outer around heads := by
  induction heads generalizing outer around with
  | nil => rfl
  | cons head heads ih =>
    have hplain : namespaceLevel outer head.withoutSpans = namespaceLevel outer head := by
      rw [namespaceLevel, namespaceLevel, NamespaceHead.withoutSpans, importsOf_withoutSpans]
    have haliases : aliasesOf head.withoutSpans.usings = aliasesOf head.usings :=
      aliasesOf_withoutSpans head.usings
    rw [List.map_cons, levelsWithin, levelsWithin, ih, hplain, haliases]
    rfl

/-- **Names stand in the same scopes.** -/
theorem scopeAt_withoutSpans (t : TypeSite) :
    d.withoutSpans.scopeAt t.withoutSpans = d.scopeAt t := by
  have hlevels : d.withoutSpans.levelsAt t.site.withoutSpans = d.levelsAt t.site := by
    rw [levelsAt, levelsAt, Site.withoutSpans, levelsWithin_withoutSpans,
      outermostLevel_withoutSpans]
  rw [scopeAt, scopeAt, keyOf?_withoutSpans]
  exact congrArg (Scope.mk [] _) hlevels

end Declarations

/-! ## What is known of types -/

theorem Site.directives_withoutSpans (s : Site) :
    s.withoutSpans.directives = s.directives.map UsingDirective.withoutSpans := by
  simp only [directives, withoutSpans, ← List.map_reverse, List.flatMap_map, List.map_append,
    List.map_flatMap, NamespaceHead.withoutSpans, CompilationUnit.withoutSpans]

/-- The method without its span. -/
def MethodSymbol.withoutSpans (m : MethodSymbol) : MethodSymbol := { m with span := none }

/-- The type, its declarations and its methods without spans. -/
def Definition.withoutSpans (d : Definition) : Definition :=
  { d with
    sites := d.sites.map TypeSite.withoutSpans
    methods := d.methods.map MethodSymbol.withoutSpans }

/-- The program without spans. -/
def Program.withoutSpans (p : Program) : Program := ⟨p.definitions.map Definition.withoutSpans⟩

theorem Definition.resembles_withoutSpans (d : Definition) : d.withoutSpans.Resembles d where
  kind_eq := rfl
  accessibility_eq := rfl
  typeParameters_eq := rfl
  baseType_eq := rfl
  interfaces_eq := rfl
  imports_eq := by
    have hdirectives : (d.sites.map TypeSite.withoutSpans).flatMap (fun t => t.site.directives) =
        (d.sites.flatMap fun t => t.site.directives).map UsingDirective.withoutSpans := by
      simp only [List.flatMap_map, List.map_flatMap, TypeSite.withoutSpans,
        Site.directives_withoutSpans]
    have himports (d : Definition) : d.imports =
        (((d.sites.flatMap fun t => t.site.directives).filter fun u => !u.isGlobal).map
          UsingDirective.text).eraseDups := rfl
    rw [himports, himports, withoutSpans, hdirectives, List.filter_map, List.map_map]
    rfl

namespace Program

variable (p : Program)

theorem definition?_withoutSpans (k : DefinitionKey) :
    p.withoutSpans.definition? k = (p.definition? k).map Definition.withoutSpans := by
  rw [definition?, definition?, withoutSpans, List.find?_map]
  rfl

/-- **Of the types of a program the same is known without spans.** -/
theorem resembles_withoutSpans : p.withoutSpans.Resembles p where
  definition? k := by
    rw [definition?_withoutSpans]
    cases p.definition? k with
    | none => exact .none
    | some d => exact .some d.resembles_withoutSpans
  length := List.length_map _

theorem methods_withoutSpans (t : TypeSymbol) :
    p.withoutSpans.methods t = (p.methods t).map MethodSymbol.withoutSpans := by
  rw [methods, methods, p.resembles_withoutSpans.arguments_eq]
  cases hk : t.key? with
  | none => simp [definitionOf?, hk]
  | some k =>
    simp only [definitionOf?, hk, Option.bind_eq_bind, Option.bind_some, definition?_withoutSpans]
    cases p.definition? k with
    | none => rfl
    | some d =>
      simp only [Option.map_some, Definition.withoutSpans, List.map_map]
      rfl

end Program

/-! ## Binding -/

theorem accessibilityOf_withoutSpans (outerKind : Option TypeKind) (sites : List TypeSite) :
    accessibilityOf outerKind (sites.map TypeSite.withoutSpans) = accessibilityOf outerKind sites := by
  have hfind : ((sites.map TypeSite.withoutSpans).find? fun s =>
      s.head.modifiers.any Accessibility.words.contains) =
        (sites.find? fun s => s.head.modifiers.any Accessibility.words.contains).map
          TypeSite.withoutSpans := List.find?_map ..
  unfold accessibilityOf
  dsimp only
  rw [hfind]
  cases sites.find? fun s => s.head.modifiers.any Accessibility.words.contains <;> rfl

theorem TypeParameter.ofSyntax_withoutSpans (owner : String) (ps : List TypeParameterSyntax) :
    ofSyntax owner (ps.map TypeParameterSyntax.withoutSpans) = ofSyntax owner ps :=
  List.ext_getElem (by simp [ofSyntax]) fun i _ _ => by
    simp [ofSyntax, TypeParameterSyntax.withoutSpans]

theorem Declarations.define_withoutSpans (d : Declarations) (k : DefinitionKey) :
    d.withoutSpans.define k = (d.define k).map Definition.withoutSpans := by
  rw [define, define, headOf?_withoutSpans, kindOf?_withoutSpans, sitesOf_withoutSpans]
  cases d.headOf? k with
  | none => rfl
  | some head =>
    have hform : head.form.withoutSpans.kind = head.form.kind ∧
        head.form.withoutSpans.isRecord = head.form.isRecord := by
      cases head.form <;> exact ⟨rfl, rfl⟩
    simp [TypeHead.withoutSpans, hform, accessibilityOf_withoutSpans,
      TypeParameter.ofSyntax_withoutSpans, Definition.withoutSpans]

/-- The declared types without spans. -/
def Environment.withoutSpans (e : Environment) : Environment :=
  ⟨e.declarations.withoutSpans, e.program.withoutSpans⟩

namespace Environment

theorem ofUnits_withoutSpans (units : List CompilationUnit) :
    ofUnits (units.map CompilationUnit.withoutSpans) = (ofUnits units).withoutSpans := by
  have hdefine : (Declarations.ofUnits units).withoutSpans.define =
      fun k => ((Declarations.ofUnits units).define k).map Definition.withoutSpans :=
    funext fun k => Declarations.define_withoutSpans _ k
  simp only [ofUnits, Declarations.ofUnits_withoutSpans, hdefine, withoutSpans,
    Program.withoutSpans, List.map_filterMap]
  rfl

variable (e : Environment)

/-- **Written types have the same meanings.** -/
theorem resolve_withoutSpans : e.withoutSpans.resolve = e.resolve := by
  have hcontaining : e.withoutSpans.lookupContaining = e.lookupContaining := by
    funext name arity k
    rw [lookupContaining, lookupContaining, withoutSpans,
      e.program.resembles_withoutSpans.typeParameters_eq]
    rfl
  have hlookup : e.withoutSpans.lookup = e.lookup := by
    funext s name arity
    rw [lookup, lookup, hcontaining]
    rfl
  funext s t
  rw [resolve, resolve, hlookup]
  rfl

theorem basesOf_withoutSpans (kind : TypeKind) (sites : List TypeSite) :
    e.withoutSpans.basesOf kind (sites.map TypeSite.withoutSpans) = e.basesOf kind sites := by
  have hadd : e.withoutSpans.addBases = e.addBases :=
    addBases_eq e.program.resembles_withoutSpans.kind_eq
  rw [basesOf, basesOf, List.foldl_map]
  simp only [hadd, resolve_withoutSpans]
  congr 1
  funext b s
  exact congrArg (fun scope => e.addBases kind b (s.head.baseTypes.map (e.resolve scope)))
    (Declarations.scopeAt_withoutSpans _ s)

theorem bindMethod_withoutSpans (owner : DefinitionKey) (kind : TypeKind) (scope : Scope)
    (m : MethodDeclaration) : e.withoutSpans.bindMethod owner kind scope m.withoutSpans =
      (e.bindMethod owner kind scope m).withoutSpans := by
  have hconstraint : e.withoutSpans.bindConstraint = e.bindConstraint := by
    funext s c
    cases c with
    | special => rfl
    | type t => rw [bindConstraint, bindConstraint, resolve_withoutSpans]
  simp only [bindMethod, MethodDeclaration.withoutSpans, MethodSymbol.withoutSpans,
    resolve_withoutSpans, hconstraint, TypeParameter.ofSyntax_withoutSpans, List.length_map,
    List.map_map]
  rfl

theorem methodsAt_withoutSpans (owner : DefinitionKey) (kind : TypeKind) (t : TypeSite) :
    e.withoutSpans.methodsAt owner kind t.withoutSpans =
      (e.methodsAt owner kind t).map MethodSymbol.withoutSpans := by
  have hscope : e.withoutSpans.declarations.scopeAt t.withoutSpans = e.declarations.scopeAt t :=
    Declarations.scopeAt_withoutSpans _ t
  have hmembers : t.withoutSpans.declaration.members =
      t.declaration.members.map Member.withoutSpans := Member.withoutSpansAll_eq _
  rw [methodsAt, methodsAt, hscope, hmembers, List.filterMap_map, List.map_filterMap]
  congr 1
  funext m
  cases m with
  | method m => exact congrArg some (bindMethod_withoutSpans e owner kind _ m)
  | _ => rfl

/-- **A type is bound alike.** -/
theorem bind_withoutSpans (d : Definition) :
    e.withoutSpans.bind d.withoutSpans = (e.bind d).withoutSpans := by
  have hmethods : (d.sites.map TypeSite.withoutSpans).flatMap (e.withoutSpans.methodsAt d.key d.kind) =
      (d.sites.flatMap (e.methodsAt d.key d.kind)).map MethodSymbol.withoutSpans := by
    simp only [List.flatMap_map, List.map_flatMap, methodsAt_withoutSpans]
  cases hkind : d.kind <;> rw [hkind] at hmethods <;>
    simp only [bind, Definition.withoutSpans, hkind, basesOf_withoutSpans, hmethods]

end Environment

/-- The model without spans. -/
def Model.withoutSpans (m : Model) : Model := ⟨m.environment.withoutSpans, m.program.withoutSpans⟩

/-- **Sources without their spans have the same model**, but for its spans. -/
theorem Model.ofUnits_withoutSpans (units : List CompilationUnit) :
    ofUnits (units.map CompilationUnit.withoutSpans) = (ofUnits units).withoutSpans := by
  have hbind : ∀ (e : Environment) (ds : List Definition),
      (ds.map Definition.withoutSpans).map e.withoutSpans.bind =
        (ds.map e.bind).map Definition.withoutSpans := fun e ds => by
    simp only [List.map_map, Function.comp_def, Environment.bind_withoutSpans]
  rw [ofUnits, ofUnits, Environment.ofUnits_withoutSpans]
  exact congrArg (fun ds => Model.mk _ ⟨ds⟩) (hbind _ _)

end Facade
