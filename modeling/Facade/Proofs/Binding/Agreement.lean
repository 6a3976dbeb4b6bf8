import Facade.Proofs.Binding.Merging

/-!
# Programs that agree

When two sets of sources declare the same types and namespaces, and the declarations of each type say
the same things in scopes with the same meanings, then the two programs agree: they differ at most in
where the declarations stand.

* `Declarations.KnowsSame`: the same types and namespaces are declared;
* `TypeSite.Alike`, `Definition.Agrees`, `Program.Agrees`: types with declarations that read alike;
* `Program.BasedAlike`, `Program.BasedAlike.allInterfaces_eq`: which interfaces are behind a type depends
  on base lists only;
* `Program.Resembles`, `Program.Resembles.display_eq`, `Program.Resembles.allInterfaces_eq`: what is
  known of types does not depend on methods;
* `Declarations.SameSource`: sources that see the same using directives;
* `Environment.SameAt`: written types have the same meanings at two declarations;
* **`Model.agrees`**: programs whose declarations read alike and mean the same agree;
* `Member.forall₂_declare`: the declarations in a type at two places.
-/

namespace Facade

/-! ## Names -/

/-- The same types and namespaces are declared. -/
structure Declarations.KnowsSame (d d' : Declarations) : Prop where
  keys : ∀ k, k ∈ d.keys ↔ k ∈ d'.keys
  spaces : ∀ n, n ∈ d.spaces ↔ n ∈ d'.spaces

namespace Declarations.KnowsSame

variable {d d' : Declarations} (h : d.KnowsSame d')

include h

theorem type?_eq : d.type? = d'.type? := by
  funext k
  simp only [type?, h.keys]

theorem inSpaces_eq : d.inSpaces = d'.inSpaces := by
  funext spaces name arity
  simp only [inSpaces, h.type?_eq]

theorem lookupPlain_eq : d.lookupPlain = d'.lookupPlain := by
  funext levels name arity
  simp only [lookupPlain, inLevel, inImports, h.inSpaces_eq]

theorem descend_eq : d.descend = d'.descend := by
  have hstep : d.step = d'.step := by
    funext current p
    simp only [step, h.type?_eq]
  funext start parts
  rw [descend, descend, hstep]

theorem longestQualified_eq : d.longestQualified = d'.longestQualified := by
  funext spaces parts
  simp only [longestQualified, inQualified, h.spaces, h.type?_eq]

theorem resolveName_eq : d.resolveName = d'.resolveName := by
  funext simple spaces isGlobal parts
  simp only [resolveName, h.type?_eq, h.descend_eq, h.longestQualified_eq]

theorem resolveAlias_eq : d.resolveAlias = d'.resolveAlias := by
  funext a
  simp only [resolveAlias, resolvePlain, h.resolveName_eq, h.lookupPlain_eq]

theorem lookupLevel_eq : d.lookupLevel = d'.lookupLevel := by
  funext l name arity
  simp only [lookupLevel, inLevel, inImports, h.inSpaces_eq, h.resolveAlias_eq]

end Declarations.KnowsSame

/-! ## Types -/

/-- The using directives around a place, those of inner namespaces before those further out. -/
def Site.directives (s : Site) : List UsingDirective :=
  s.namespaces.reverse.flatMap NamespaceHead.usings ++ s.unit.usings

/-- Two declarations that say the same, under the same using directives. -/
structure TypeSite.Alike (t t' : TypeSite) : Prop where
  declaration : t.declaration = t'.declaration
  directives : t.site.directives = t'.site.directives

/-- Two types that are based on the same. -/
structure Definition.BasedAlike (d d' : Definition) : Prop where
  typeParameters_eq : d.typeParameters = d'.typeParameters
  baseType_eq : d.baseType = d'.baseType
  interfaces_eq : d.interfaces = d'.interfaces

/-- Two programs with the same types, which are based on the same. -/
structure Program.BasedAlike (p p' : Program) : Prop where
  definition? : ∀ k, Option.Rel Definition.BasedAlike (p.definition? k) (p'.definition? k)
  length : p.definitions.length = p'.definitions.length

/-- Two types of which the same is known, but for their methods. -/
structure Definition.Resembles (d d' : Definition) : Prop where
  kind_eq : d.kind = d'.kind
  accessibility_eq : d.accessibility = d'.accessibility
  typeParameters_eq : d.typeParameters = d'.typeParameters
  baseType_eq : d.baseType = d'.baseType
  interfaces_eq : d.interfaces = d'.interfaces
  imports_eq : d.imports = d'.imports

/-- Two programs with the same types, of which the same is known but for their methods. -/
structure Program.Resembles (p p' : Program) : Prop where
  definition? : ∀ k, Option.Rel Definition.Resembles (p.definition? k) (p'.definition? k)
  length : p.definitions.length = p'.definitions.length

/-- Two types that differ at most in where their declarations stand. -/
structure Definition.Agrees (d d' : Definition) : Prop where
  eq : d' = { d with sites := d'.sites }
  sites : List.Forall₂ TypeSite.Alike d.sites d'.sites

/-- Two programs with the same types, which differ at most in where their declarations stand. -/
structure Program.Agrees (p p' : Program) : Prop extends p.Resembles p' where
  agrees? : ∀ k, Option.Rel Definition.Agrees (p.definition? k) (p'.definition? k)

theorem map_eq_of_forall₂ {α β γ : Type} {R : α → β → Prop} {f : α → γ} {g : β → γ}
    (hR : ∀ a b, R a b → f a = g b) {xs : List α} {ys : List β} (h : List.Forall₂ R xs ys) :
    xs.map f = ys.map g := by
  have hmap : List.Forall₂ Eq (xs.map f) (ys.map g) := List.rel_map (fun a b hab => hR a b hab) h
  rwa [List.forall₂_eq_eq_eq] at hmap

theorem forall₂_of_mem {α β : Type} {R S : α → β → Prop} {xs : List α} {ys : List β}
    (h : List.Forall₂ R xs ys) (hS : ∀ a ∈ xs, ∀ b ∈ ys, R a b → S a b) : List.Forall₂ S xs ys := by
  obtain ⟨hlength, hR⟩ := List.forall₂_iff_zip.mp h
  exact List.forall₂_iff_zip.mpr ⟨hlength, fun hab =>
    hS _ (List.of_mem_zip hab).1 _ (List.of_mem_zip hab).2 (hR hab)⟩

theorem both_of_rel {α β : Type} {R : α → β → Prop} {o : Option α} {o' : Option β}
    (h : Option.Rel R o o') : (o = none ∧ o' = none) ∨ ∃ a b, o = some a ∧ o' = some b ∧ R a b := by
  cases h with
  | none => exact Or.inl ⟨rfl, rfl⟩
  | some hab => exact Or.inr ⟨_, _, rfl, rfl, hab⟩

namespace Definition.Agrees

variable {d d' : Definition} (h : d.Agrees d')

include h

theorem kind_eq : d.kind = d'.kind := by rw [h.eq]

theorem accessibility_eq : d.accessibility = d'.accessibility := by rw [h.eq]

theorem typeParameters_eq : d.typeParameters = d'.typeParameters := by rw [h.eq]

theorem baseType_eq : d.baseType = d'.baseType := by rw [h.eq]

theorem interfaces_eq : d.interfaces = d'.interfaces := by rw [h.eq]

theorem methods_eq : d.methods = d'.methods := by rw [h.eq]

theorem imports_eq : d.imports = d'.imports := by
  have hdirectives := map_eq_of_forall₂ (fun _ _ ha => TypeSite.Alike.directives ha) h.sites
  have himports (d : Definition) : d.imports =
      ((((d.sites.map fun t => t.site.directives).flatten).filter fun u => !u.isGlobal).map
        UsingDirective.text).eraseDups := rfl
  rw [himports, himports, hdirectives]

theorem resembles : d.Resembles d' :=
  ⟨h.kind_eq, h.accessibility_eq, h.typeParameters_eq, h.baseType_eq, h.interfaces_eq, h.imports_eq⟩

end Definition.Agrees

namespace Program.BasedAlike

variable {p p' : Program} (h : p.BasedAlike p')

include h

theorem both (k : DefinitionKey) : (p.definition? k = none ∧ p'.definition? k = none) ∨
    ∃ d d', p.definition? k = some d ∧ p'.definition? k = some d' ∧ d.BasedAlike d' :=
  both_of_rel (h.definition? k)

theorem bothOf (t : TypeSymbol) : (p.definitionOf? t = none ∧ p'.definitionOf? t = none) ∨
    ∃ d d', p.definitionOf? t = some d ∧ p'.definitionOf? t = some d' ∧ d.BasedAlike d' := by
  cases hk : t.key? with
  | none => simp [definitionOf?, hk]
  | some k => simpa [definitionOf?, hk] using h.both k

theorem typeParameters_eq : p.typeParameters = p'.typeParameters := by
  funext k
  rcases h.both k with ⟨hd, hd'⟩ | ⟨d, d', hd, hd', ha⟩
  · simp only [typeParameters, hd, hd']
  · simp only [typeParameters, hd, hd', ha.typeParameters_eq]

theorem arguments_eq : p.arguments = p'.arguments := by
  funext t
  cases t <;> simp only [arguments, h.typeParameters_eq]

theorem interfaces_eq : p.interfaces = p'.interfaces := by
  funext t
  rcases h.bothOf t with ⟨hd, hd'⟩ | ⟨d, d', hd, hd', ha⟩
  · simp only [interfaces, hd, hd']
  · simp only [interfaces, hd, hd', ha.interfaces_eq, h.arguments_eq]

theorem baseType?_eq : p.baseType? = p'.baseType? := by
  funext t
  rcases h.bothOf t with ⟨hd, hd'⟩ | ⟨d, d', hd, hd', ha⟩
  · rw [baseType?, baseType?, hd, hd']
    rfl
  · rw [baseType?, baseType?, hd, hd', Option.bind_eq_bind, Option.bind_eq_bind, Option.bind_some,
      Option.bind_some, ha.baseType_eq, h.arguments_eq]

theorem visitInterface_eq (depth : Nat) : p.visitInterface depth = p'.visitInterface depth := by
  induction depth with
  | zero => rfl
  | succ depth ih =>
    funext active found t
    simp only [visitInterface, h.interfaces_eq, ih]

theorem visitType_eq (depth : Nat) : p.visitType depth = p'.visitType depth := by
  induction depth with
  | zero => rfl
  | succ depth ih =>
    funext active found t
    simp only [visitType, h.interfaces_eq, h.visitInterface_eq, h.baseType?_eq, ih]

/-- **Where types are based on the same, the same interfaces are behind every type.** -/
theorem allInterfaces_eq : p.allInterfaces = p'.allInterfaces := by
  funext t
  rw [allInterfaces, allInterfaces, searchDepth, searchDepth, h.length, h.visitType_eq]

end Program.BasedAlike

namespace Program.Resembles

variable {p p' : Program}

section

variable (h : p.Resembles p')

include h

theorem both (k : DefinitionKey) : (p.definition? k = none ∧ p'.definition? k = none) ∨
    ∃ d d', p.definition? k = some d ∧ p'.definition? k = some d' ∧ d.Resembles d' :=
  both_of_rel (h.definition? k)

theorem bothOf (t : TypeSymbol) : (p.definitionOf? t = none ∧ p'.definitionOf? t = none) ∨
    ∃ d d', p.definitionOf? t = some d ∧ p'.definitionOf? t = some d' ∧ d.Resembles d' := by
  cases hk : t.key? with
  | none => simp [definitionOf?, hk]
  | some k => simpa [definitionOf?, hk] using h.both k

theorem basedAlike : p.BasedAlike p' where
  definition? k := by
    rcases h.both k with ⟨hd, hd'⟩ | ⟨d, d', hd, hd', ha⟩ <;> rw [hd, hd']
    · exact .none
    · exact .some ⟨ha.typeParameters_eq, ha.baseType_eq, ha.interfaces_eq⟩
  length := h.length

theorem typeParameters_eq : p.typeParameters = p'.typeParameters := h.basedAlike.typeParameters_eq

theorem arguments_eq : p.arguments = p'.arguments := h.basedAlike.arguments_eq

theorem typeArguments_eq : p.typeArguments = p'.typeArguments := by
  funext t
  cases t <;> simp only [typeArguments, h.typeParameters_eq]

theorem imports_eq : p.imports = p'.imports := by
  funext t
  rcases h.bothOf t with ⟨hd, hd'⟩ | ⟨d, d', hd, hd', ha⟩
  · simp only [imports, hd, hd']
  · simp only [imports, hd, hd', ha.imports_eq]

theorem accessibility?_eq : p.accessibility? = p'.accessibility? := by
  funext t
  rcases h.bothOf t with ⟨hd, hd'⟩ | ⟨d, d', hd, hd', ha⟩
  · simp only [accessibility?, hd, hd']
  · simp only [accessibility?, hd, hd', Option.map_some, ha.accessibility_eq]

/-- **Programs that agree have the same interfaces behind every type.** -/
theorem allInterfaces_eq : p.allInterfaces = p'.allInterfaces := h.basedAlike.allInterfaces_eq

theorem qualifiedName_eq : p.qualifiedName = p'.qualifiedName := by
  funext k
  induction k with
  | topLevel => rfl
  | nested o n a ih => rw [qualifiedName, qualifiedName, ih, h.typeParameters_eq]

end

theorem kind_apply (h : p.Resembles p') : (t : TypeSymbol) → p.kind t = p'.kind t
  | .special _ | .parameter _ | .unresolved .. | .array .. | .pointer _ | .tuple _ => rfl
  | .nullable e => by rw [kind, kind, kind_apply h e]
  | .definition k | .constructed k _ => by
    rcases h.both k with ⟨hd, hd'⟩ | ⟨d, d', hd, hd', ha⟩
    · simp only [kind, hd, hd']
    · simp only [kind, hd, hd', ha.kind_eq]

theorem kind_eq (h : p.Resembles p') : p.kind = p'.kind := funext h.kind_apply

mutual

theorem display_apply (h : p.Resembles p') : (t : TypeSymbol) → p.display t = p'.display t
  | .special _ | .parameter _ => rfl
  | .unresolved n as => by rw [display, display, displayAll_apply h as]
  | .array e r => by rw [display, display, display_apply h e]
  | .nullable e => by rw [display, display, display_apply h e]
  | .pointer e => by rw [display, display, display_apply h e]
  | .tuple es => by rw [display, display, displayElements_apply h es]
  | .definition k => by
    rw [display, display, definitionText, definitionText, h.qualifiedName_eq, h.typeParameters_eq]
  | .constructed k as => by rw [display, display, displayAll_apply h as, h.qualifiedName_eq]

theorem displayAll_apply (h : p.Resembles p') : (ts : List TypeSymbol) →
    p.displayAll ts = p'.displayAll ts
  | [] => rfl
  | t :: ts => by rw [displayAll, displayAll, display_apply h t, displayAll_apply h ts]

theorem displayElements_apply (h : p.Resembles p') : (es : List (TypeSymbol × Option String)) →
    p.displayElements es = p'.displayElements es
  | [] => rfl
  | (t, n) :: es => by
    rw [displayElements, displayElements, display_apply h t, displayElements_apply h es]

end

theorem display_eq (h : p.Resembles p') : p.display = p'.display := funext h.display_apply

end Program.Resembles

namespace Program.Agrees

variable {p p' : Program}

theorem of_agrees? (h : ∀ k, Option.Rel Definition.Agrees (p.definition? k) (p'.definition? k))
    (hlength : p.definitions.length = p'.definitions.length) : p.Agrees p' where
  definition? k := by
    rcases both_of_rel (h k) with ⟨hd, hd'⟩ | ⟨d, d', hd, hd', ha⟩ <;> rw [hd, hd']
    · exact .none
    · exact .some ha.resembles
  length := hlength
  agrees? := h

variable (h : p.Agrees p')

include h

theorem both (k : DefinitionKey) : (p.definition? k = none ∧ p'.definition? k = none) ∨
    ∃ d d', p.definition? k = some d ∧ p'.definition? k = some d' ∧ d.Agrees d' :=
  both_of_rel (h.agrees? k)

theorem methods_eq : p.methods = p'.methods := by
  funext t
  cases hk : t.key? with
  | none => simp [methods, definitionOf?, hk]
  | some k =>
    rcases h.both k with ⟨hd, hd'⟩ | ⟨d, d', hd, hd', ha⟩
    · simp [methods, definitionOf?, hk, hd, hd']
    · simp [methods, definitionOf?, hk, hd, hd', ha.methods_eq, h.arguments_eq]

end Program.Agrees

/-! ## Scopes -/

/-- Two sources with the same using directives, those of others included. -/
structure Declarations.SameSource (d d' : Declarations) (i j : Nat) : Prop where
  usings : d.usingsOf i = d'.usingsOf j
  globals : d.foreignGlobals i = d'.foreignGlobals j

namespace Declarations

variable {d d' : Declarations}

theorem SameSource.unitLevel_eq {i j : Nat} (h : SameSource d d' i j) :
    d.unitLevel i = d'.unitLevel j := by
  rw [unitLevel, unitLevel, h.usings, h.globals]

theorem SameSource.outermostLevel_eq {i j : Nat} (h : SameSource d d' i j)
    (hforeign : ∀ g ∈ d'.foreignGlobals j, SameSource d d' g.1 g.1) :
    d.outermostLevel i = d'.outermostLevel j := by
  have hforeign : ((d'.foreignGlobals j).flatMap fun g => aliasesOf [g.2] [d.unitLevel g.1]) =
      (d'.foreignGlobals j).flatMap fun g => aliasesOf [g.2] [d'.unitLevel g.1] := by
    rw [List.flatMap_def, List.flatMap_def]
    congr 1
    exact List.map_congr_left fun g hg => by rw [(hforeign g hg).unitLevel_eq]
  rw [outermostLevel, outermostLevel, h.unitLevel_eq, h.usings, h.globals, hforeign]

end Declarations

/-! ## Binding -/

theorem headMap_eq {sites sites' : List TypeSite} (h : List.Forall₂ TypeSite.Alike sites sites') :
    sites.map TypeSite.head = sites'.map TypeSite.head :=
  map_eq_of_forall₂ (fun _ _ ha => congrArg TypeDeclaration.head ha.declaration) h

theorem accessibilityOf_eq_of_heads {sites sites' : List TypeSite} (outerKind : Option TypeKind)
    (h : sites.map TypeSite.head = sites'.map TypeSite.head) :
    accessibilityOf outerKind sites = accessibilityOf outerKind sites' := by
  have hfind (ts : List TypeSite) :
      (ts.find? fun s => s.head.modifiers.any Accessibility.words.contains).map TypeSite.head =
        (ts.map TypeSite.head).find? fun h => h.modifiers.any Accessibility.words.contains := by
    rw [List.find?_map]
    rfl
  have hfound := hfind sites
  rw [h, ← hfind] at hfound
  unfold accessibilityOf
  dsimp only
  cases hs : sites.find? fun s => s.head.modifiers.any Accessibility.words.contains with
  | none =>
    rw [hs, Option.map_none, eq_comm, Option.map_eq_none_iff] at hfound
    rw [hfound]
  | some s =>
    rw [hs, Option.map_some, eq_comm, Option.map_eq_some_iff] at hfound
    obtain ⟨s', hs', hhead⟩ := hfound
    simp only [hs', hhead]

namespace Declarations

theorem mem_keys_iff_sitesOf {units : List CompilationUnit} {k : DefinitionKey} :
    k ∈ (ofUnits units).keys ↔ (ofUnits units).sitesOf k ≠ [] := by
  rw [mem_keys]
  constructor
  · rintro ⟨e, he, rfl⟩
    exact List.ne_nil_of_mem (mem_sitesOf.mpr he)
  · intro h
    obtain ⟨t, ht⟩ := List.exists_mem_of_ne_nil _ h
    exact ⟨⟨k, t⟩, mem_sitesOf.mp ht, rfl⟩

/-- The same types are declared if each has declarations in both sets of sources or in none. -/
theorem mem_keys_congr {units units' : List CompilationUnit} {R : TypeSite → TypeSite → Prop}
    {k : DefinitionKey} (h : List.Forall₂ R ((ofUnits units).sitesOf k) ((ofUnits units').sitesOf k)) :
    k ∈ (ofUnits units).keys ↔ k ∈ (ofUnits units').keys := by
  rw [mem_keys_iff_sitesOf, mem_keys_iff_sitesOf, ← List.length_pos_iff, ← List.length_pos_iff,
    h.length_eq]

variable {d d' : Declarations}

/-- **Types whose declarations read alike are declared alike.** -/
theorem define_agrees (h : ∀ k, List.Forall₂ TypeSite.Alike (d.sitesOf k) (d'.sitesOf k))
    (k : DefinitionKey) : Option.Rel Definition.Agrees (d.define k) (d'.define k) := by
  have hheads : d.headOf? = d'.headOf? := by
    funext k
    rw [headOf?, headOf?, ← List.head?_map, ← List.head?_map, headMap_eq (h k)]
  have hkind : d.kindOf? = d'.kindOf? := by
    funext k
    rw [kindOf?, kindOf?, hheads]
  rw [define, define, ← hheads, ← hkind]
  cases hhead : d.headOf? k with
  | none => exact .none
  | some head =>
    refine .some ⟨?_, h k⟩
    simp only [accessibilityOf_eq_of_heads _ (headMap_eq (h k))]

end Declarations

namespace Environment

variable {e e' : Environment}

theorem resolve_eq_of_lookup {s s' : Scope} (h : e.declarations.KnowsSame e'.declarations)
    (hlookup : e.lookup s = e'.lookup s')
    (hspaces : (s.levels.flatMap fun l => l.plain.spaces) = s'.levels.flatMap fun l => l.plain.spaces) :
    e.resolve s = e'.resolve s' := by
  funext t
  rw [resolve, resolve, h.resolveName_eq, hlookup, hspaces]

theorem lookupContaining_eq (h : e.declarations.KnowsSame e'.declarations)
    (hprogram : e.program.Agrees e'.program) : e.lookupContaining = e'.lookupContaining := by
  funext name arity k
  rw [lookupContaining, lookupContaining, hprogram.typeParameters_eq, h.type?_eq]

theorem lookup_eq (h : e.declarations.KnowsSame e'.declarations)
    (hprogram : e.program.Agrees e'.program) : e.lookup = e'.lookup := by
  funext s name arity
  rw [lookup, lookup, lookupContaining_eq h hprogram, h.lookupLevel_eq]

/-- Written types mean the same at two declarations, with any type parameters of a method. -/
def SameAt (e e' : Environment) (t t' : TypeSite) : Prop :=
  ∀ ps, e.resolve { e.declarations.scopeAt t with methodParameters := ps } =
    e'.resolve { e'.declarations.scopeAt t' with methodParameters := ps }

theorem SameAt.resolve_eq {t t' : TypeSite} (h : e.SameAt e' t t') :
    e.resolve (e.declarations.scopeAt t) = e'.resolve (e'.declarations.scopeAt t') := h []

theorem addBases_eq (hkind : e.program.kind = e'.program.kind) : e.addBases = e'.addBases := by
  have hadd : e.addBase = e'.addBase := by
    funext kind isFirst b t
    simp only [addBase, hkind]
  funext kind b ts
  cases ts with
  | nil => rfl
  | cons t ts => rw [addBases, addBases, hadd]

theorem basesOf_eq (hkind : e.program.kind = e'.program.kind) (kind : TypeKind)
    {sites sites' : List TypeSite}
    (h : List.Forall₂ (fun t t' => t.Alike t' ∧ e.SameAt e' t t') sites sites') :
    e.basesOf kind sites = e'.basesOf kind sites' := by
  refine List.rel_foldl (P := Eq) ?_ rfl h
  rintro b _ rfl t t' ⟨halike, hsame⟩
  simp only [hsame.resolve_eq, TypeSite.head, halike.declaration, addBases_eq hkind]

theorem methodsAt_eq (owner : DefinitionKey) (kind : TypeKind) {t t' : TypeSite}
    (halike : t.Alike t') (hsame : e.SameAt e' t t') :
    e.methodsAt owner kind t = e'.methodsAt owner kind t' := by
  have hmethod : e.bindMethod owner kind (e.declarations.scopeAt t) =
      e'.bindMethod owner kind (e'.declarations.scopeAt t') := by
    funext m
    have hconstraint (ps : List TypeParameter) :
        e.bindConstraint { e.declarations.scopeAt t with methodParameters := ps } =
          e'.bindConstraint { e'.declarations.scopeAt t' with methodParameters := ps } := by
      funext c
      cases c with
      | special => rfl
      | type t => rw [bindConstraint, bindConstraint, hsame ps]
    simp only [bindMethod, hsame _, hconstraint]
  rw [methodsAt, methodsAt, hmethod, halike.declaration]

/-- **Types whose declarations mean the same are bound alike.** -/
theorem bind_agrees (hkind : e.program.kind = e'.program.kind) {d d' : Definition}
    (h : d.Agrees d') (hsame : List.Forall₂ (e.SameAt e') d.sites d'.sites) :
    (e.bind d).Agrees (e'.bind d') := by
  have hboth := h.sites.mp (fun _ _ => And.intro) hsame
  have hbases := basesOf_eq hkind d.kind hboth
  have hmethods : d.sites.flatMap (e.methodsAt d.key d.kind) =
      d'.sites.flatMap (e'.methodsAt d.key d.kind) := by
    rw [List.flatMap_def, List.flatMap_def,
      map_eq_of_forall₂ (fun _ _ ht => methodsAt_eq d.key d.kind ht.1 ht.2) hboth]
  refine ⟨?_, by rw [sites_bind, sites_bind]; exact h.sites⟩
  rw [sites_bind, h.eq]
  simp only [bind, hbases, hmethods]
  cases hk : d.kind <;> simp only [hk]

end Environment

section

variable {units units' : List CompilationUnit}

theorem Model.length_definitions : (Model.ofUnits units).program.definitions.length =
    (Declarations.ofUnits units).keys.length := by
  rw [← Model.map_key_definitions, List.length_map]

theorem Model.length_definitions_eq
    (h : (Declarations.ofUnits units).KnowsSame (Declarations.ofUnits units')) :
    (Model.ofUnits units).program.definitions.length =
      (Model.ofUnits units').program.definitions.length := by
  rw [length_definitions, length_definitions]
  exact ((List.perm_ext_iff_of_nodup Declarations.nodup_keys Declarations.nodup_keys).mpr
    h.keys).length_eq

/-- Before they are bound, types whose declarations read alike agree. -/
theorem Environment.agrees
    (hknows : (Declarations.ofUnits units).KnowsSame (Declarations.ofUnits units'))
    (halike : ∀ k, List.Forall₂ TypeSite.Alike ((Declarations.ofUnits units).sitesOf k)
      ((Declarations.ofUnits units').sitesOf k)) :
    (Environment.ofUnits units).program.Agrees (Environment.ofUnits units').program := by
  refine .of_agrees? (fun k => ?_) ?_
  · rw [definition?_ofUnits, definition?_ofUnits]
    exact Declarations.define_agrees halike k
  · simpa only [Model.ofUnits, List.length_map] using Model.length_definitions_eq hknows

/-- **Programs whose declarations read alike and mean the same agree.** -/
theorem Model.agrees
    (hknows : (Declarations.ofUnits units).KnowsSame (Declarations.ofUnits units'))
    (halike : ∀ k, List.Forall₂ TypeSite.Alike ((Declarations.ofUnits units).sitesOf k)
      ((Declarations.ofUnits units').sitesOf k))
    (hsame : ∀ k, List.Forall₂ ((Environment.ofUnits units).SameAt (Environment.ofUnits units'))
      ((Declarations.ofUnits units).sitesOf k) ((Declarations.ofUnits units').sitesOf k)) :
    (Model.ofUnits units).program.Agrees (Model.ofUnits units').program := by
  have hbefore := Environment.agrees hknows halike
  refine .of_agrees? (fun k => ?_) (Model.length_definitions_eq hknows)
  · rw [definition?_ofUnits, definition?_ofUnits]
    rcases hbefore.both k with ⟨hd, hd'⟩ | ⟨d, d', hd, hd', hagrees⟩ <;>
      rw [Environment.definition?_ofUnits] at hd hd' <;> rw [hd, hd']
    · exact .none
    · refine .some (Environment.bind_agrees hbefore.kind_eq hagrees ?_)
      rw [(Declarations.define_eq_some hd).2.2, (Declarations.define_eq_some hd').2.2]
      exact hsame k

end

/-! ## Declarations at two places -/

section

variable {R : Site → Site → Prop}

/-- One declaration at two places. -/
structure TypeSite.At (R : Site → Site → Prop) (t t' : TypeSite) : Prop where
  site : R t.site t'.site
  index : t.index = t'.index
  declaration : t.declaration = t'.declaration

/-- One declaration at two places, where it declares the same type. -/
structure Declared.At (R : Site → Site → Prop) (e e' : Declared) : Prop where
  key : e.key = e'.key
  site : e.site.At R e'.site

mutual

/-- A type at two places declares the same, with all it holds. -/
theorem Member.forall₂_declare
    (hR : ∀ {s s'} i head, R s s' → R (s.inType i head) (s'.inType i head))
    (space : Option String) : (m : Member) → {s s' : Site} → R s s' → (i : Nat) →
    (outer : Option DefinitionKey) →
    List.Forall₂ (Declared.At R) (m.declare s i space outer) (m.declare s' i space outer)
  | .type head members, _, _, h, i, outer => by
    rw [Member.declare, Member.declare]
    exact .cons ⟨rfl, h, rfl, rfl⟩
      (Member.forall₂_declareAll hR space members (hR i head h) 0 _)
  | .method _, _, _, _, _, _ => .nil
  | .other _, _, _, _, _, _ => .nil

theorem Member.forall₂_declareAll
    (hR : ∀ {s s'} i head, R s s' → R (s.inType i head) (s'.inType i head))
    (space : Option String) : (ms : List Member) → {s s' : Site} → R s s' → (i : Nat) →
    (outer : Option DefinitionKey) →
    List.Forall₂ (Declared.At R) (Member.declareAll s i space outer ms)
      (Member.declareAll s' i space outer ms)
  | [], _, _, _, _, _ => .nil
  | m :: ms, _, _, h, i, outer => by
    rw [Member.declareAll, Member.declareAll]
    exact List.rel_append (Member.forall₂_declare hR space m h i outer)
      (Member.forall₂_declareAll hR space ms h (i + 1) outer)

end

end

end Facade
