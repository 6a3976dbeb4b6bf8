import Facade.Proofs.Binding.Written
import Facade.Proofs.Syntax.WrittenSource

/-!
# Bound programs are made of what can be written

The declarations of a program, the scopes at them, and what binding makes of them.

* `Site.IsWritten`, `TypeSite.IsWritten`: declarations that can be written where they stand;
* `CompilationUnit.IsWritten.typeSites`, `CompilationUnit.IsWritten.declare`: those of a source;
* `Declarations.isWritten_scopeAt`: the scopes at them;
* `Definition.IsWritten`, **`Model.isWritten_ofUnits`**: bound programs.
-/

namespace Facade

/-! ## Dotted names -/

theorem Named.dotted {n : String} (h : Named n) : Dotted n :=
  ⟨[n], by simp, by simpa using h, by simp⟩

theorem dotted_intercalate {ns : List String} (hne : ns ≠ []) (h : ∀ n ∈ ns, Dotted n) :
    Dotted (".".intercalate ns) := by
  induction ns with
  | nil => exact absurd rfl hne
  | cons n ns ih =>
    cases ns with
    | nil => simpa using h n List.mem_cons_self
    | cons m ns =>
      obtain ⟨names, hnames, hnamed, heq⟩ := h n List.mem_cons_self
      obtain ⟨names', hnames', hnamed', heq'⟩ :=
        ih (by simp) fun k hk => h k (List.mem_cons_of_mem _ hk)
      refine ⟨names ++ names', by simp [hnames], fun k hk => ?_, ?_⟩
      · exact (List.mem_append.mp hk).elim (hnamed k) (hnamed' k)
      · rw [String.intercalate_append_of_ne_nil hnames hnames', ← heq, ← heq',
          String.intercalate_cons_cons]

theorem dotted_qualify {space : Option String} (hspace : ∀ s ∈ space, Dotted s) {n : String}
    (hn : Dotted n) : Dotted (qualify space n) := by
  cases space with
  | none => exact hn
  | some s =>
    rw [Program.qualify_dotted (hspace s rfl)]
    have hboth : Dotted (".".intercalate [s, n]) :=
      dotted_intercalate (by simp) (by simpa using ⟨hspace s rfl, hn⟩)
    simpa [String.intercalate_cons_cons] using hboth

/-! ## Declarations where they stand -/

/-- What surrounds a node can be written. -/
structure Site.IsWritten (s : Site) : Prop where
  usings : ∀ g ∈ s.unit.usings, g.target.IsWritten
  namespaces : ∀ h ∈ s.namespaces, h.IsWritten
  types : ∀ h ∈ s.types, h.IsWritten

theorem Site.IsWritten.inNamespace {s : Site} (h : s.IsWritten) (i : Nat) {head : NamespaceHead}
    (hhead : head.IsWritten) : (s.inNamespace i head).IsWritten where
  usings := h.usings
  namespaces k hk := by
    rcases List.mem_append.mp hk with hk | hk
    · exact h.namespaces k hk
    · exact List.mem_singleton.mp hk ▸ hhead
  types := h.types

theorem Site.IsWritten.inType {s : Site} (h : s.IsWritten) (i : Nat) {head : TypeHead}
    (hhead : head.IsWritten) : (s.inType i head).IsWritten where
  usings := h.usings
  namespaces := h.namespaces
  types k hk := by
    rcases List.mem_append.mp hk with hk | hk
    · exact h.types k hk
    · exact List.mem_singleton.mp hk ▸ hhead

section

variable {P : String → Prop}

variable (P) in
/-- A type declaration that can be written where it stands. -/
structure TypeSite.IsWritten (t : TypeSite) : Prop where
  site : t.site.IsWritten
  head : t.head.IsWritten
  members : ∀ m ∈ t.declaration.members, m.IsWritten P

theorem CompilationUnit.IsWritten.ofUnit {unit : CompilationUnit} (h : unit.IsWritten P)
    (tree : Nat) : (Site.ofUnit tree unit).IsWritten :=
  ⟨h.usings, fun _ hn => absurd hn List.not_mem_nil, fun _ hn => absurd hn List.not_mem_nil⟩

/-- The type declarations of a source can be written where they stand. -/
theorem CompilationUnit.IsWritten.typeSites {unit : CompilationUnit} (h : unit.IsWritten P)
    (tree : Nat) : ∀ t ∈ unit.typeSites tree, t.IsWritten P := by
  intro t ht
  have hmeets := (CompilationUnit.meets_written.mpr h).typeSites tree t ht
  exact ⟨⟨hmeets.site.usings, hmeets.site.namespaces, fun k hk =>
    let ⟨_, _, hwritten⟩ := hmeets.site.types k hk
    hwritten⟩, hmeets.type, fun m hm => Member.meets_written.mp (hmeets.members m hm)⟩

/-! ## Declared types -/

variable (P) in
/-- A declaration that can be written, and the identity of what it declares. -/
structure Declared.IsWritten (d : Declared) : Prop where
  key : d.key.IsWritten
  site : d.site.IsWritten P

theorem isWritten_declare_key {space : Option String} (hspace : ∀ s ∈ space, Dotted s)
    {outer : Option DefinitionKey} (houter : ∀ k ∈ outer, k.IsWritten) {head : TypeHead}
    (hhead : head.IsWritten) : (DefinitionKey.declare space outer head).IsWritten := by
  cases outer with
  | none => exact ⟨hspace, hhead.name⟩
  | some k => exact ⟨houter k rfl, hhead.name⟩

theorem Member.isWritten_declareAll {ms : List Member} {s : Site} {space : Option String}
    {outer : Option DefinitionKey}
    (h : ∀ m ∈ ms, ∀ i, ∀ d ∈ m.declare s i space outer, d.IsWritten P) (i : Nat) :
    ∀ d ∈ Member.declareAll s i space outer ms, d.IsWritten P := by
  induction ms generalizing i with
  | nil => simp [Member.declareAll]
  | cons m ms ih =>
    intro d hd
    rw [Member.declareAll] at hd
    rcases List.mem_append.mp hd with hd | hd
    · exact h m List.mem_cons_self i d hd
    · exact ih (fun k hk => h k (List.mem_cons_of_mem _ hk)) (i + 1) d hd

theorem Member.isWritten_declare {m : Member} (h : m.IsWritten P) {space : Option String}
    (hspace : ∀ s ∈ space, Dotted s) :
    ∀ (s : Site) (i : Nat) (outer : Option DefinitionKey), s.IsWritten →
      (∀ k ∈ outer, k.IsWritten) → ∀ d ∈ m.declare s i space outer, d.IsWritten P := by
  induction h with
  | @type head members hhead hmembers ih =>
    intro s i outer hs houter d hd
    have hkey := isWritten_declare_key hspace houter hhead
    rw [Member.declare] at hd
    rcases List.mem_cons.mp hd with rfl | hd
    · exact ⟨hkey, hs, hhead, hmembers⟩
    · refine Member.isWritten_declareAll (fun m hm j => ?_) 0 d hd
      exact ih m hm _ j _ (hs.inType i hhead) fun k hk => Option.mem_some.mp hk ▸ hkey
  | method => exact fun s i outer _ _ d hd => absurd hd List.not_mem_nil
  | other => exact fun s i outer _ _ d hd => absurd hd List.not_mem_nil

theorem NamespaceMember.isWritten_declareAll {ms : List NamespaceMember} {s : Site}
    {space : Option String}
    (h : ∀ m ∈ ms, ∀ i, ∀ d ∈ m.declare s i space, d.IsWritten P) (i : Nat) :
    ∀ d ∈ NamespaceMember.declareAll s i space ms, d.IsWritten P := by
  induction ms generalizing i with
  | nil => simp [NamespaceMember.declareAll]
  | cons m ms ih =>
    intro d hd
    rw [NamespaceMember.declareAll] at hd
    rcases List.mem_append.mp hd with hd | hd
    · exact h m List.mem_cons_self i d hd
    · exact ih (fun k hk => h k (List.mem_cons_of_mem _ hk)) (i + 1) d hd

theorem NamespaceMember.isWritten_declare {m : NamespaceMember} (h : m.IsWritten P) :
    ∀ (s : Site) (i : Nat) (space : Option String), s.IsWritten → (∀ n ∈ space, Dotted n) →
      ∀ d ∈ m.declare s i space, d.IsWritten P := by
  induction h with
  | @space head members hhead _ ih =>
    intro s i space hs hspace d hd
    rw [NamespaceMember.declare] at hd
    refine NamespaceMember.isWritten_declareAll (fun m hm j => ?_) 0 d hd
    refine ih m hm _ j _ (hs.inNamespace i hhead) fun n hn => ?_
    exact Option.mem_some.mp hn ▸ dotted_qualify hspace hhead.name
  | @type d hd =>
    intro s i space hs hspace e he
    exact Member.isWritten_declare hd hspace s i none hs (by simp) e he

theorem CompilationUnit.IsWritten.declare {unit : CompilationUnit} (h : unit.IsWritten P)
    (tree : Nat) : ∀ d ∈ unit.declare tree, d.IsWritten P :=
  NamespaceMember.isWritten_declareAll (fun m hm j =>
    NamespaceMember.isWritten_declare (h.members m hm) _ j none (h.ofUnit tree)
      (by simp)) 0

theorem mem_of_mem_mapIdx {α β : Type} {f : Nat → α → β} {xs : List α} {y : β}
    (h : y ∈ xs.mapIdx f) : ∃ i, ∃ x ∈ xs, f i x = y := by
  obtain ⟨i, hi, rfl⟩ := List.mem_mapIdx.mp h
  exact ⟨i, xs[i], List.getElem_mem hi, rfl⟩

section

variable {units : List CompilationUnit} (hunits : ∀ u ∈ units, u.IsWritten P)

include hunits

theorem Declarations.isWritten_declared :
    ∀ d ∈ (Declarations.ofUnits units).declared, d.IsWritten P := by
  intro d hd
  obtain ⟨ds, hds, hd⟩ := List.mem_flatten.mp hd
  obtain ⟨i, u, hu, rfl⟩ := mem_of_mem_mapIdx hds
  exact (hunits u hu).declare i d hd

theorem Declarations.isWritten_ofUnits : (Declarations.ofUnits units).IsWritten where
  keys k hk := by
    obtain ⟨d, hd, rfl⟩ := List.mem_map.mp (List.mem_eraseDups.mp hk)
    exact (Declarations.isWritten_declared hunits d hd).key
  usings u hu := (hunits u hu).usings

theorem Declarations.isWritten_sitesOf (k : DefinitionKey) :
    ∀ s ∈ (Declarations.ofUnits units).sitesOf k, s.IsWritten P := by
  intro s hs
  obtain ⟨d, hd, rfl⟩ := List.mem_map.mp hs
  exact (Declarations.isWritten_declared hunits d (List.mem_filter.mp hd).1).site

theorem Declarations.isWritten_keyOf {id : DeclarationId} {k : DefinitionKey}
    (h : (Declarations.ofUnits units).keyOf? id = some k) : k.IsWritten := by
  obtain ⟨d, hd, rfl⟩ := Option.map_eq_some_iff.mp h
  exact (Declarations.isWritten_declared hunits d (List.mem_of_find?_eq_some hd)).key

/-! ## Scopes -/

omit hunits in
theorem isWritten_aliasesOf {us : List UsingDirective} (h : ∀ u ∈ us, u.target.IsWritten)
    (home : List NamespaceLevel) : ∀ a ∈ aliasesOf us home, a.target.IsWritten := by
  intro a ha
  obtain ⟨u, hu, ha⟩ := List.mem_filterMap.mp ha
  have hwritten := h u hu
  split at ha
  · next htarget =>
    cases ha
    rw [htarget] at hwritten
    exact hwritten.2
  · cases ha

theorem Declarations.isWritten_outermostLevel (tree : Nat) :
    ((Declarations.ofUnits units).outermostLevel tree).IsWritten := by
  have hd := Declarations.isWritten_ofUnits hunits
  intro a ha
  rcases List.mem_append.mp ha with ha | ha
  · refine isWritten_aliasesOf (fun u hu => ?_) _ a ha
    unfold Declarations.usingsOf at hu
    split at hu
    · next unit hunit => exact hd.usings unit (List.mem_of_getElem? hunit) u hu
    · cases hu
  · obtain ⟨⟨i, g⟩, hg, ha⟩ := List.mem_flatMap.mp ha
    refine isWritten_aliasesOf (fun u hu => ?_) _ a ha
    rw [List.mem_singleton.mp hu]
    obtain ⟨gs, hgs, hg⟩ := List.mem_flatten.mp (List.mem_filter.mp hg).1
    obtain ⟨j, unit, hunit, rfl⟩ := mem_of_mem_mapIdx hgs
    obtain ⟨g', hg', heq⟩ := List.mem_map.mp hg
    cases heq
    exact hd.usings unit hunit g (List.mem_filter.mp hg').1

omit hunits in
theorem isWritten_levelsWithin {heads : List NamespaceHead} (hheads : ∀ h ∈ heads, h.IsWritten)
    (outer : Option String) {around : List Level} (haround : ∀ l ∈ around, l.IsWritten) :
    ∀ l ∈ Declarations.levelsWithin outer around heads, l.IsWritten := by
  induction heads generalizing outer around with
  | nil => exact haround
  | cons head heads ih =>
    refine ih (fun h hh => hheads h (List.mem_cons_of_mem _ hh)) _ fun l hl => ?_
    rcases List.mem_cons.mp hl with rfl | hl
    · exact isWritten_aliasesOf (hheads head List.mem_cons_self).usings _
    · exact haround l hl

/-- The scope at a declaration is made of what can be written. -/
theorem Declarations.isWritten_scopeAt {t : TypeSite} (ht : t.site.IsWritten) :
    ((Declarations.ofUnits units).scopeAt t).IsWritten where
  methodParameters _ hq := absurd hq List.not_mem_nil
  levels := isWritten_levelsWithin ht.namespaces none
    (by simpa using Declarations.isWritten_outermostLevel hunits t.site.tree)

end

/-! ## Definitions -/

/-- A constraint that can be written. -/
def ConstraintSymbol.IsWritten : ConstraintSymbol → Prop
  | .special text => text ∈ specialConstraints
  | .type t => t.IsWritten

/-- A constraint clause that can be written. -/
structure ConstraintClauseSymbol.IsWritten (c : ConstraintClauseSymbol) : Prop where
  typeParameter : Named c.typeParameter
  ne_nil : c.constraints ≠ []
  constraints : ∀ k ∈ c.constraints, k.IsWritten

variable (P) in
/-- A parameter that can be written. -/
structure ParameterSymbol.IsWritten (q : ParameterSymbol) : Prop where
  name : Named q.name
  type : q.type.IsWritten
  modifiers : ∀ m ∈ q.modifiers, m ∈ parameterWords
  defaultText : ∀ d ∈ q.defaultText, P d

variable (P) in
/-- A method that can be written. -/
structure MethodSymbol.IsWritten (m : MethodSymbol) : Prop where
  name : Dotted m.name
  explicit : m.isExplicit = m.name.toList.contains '.'
  returnType : m.returnType.IsWritten
  parameters : ∀ q ∈ m.parameters, q.IsWritten P
  typeParameters : ∀ q ∈ m.typeParameters, Named q.name
  constraintClauses : ∀ c ∈ m.constraintClauses, c.IsWritten

variable (P) in
/-- A declared type made of what can be written. -/
structure Definition.IsWritten (d : Definition) : Prop where
  typeParameters : ∀ q ∈ d.typeParameters, Named q.name
  sites : ∀ s ∈ d.sites, s.IsWritten P
  baseType : ∀ t ∈ d.baseType, t.IsWritten
  interfaces : ∀ t ∈ d.interfaces, t.IsWritten
  methods : ∀ m ∈ d.methods, m.IsWritten P

variable (P) in
/-- A program made of what can be written. -/
def Program.IsWritten (p : Program) : Prop := ∀ d ∈ p.definitions, d.IsWritten P

theorem Program.IsWritten.hasNamedParameters {p : Program} (h : p.IsWritten P) :
    p.HasNamedParameters := by
  intro k q hq
  unfold Program.typeParameters at hq
  split at hq
  · next d hd => exact (h d (List.mem_of_find?_eq_some hd)).typeParameters q hq
  · cases hq

theorem named_ofSyntax {owner : String} {ps : List TypeParameterSyntax}
    (h : ∀ p ∈ ps, Named p.name) : ∀ q ∈ TypeParameter.ofSyntax owner ps, Named q.name := by
  intro q hq
  obtain ⟨i, p, hp, rfl⟩ := mem_of_mem_mapIdx hq
  exact h p hp

section

variable {units : List CompilationUnit} (hunits : ∀ u ∈ units, u.IsWritten P)

include hunits

theorem Environment.isWritten_program : (Environment.ofUnits units).program.IsWritten P := by
  intro d hd
  obtain ⟨k, -, hk⟩ := List.mem_filterMap.mp hd
  simp only [Declarations.define, Option.pure_def, Option.bind_eq_bind, Option.bind_eq_some_iff,
    Option.some.injEq] at hk
  obtain ⟨head, hhead, rfl⟩ := hk
  obtain ⟨s, hs, rfl⟩ := Option.map_eq_some_iff.mp hhead
  have hsites := Declarations.isWritten_sitesOf hunits k
  exact ⟨named_ofSyntax (hsites s (List.mem_of_mem_head? hs)).head.typeParameters, hsites, by simp,
    by simp, by simp⟩

theorem Environment.isWritten_ofUnits : (Environment.ofUnits units).IsWritten :=
  ⟨Declarations.isWritten_ofUnits hunits,
    (Environment.isWritten_program hunits).hasNamedParameters⟩

end

section

variable {e : Environment} (he : e.IsWritten)

include he

theorem Environment.isWritten_bindConstraint {s : Scope} (hs : s.IsWritten)
    {k : ConstraintSyntax} (hk : k.IsWritten) : (e.bindConstraint s k).IsWritten := by
  cases k with
  | special t => exact hk
  | type t => exact he.resolve hs hk

theorem Environment.isWritten_bindMethod {owner : DefinitionKey} {kind : TypeKind} {s : Scope}
    (hs : s.IsWritten) {m : MethodDeclaration} (hm : m.IsWritten P) :
    (e.bindMethod owner kind s m).IsWritten P := by
  have hscope : ∀ ps, (∀ q ∈ ps, Named (TypeParameter.name q)) →
      Scope.IsWritten { s with methodParameters := ps } := fun ps h => ⟨h, hs.levels⟩
  have hparameters : ∀ owner, ∀ q ∈ TypeParameter.ofSyntax owner m.typeParameters, Named q.name :=
    fun owner => named_ofSyntax hm.typeParameters
  refine ⟨hm.name, rfl, he.resolve (hscope _ (hparameters _)) hm.returnType, fun q hq => ?_,
    hparameters _, fun c hc => ?_⟩
  · obtain ⟨p, hp, rfl⟩ := List.mem_map.mp hq
    have hpw := hm.parameters p hp
    exact ⟨hpw.name, he.resolve (hscope _ (hparameters _)) hpw.type, hpw.modifiers,
      hpw.defaultText⟩
  · obtain ⟨clause, hclause, rfl⟩ := List.mem_map.mp hc
    have hcw := hm.constraints clause hclause
    refine ⟨hcw.typeParameter, by simpa using hcw.ne_nil, fun k hk => ?_⟩
    obtain ⟨u, hu, rfl⟩ := List.mem_map.mp hk
    exact e.isWritten_bindConstraint he (hscope _ (hparameters _)) (hcw.constraints u hu)

omit he in
/-- The base types that are known can be written. -/
def Bases.IsWritten (b : Bases) : Prop :=
  (∀ t ∈ b.baseType, t.IsWritten) ∧ ∀ t ∈ b.interfaces, t.IsWritten

omit he in
theorem Environment.isWritten_addBase {kind : TypeKind} {isFirst : Bool} {b : Bases}
    (hb : b.IsWritten) {t : TypeSymbol} (ht : t.IsWritten) :
    (e.addBase kind isFirst b t).IsWritten := by
  unfold Environment.addBase
  split_ifs
  · exact ⟨fun u hu => Option.mem_some.mp hu ▸ ht, hb.2⟩
  · exact hb
  · refine ⟨hb.1, fun u hu => ?_⟩
    rcases List.mem_append.mp hu with hu | hu
    · exact hb.2 u hu
    · exact List.mem_singleton.mp hu ▸ ht

omit he in
theorem isWritten_foldl {α : Type} {f : Bases → α → Bases} {xs : List α}
    (h : ∀ x ∈ xs, ∀ b : Bases, b.IsWritten → (f b x).IsWritten) {b : Bases} (hb : b.IsWritten) :
    (xs.foldl f b).IsWritten := by
  induction xs generalizing b with
  | nil => exact hb
  | cons x xs ih =>
    exact ih (fun y hy => h y (List.mem_cons_of_mem _ hy)) (h x List.mem_cons_self b hb)

omit he in
theorem Environment.isWritten_addBases {kind : TypeKind} {b : Bases} (hb : b.IsWritten)
    {ts : List TypeSymbol} (hts : ∀ t ∈ ts, t.IsWritten) : (e.addBases kind b ts).IsWritten := by
  cases ts with
  | nil => exact hb
  | cons first rest =>
    exact isWritten_foldl
      (fun t ht b hb => e.isWritten_addBase hb (hts t (List.mem_cons_of_mem _ ht)))
      (e.isWritten_addBase hb (hts first List.mem_cons_self))

end

section

variable {units : List CompilationUnit} (hunits : ∀ u ∈ units, u.IsWritten P)

include hunits

theorem Environment.isWritten_basesOf {kind : TypeKind} {sites : List TypeSite}
    (hsites : ∀ s ∈ sites, s.IsWritten P) :
    ((Environment.ofUnits units).basesOf kind sites).IsWritten := by
  refine isWritten_foldl (fun s hs b hb => ?_) ⟨by simp, by simp⟩
  refine Environment.isWritten_addBases hb fun t ht => ?_
  obtain ⟨u, hu, rfl⟩ := List.mem_map.mp ht
  exact (Environment.isWritten_ofUnits hunits).resolve
    (Declarations.isWritten_scopeAt hunits (hsites s hs).site) ((hsites s hs).head.baseTypes u hu)

theorem Environment.isWritten_bind {d : Definition} (hd : d.IsWritten P) :
    ((Environment.ofUnits units).bind d).IsWritten P := by
  have hbases : ((Environment.ofUnits units).basesOf d.kind d.sites).IsWritten :=
    Environment.isWritten_basesOf hunits hd.sites
  have hbound : Definition.IsWritten P { d with
      baseType := ((Environment.ofUnits units).basesOf d.kind d.sites).baseType
      interfaces := ((Environment.ofUnits units).basesOf d.kind d.sites).interfaces
      methods := d.sites.flatMap ((Environment.ofUnits units).methodsAt d.key d.kind) } := by
    refine ⟨hd.typeParameters, hd.sites, hbases.1, hbases.2, fun m hm => ?_⟩
    obtain ⟨s, hs, hm⟩ := List.mem_flatMap.mp hm
    obtain ⟨member, hmember, hm⟩ := List.mem_filterMap.mp hm
    have hwritten := (hd.sites s hs).members member hmember
    split at hm
    · cases hm
      cases hwritten with
      | method hwritten =>
        exact Environment.isWritten_bindMethod (Environment.isWritten_ofUnits hunits)
          (Declarations.isWritten_scopeAt hunits (hd.sites s hs).site) hwritten
    · cases hm
  unfold Environment.bind
  split
  · exact hd
  · exact hd
  · exact hbound

/-- **A bound program is made of what can be written.** -/
theorem Model.isWritten_ofUnits : (Model.ofUnits units).program.IsWritten P := by
  intro bound hbound
  obtain ⟨d, hd, rfl⟩ := List.mem_map.mp hbound
  exact Environment.isWritten_bind hunits (Environment.isWritten_program hunits d hd)

theorem Model.isWritten_declaredSymbol {id : DeclarationId} {t : TypeSymbol}
    (h : (Model.ofUnits units).declaredSymbol? id = some t) : t.IsWritten := by
  obtain ⟨k, hk, rfl⟩ := Option.map_eq_some_iff.mp h
  exact .definition (Declarations.isWritten_keyOf hunits hk)

end

end

end Facade
