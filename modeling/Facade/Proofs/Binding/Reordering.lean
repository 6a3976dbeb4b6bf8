import Facade.Proofs.Binding.Agreement
import Facade.Proofs.Generation.Registration

/-!
# The order of sources

Where no type has declarations in two sources, and no using directive holds for other sources than its
own, the order of the sources means nothing: every declaration declares the same type, of which the same
is known, and a candidate gets the same facade. Sources that are added after the others, such as that of
the marker, may share types with them and have global using directives.

* `TypeSite.inTree`, `CompilationUnit.declare_eq_map`: a source with another number;
* `Declarations.sitesOf_append`, `sitesOf_perm`: the declarations of a type in sources in another order;
* `Declarations.sameSource_of_moved`, `sameSource_of_added`: what sources see of global directives;
* **`Model.agrees_perm`**: programs of sources in another order agree;
* **`Model.perm_invariant`**: the order of the sources means nothing.
-/

namespace Facade

/-! ## Sources with other numbers -/

/-- The same place in a source with another number. -/
def Site.inTree (s : Site) (tree : Nat) : Site := { s with tree := tree }

/-- The same declaration in a source with another number. -/
def TypeSite.inTree (t : TypeSite) (tree : Nat) : TypeSite := { t with site := t.site.inTree tree }

theorem TypeSite.of_inTree_eq {t t' : TypeSite} {n : Nat} (h : t.inTree n = t'.inTree n) :
    t.declaration = t'.declaration ∧ t.site.unit = t'.site.unit ∧
      t.site.namespaces = t'.site.namespaces := by
  simp only [inTree, Site.inTree, TypeSite.mk.injEq, Site.mk.injEq, true_and] at h
  exact ⟨h.2.2, h.1.1, h.1.2.1⟩

/-- A place in the source with number `i`, and the same place when its number is `j`. -/
structure Site.Moved (unit : CompilationUnit) (i j : Nat) (s s' : Site) : Prop where
  unit : s.unit = unit
  tree : s.tree = i
  moved : s.inTree j = s'

section

variable {unit : CompilationUnit} {i j : Nat}

theorem Site.Moved.inType {s s' : Site} (n : Nat) (head : TypeHead) (h : s.Moved unit i j s') :
    (s.inType n head).Moved unit i j (s'.inType n head) where
  unit := h.unit
  tree := h.tree
  moved := h.moved ▸ rfl

theorem Site.Moved.inNamespace {s s' : Site} (n : Nat) (head : NamespaceHead)
    (h : s.Moved unit i j s') : (s.inNamespace n head).Moved unit i j (s'.inNamespace n head) where
  unit := h.unit
  tree := h.tree
  moved := h.moved ▸ rfl

mutual

theorem NamespaceMember.moved_declare : (m : NamespaceMember) → {s s' : Site} →
    s.Moved unit i j s' → (n : Nat) → (around : Option String) →
    List.Forall₂ (Declared.At (Site.Moved unit i j)) (m.declare s n around) (m.declare s' n around)
  | .space head members, _, _, h, n, around => by
    rw [NamespaceMember.declare, NamespaceMember.declare]
    exact NamespaceMember.moved_declareAll members (h.inNamespace n head) 0 _
  | .type d, _, _, h, n, around =>
    Member.forall₂_declare (fun i head h => h.inType i head) around (.type d.head d.members) h n none

theorem NamespaceMember.moved_declareAll : (ms : List NamespaceMember) → {s s' : Site} →
    s.Moved unit i j s' → (n : Nat) → (around : Option String) →
    List.Forall₂ (Declared.At (Site.Moved unit i j)) (NamespaceMember.declareAll s n around ms)
      (NamespaceMember.declareAll s' n around ms)
  | [], _, _, _, _, _ => .nil
  | m :: ms, _, _, h, n, around => by
    rw [NamespaceMember.declareAll, NamespaceMember.declareAll]
    exact List.rel_append (NamespaceMember.moved_declare m h n around)
      (NamespaceMember.moved_declareAll ms h (n + 1) around)

end

/-- **A source declares the same whatever its number is.** -/
theorem CompilationUnit.moved_declare (unit : CompilationUnit) (i j : Nat) :
    List.Forall₂ (Declared.At (Site.Moved unit i j)) (unit.declare i) (unit.declare j) :=
  have houtside : (Site.ofUnit i unit).Moved unit i j (.ofUnit j unit) := ⟨rfl, rfl, rfl⟩
  NamespaceMember.moved_declareAll unit.members houtside 0 none

end

/-- The same declaration in a source with another number. -/
def Declared.inTree (e : Declared) (tree : Nat) : Declared := ⟨e.key, e.site.inTree tree⟩

namespace CompilationUnit

theorem declare_eq_map (unit : CompilationUnit) (i j : Nat) :
    unit.declare j = (unit.declare i).map fun e => e.inTree j := by
  have hmap := map_eq_of_forall₂ (f := fun e : Declared => e.inTree j) (g := id)
    (fun e e' he => ?_) (unit.moved_declare i j)
  · rw [hmap, List.map_id]
  · obtain ⟨k, ⟨s, n, d⟩⟩ := e
    obtain ⟨k', ⟨s', n', d'⟩⟩ := e'
    obtain ⟨rfl, ⟨hsite, rfl, rfl⟩⟩ := he
    obtain rfl := hsite.moved
    rfl

theorem typeSites_eq_map (unit : CompilationUnit) (i j : Nat) :
    unit.typeSites j = (unit.typeSites i).map fun t => t.inTree j := by
  rw [← map_site_declare, ← map_site_declare, unit.declare_eq_map i j, List.map_map, List.map_map]
  rfl

theorem candidates_eq_map (unit : CompilationUnit) (i j : Nat) :
    unit.candidates j = (unit.candidates i).map fun t => t.inTree j := by
  rw [candidates, candidates, unit.typeSites_eq_map i j, List.filter_map]
  rfl

theorem origin_of_mem_declare {unit : CompilationUnit} {i : Nat} {e : Declared}
    (h : e ∈ unit.declare i) : e.site.site.unit = unit ∧ e.site.site.tree = i := by
  have hmoved := (unit.moved_declare i i).imp fun e e' he =>
    And.intro (And.intro he.site.site.unit he.site.site.tree) he
  exact ((List.forall₂_and_left (p := fun e : Declared => e.site.site.unit = unit ∧
    e.site.site.tree = i) _ _).mp hmoved).1 e h

end CompilationUnit

/-! ## The declarations of a type -/

/-- Lists of which at most one has items can be put in any order. -/
theorem flatten_eq_of_perm {α : Type} {xs ys : List (List α)} (h : xs.Perm ys)
    (hone : xs.Pairwise fun a b => a = [] ∨ b = []) : xs.flatten = ys.flatten := by
  induction h with
  | nil => rfl
  | cons x _ ih => rw [List.flatten_cons, List.flatten_cons, ih hone.of_cons]
  | swap x y xs =>
    rcases List.rel_of_pairwise_cons hone List.mem_cons_self with rfl | rfl <;>
      simp only [List.flatten_cons, List.nil_append]
  | trans hxy _ ih ih' =>
    exact (ih hone).trans (ih' ((hxy.pairwise_iff fun h => h.symm).mp hone))

/-- The declarations of sources that come after `n` others. -/
def declaredAfter (n : Nat) (added : List CompilationUnit) : List Declared :=
  (added.mapIdx fun i u => u.declare (i + n)).flatten

/-- The declarations of a type in one source. -/
def CompilationUnit.sitesOf (tree : Nat) (unit : CompilationUnit) (k : DefinitionKey) :
    List TypeSite :=
  ((unit.declare tree).filter fun e => e.key == k).map Declared.site

theorem CompilationUnit.map_inTree_sitesOf (unit : CompilationUnit) (i : Nat) (k : DefinitionKey) :
    (unit.sitesOf i k).map (fun t => t.inTree 0) = unit.sitesOf 0 k := by
  rw [sitesOf, sitesOf, unit.declare_eq_map i 0, List.filter_map, List.map_map, List.map_map]
  rfl

theorem map_mapIdx_eq {α β γ : Type} {f : β → γ} {g : Nat → α → β} {h : α → γ}
    (hfg : ∀ i a, f (g i a) = h a) (xs : List α) : (xs.mapIdx g).map f = xs.map h := by
  induction xs generalizing g with
  | nil => rfl
  | cons x xs ih =>
    rw [List.mapIdx_cons, List.map_cons, List.map_cons, hfg, ih fun i => hfg (i + 1)]

/-- Every type has its declarations in one source. -/
def OneSourceEach (units : List CompilationUnit) : Prop :=
  ∀ d ∈ (Model.ofUnits units).program.definitions, ∀ t ∈ d.sites, ∀ t' ∈ d.sites,
    t.site.tree = t'.site.tree

instance (units : List CompilationUnit) : Decidable (OneSourceEach units) :=
  inferInstanceAs (Decidable (∀ d ∈ (Model.ofUnits units).program.definitions, ∀ t ∈ d.sites,
    ∀ t' ∈ d.sites, t.site.tree = t'.site.tree))

namespace Declarations

variable {units units' : List CompilationUnit}

theorem sitesOf_append (units added : List CompilationUnit) (k : DefinitionKey) :
    (ofUnits (units ++ added)).sitesOf k = (ofUnits units).sitesOf k ++
      ((declaredAfter units.length added).filter fun e => e.key == k).map Declared.site := by
  simp only [sitesOf, ofUnits, List.mapIdx_append, List.flatten_append, List.filter_append,
    List.map_append, declaredAfter]

theorem map_inTree_sitesOf (k : DefinitionKey) :
    ((ofUnits units).sitesOf k).map (fun t => t.inTree 0) =
      (units.map fun u => u.sitesOf 0 k).flatten := by
  have hflatten : (ofUnits units).sitesOf k = (units.mapIdx fun i u => u.sitesOf i k).flatten := by
    simp only [sitesOf, ofUnits, List.filter_flatten, List.map_flatten, List.mapIdx_eq_zipIdx_map,
      List.map_map, Function.comp_def, CompilationUnit.sitesOf]
  rw [hflatten, List.map_flatten, map_mapIdx_eq fun i u => CompilationUnit.map_inTree_sitesOf u i k]

theorem origin_of_mem_sitesOf {k : DefinitionKey} {t : TypeSite}
    (h : t ∈ (ofUnits units).sitesOf k) : units[t.site.tree]? = some t.site.unit := by
  obtain ⟨i, hi, he⟩ := mem_declared.mp (mem_sitesOf.mp h)
  obtain ⟨hunit, htree⟩ := CompilationUnit.origin_of_mem_declare he
  rw [htree, hunit, List.getElem?_eq_getElem hi]

theorem mem_sitesOf_of_mem {i : Nat} (hi : i < units.length) {k : DefinitionKey} {t : TypeSite}
    (h : t ∈ units[i].sitesOf i k) : t ∈ (ofUnits units).sitesOf k ∧ t.site.tree = i := by
  simp only [CompilationUnit.sitesOf, List.mem_map, List.mem_filter, beq_iff_eq] at h
  obtain ⟨e, ⟨he, rfl⟩, rfl⟩ := h
  exact ⟨mem_sitesOf.mpr (mem_declared.mpr ⟨i, hi, he⟩),
    (CompilationUnit.origin_of_mem_declare he).2⟩

theorem pairwise_sitesOf (hone : OneSourceEach units) (k : DefinitionKey) :
    (units.map fun u => u.sitesOf 0 k).Pairwise fun a b => a = [] ∨ b = [] := by
  rw [List.pairwise_map, List.pairwise_iff_getElem]
  intro i j hi hj hij
  by_contra hboth
  rw [not_or] at hboth
  rw [← CompilationUnit.map_inTree_sitesOf _ i, ← CompilationUnit.map_inTree_sitesOf _ j,
    List.map_eq_nil_iff, List.map_eq_nil_iff] at hboth
  obtain ⟨t, ht⟩ := List.exists_mem_of_ne_nil _ hboth.1
  obtain ⟨t', ht'⟩ := List.exists_mem_of_ne_nil _ hboth.2
  obtain ⟨ht, htree⟩ := mem_sitesOf_of_mem hi ht
  obtain ⟨ht', htree'⟩ := mem_sitesOf_of_mem hj ht'
  have hkey : k ∈ (ofUnits units).keys := mem_keys.mpr ⟨_, mem_sitesOf.mp ht, rfl⟩
  rw [← Model.map_key_definitions, List.mem_map] at hkey
  obtain ⟨d, hd, rfl⟩ := hkey
  have hsame := hone d hd
  rw [Model.sites_of_mem hd] at hsame
  have := hsame t ht t' ht'
  omega

/-- **The declarations of a type in sources in another order** are the same, in the same order. -/
theorem sitesOf_perm (hone : OneSourceEach units) (hperm : units.Perm units') (k : DefinitionKey) :
    List.Forall₂ (fun t t' => t.inTree 0 = t'.inTree 0) ((ofUnits units).sitesOf k)
      ((ofUnits units').sitesOf k) := by
  have hmap : ((ofUnits units).sitesOf k).map (fun t => t.inTree 0) =
      ((ofUnits units').sitesOf k).map (fun t => t.inTree 0) := by
    rw [map_inTree_sitesOf, map_inTree_sitesOf]
    exact flatten_eq_of_perm (hperm.map _) (pairwise_sitesOf hone k)
  rwa [← List.forall₂_eq_eq_eq, List.forall₂_map_left_iff, List.forall₂_map_right_iff] at hmap

end Declarations

theorem Declarations.mem_declared_of_getElem? {units : List CompilationUnit} {i : Nat}
    {u : CompilationUnit} (hi : units[i]? = some u) {e : Declared} (he : e ∈ u.declare i) :
    e ∈ (ofUnits units).declared := by
  obtain ⟨hlt, rfl⟩ := List.getElem?_eq_some_iff.mp hi
  exact mem_declared.mpr ⟨i, hlt, he⟩

theorem append_getElem? {α : Type} {xs : List α} {i : Nat} {x : α} (h : xs[i]? = some x)
    (ys : List α) : (xs ++ ys)[i]? = some x := by
  rw [List.getElem?_append_left (List.getElem?_eq_some_iff.mp h).1, h]

/-! ## Scopes -/

/-- No using directive of a source holds for others. -/
def NoGlobals (units : List CompilationUnit) : Prop :=
  ∀ u ∈ units, ∀ g ∈ u.usings, g.isGlobal = false

instance (units : List CompilationUnit) : Decidable (NoGlobals units) :=
  inferInstanceAs (Decidable (∀ u ∈ units, ∀ g ∈ u.usings, g.isGlobal = false))

/-- The global using directives of sources that come after `n` others. -/
def globalsAfter (n : Nat) (added : List CompilationUnit) : List (Nat × UsingDirective) :=
  (added.mapIdx fun i u => (u.usings.filter UsingDirective.isGlobal).map fun g => (i + n, g)).flatten

namespace Declarations

variable {units units' : List CompilationUnit} {added : List CompilationUnit}

theorem le_of_mem_globalsAfter {n : Nat} {g : Nat × UsingDirective} (h : g ∈ globalsAfter n added) :
    n ≤ g.1 := by
  obtain ⟨_, hxs, hg⟩ := List.mem_flatten.mp h
  obtain ⟨i, _, rfl⟩ := List.mem_mapIdx.mp hxs
  obtain ⟨_, -, rfl⟩ := List.mem_map.mp hg
  exact Nat.le_add_left n i

theorem globalUsings_append (h : NoGlobals units) :
    (ofUnits (units ++ added)).globalUsings = globalsAfter units.length added := by
  have hnone : (units.mapIdx fun i u =>
      (u.usings.filter UsingDirective.isGlobal).map fun g => (i, g)).flatten = [] := by
    refine List.flatten_eq_nil_iff.mpr fun xs hxs => ?_
    obtain ⟨i, hi, rfl⟩ := List.mem_mapIdx.mp hxs
    rw [List.map_eq_nil_iff, List.filter_eq_nil_iff]
    exact fun g hg => by simp [h _ (List.getElem_mem hi) g hg]
  rw [globalUsings]
  change ((units ++ added).mapIdx _).flatten = _
  rw [List.mapIdx_append, List.flatten_append, hnone, List.nil_append, globalsAfter]

/-- A source that has moved sees the same using directives. -/
theorem sameSource_of_moved (hlength : units.length = units'.length) (h : NoGlobals units)
    (h' : NoGlobals units') {i j : Nat} {u : CompilationUnit} (hi : units[i]? = some u)
    (hj : units'[j]? = some u) :
    SameSource (ofUnits (units ++ added)) (ofUnits (units' ++ added)) i j where
  usings := by
    simp only [usingsOf, ofUnits, append_getElem? hi added, append_getElem? hj added]
  globals := by
    have hall {n : Nat} (k : Nat) (hk : k < n) :
        (globalsAfter n added).filter (fun g => g.1 != k) = globalsAfter n added :=
      List.filter_eq_self.mpr fun g hg => by
        have := le_of_mem_globalsAfter hg
        simp only [bne_iff_ne]
        omega
    rw [foreignGlobals, foreignGlobals, globalUsings_append h, globalUsings_append h',
      hall i (List.getElem?_eq_some_iff.mp hi).1, hall j (List.getElem?_eq_some_iff.mp hj).1, hlength]

/-- A source behind those that are in another order sees the same using directives. -/
theorem sameSource_of_added (hlength : units.length = units'.length) (h : NoGlobals units)
    (h' : NoGlobals units') {i : Nat} (hi : units.length ≤ i) :
    SameSource (ofUnits (units ++ added)) (ofUnits (units' ++ added)) i i where
  usings := by
    have hget : (units ++ added)[i]? = (units' ++ added)[i]? := by
      rw [List.getElem?_append_right hi, List.getElem?_append_right (hlength ▸ hi), hlength]
    simp only [usingsOf, ofUnits, hget]
  globals := by
    rw [foreignGlobals, foreignGlobals, globalUsings_append h, globalUsings_append h', hlength]

end Declarations

/-! ## Programs of sources in another order -/

section

variable {units units' : List CompilationUnit} (added : List CompilationUnit)

theorem NoGlobals.perm (h : NoGlobals units) (hperm : units.Perm units') : NoGlobals units' :=
  fun u hu => h u (hperm.mem_iff.mpr hu)

namespace Declarations

/-- **The declarations of a type** are the same in another order of the sources, and stand in sources
that see the same using directives. -/
theorem sitesOf_perm_append (hone : OneSourceEach units) (hno : NoGlobals units)
    (hperm : units.Perm units') (k : DefinitionKey) :
    List.Forall₂ (fun t t' => t.inTree 0 = t'.inTree 0 ∧
        SameSource (ofUnits (units ++ added)) (ofUnits (units' ++ added)) t.site.tree t'.site.tree)
      ((ofUnits (units ++ added)).sitesOf k) ((ofUnits (units' ++ added)).sitesOf k) := by
  have hlength := hperm.length_eq
  rw [sitesOf_append, sitesOf_append, ← hlength]
  refine List.rel_append (forall₂_of_mem (sitesOf_perm hone hperm k) fun t ht t' ht' hmoved => ?_)
    (List.forall₂_same.mpr fun t ht => ?_)
  · refine ⟨hmoved, sameSource_of_moved hlength hno (hno.perm hperm) (origin_of_mem_sitesOf ht) ?_⟩
    rw [origin_of_mem_sitesOf ht', (TypeSite.of_inTree_eq hmoved).2.1]
  · refine ⟨rfl, sameSource_of_added hlength hno (hno.perm hperm) ?_⟩
    simp only [List.mem_map, List.mem_filter] at ht
    obtain ⟨e, ⟨he, -⟩, rfl⟩ := ht
    obtain ⟨_, hxs, he⟩ := List.mem_flatten.mp he
    obtain ⟨i, _, rfl⟩ := List.mem_mapIdx.mp hxs
    rw [(CompilationUnit.origin_of_mem_declare he).2]
    exact Nat.le_add_left _ _

theorem knowsSame_perm (hone : OneSourceEach units) (hno : NoGlobals units)
    (hperm : units.Perm units') :
    (ofUnits (units ++ added)).KnowsSame (ofUnits (units' ++ added)) where
  keys k := mem_keys_congr (sitesOf_perm_append added hone hno hperm k)
  spaces n := by
    simp only [ofUnits, List.mem_eraseDups, List.mem_flatMap, (hperm.append_right added).mem_iff]

theorem scopeAt_perm (hno : NoGlobals units) (hperm : units.Perm units') {k : DefinitionKey}
    {t t' : TypeSite} (ht : t ∈ (ofUnits (units ++ added)).sitesOf k)
    (ht' : t' ∈ (ofUnits (units' ++ added)).sitesOf k) (hmoved : t.inTree 0 = t'.inTree 0)
    (hsource : SameSource (ofUnits (units ++ added)) (ofUnits (units' ++ added)) t.site.tree
      t'.site.tree) :
    (ofUnits (units ++ added)).scopeAt t = (ofUnits (units' ++ added)).scopeAt t' := by
  have houtermost := hsource.outermostLevel_eq fun g hg => by
    rw [foreignGlobals, globalUsings_append (hno.perm hperm), ← hperm.length_eq] at hg
    exact sameSource_of_added hperm.length_eq hno (hno.perm hperm)
      (le_of_mem_globalsAfter (List.mem_filter.mp hg).1)
  have hcontaining := (containing_scopeAt ht).trans (containing_scopeAt ht').symm
  have hlevels : (ofUnits (units ++ added)).levelsAt t.site =
      (ofUnits (units' ++ added)).levelsAt t'.site := by
    rw [levelsAt, levelsAt, houtermost, (TypeSite.of_inTree_eq hmoved).2.2]
  exact congrArg₂ (Scope.mk []) hcontaining hlevels

end Declarations

/-- **Programs of sources in another order agree.** -/
theorem Model.agrees_perm (hone : OneSourceEach units) (hno : NoGlobals units)
    (hperm : units.Perm units') :
    (Model.ofUnits (units ++ added)).program.Agrees (Model.ofUnits (units' ++ added)).program := by
  have hknows := Declarations.knowsSame_perm added hone hno hperm
  have hsites := Declarations.sitesOf_perm_append added hone hno hperm
  have halike k := (hsites k).imp fun t t' h => by
    obtain ⟨hdeclaration, hunit, hnamespaces⟩ := TypeSite.of_inTree_eq h.1
    exact TypeSite.Alike.mk hdeclaration (by rw [Site.directives, Site.directives, hunit, hnamespaces])
  refine Model.agrees hknows halike fun k => forall₂_of_mem (hsites k) fun t ht t' ht' h ps => ?_
  have hscope := Declarations.scopeAt_perm added hno hperm ht ht' h.1 h.2
  have hlookup := Environment.lookup_eq hknows (Environment.agrees hknows halike)
  change (Environment.ofUnits (units ++ added)).resolve
    { (Declarations.ofUnits (units ++ added)).scopeAt t with methodParameters := ps } = _
  rw [hscope]
  exact Environment.resolve_eq_of_lookup hknows (congrFun hlookup _) rfl

end

/-! ## Outcomes -/

section

variable {service service' : Service} (hprogram : service.program.Agrees service'.program)
  (hinterfaces : service.allInterfaces = service'.allInterfaces)

include hprogram

theorem Service.describe_eq : service.describe = service'.describe := by
  have hclause : service.program.clauseText = service'.program.clauseText := by
    have hconstraint : service.program.constraintText = service'.program.constraintText := by
      funext c
      cases c with
      | special => rfl
      | type t => rw [Program.constraintText, Program.constraintText, hprogram.display_eq]
    funext c
    rw [Program.clauseText, Program.clauseText, hconstraint]
  have hmethod : service.describeMethod = service'.describeMethod := by
    funext f
    simp only [describeMethod, hprogram.display_eq, hclause]
  funext t
  simp only [describe, forwardedMethods, hprogram.display_eq, hprogram.methods_eq,
    hprogram.imports_eq, hmethod]

include hinterfaces

theorem Service.realizations_eq : service.realizations = service'.realizations := by
  have hmarker : service.isMarker = service'.isMarker := by
    funext t
    rw [isMarker, isMarker, hprogram.display_eq]
  funext t
  rw [realizations, realizations, hinterfaces, hmarker]

theorem Service.resolve_inTree {t : TypeSite} {j : Nat}
    (hsymbol : service.declaredSymbol? t.id = service'.declaredSymbol? (t.inTree j).id) :
    service'.resolve (t.inTree j) =
      (service.resolve t).map fun r => { r with site := r.site.inTree j } := by
  rw [resolve, resolve, hsymbol]
  cases service'.declaredSymbol? (t.inTree j).id with
  | none => rfl
  | some symbol =>
    simp only [resolveSymbol, realizations_eq hprogram hinterfaces, markerTarget?,
      hprogram.typeArguments_eq, hprogram.kind_eq, hprogram.display_eq, describe_eq hprogram]
    cases service'.realizations symbol with
    | nil => rfl
    | cons marker more =>
      dsimp only
      split
      · rfl
      · split_ifs <;> rfl

/-- **Services that agree give a declaration the same outcome**, whatever the number of its source
is. -/
theorem Service.outcome_inTree {t : TypeSite} {j : Nat}
    (hsymbol : service.declaredSymbol? t.id = service'.declaredSymbol? (t.inTree j).id) :
    service.outcome t = service'.outcome (t.inTree j) := by
  rw [outcome, outcome, resolve_inTree hprogram hinterfaces hsymbol]
  cases service.resolve t with
  | error s => rfl
  | ok r =>
    have hcontainer : r.container service =
        Resolution.container { r with site := r.site.inTree j } service' := by
      simp only [Resolution.container, TypeSite.container, hprogram.accessibility?_eq]
      rfl
    simp only [Except.map, hcontainer]

end

/-! ## The order of sources -/

/-- **The order of the sources means nothing** where every type has its declarations in one source and no
using directive holds for others. The type declarations of a source declare the same types in every
order, of which the same is known, down to the texts of all types; and its candidates have the same
outcomes. This holds with any sources added after those that are in another order, as a run adds the
marker. -/
theorem Model.perm_invariant {units units' : List CompilationUnit} (added : List CompilationUnit)
    (hperm : units.Perm units') (hone : OneSourceEach units) (hno : NoGlobals units) :
    let m := Model.ofUnits (units ++ added)
    let m' := Model.ofUnits (units' ++ added)
    (∀ s, m.program.display s = m'.program.display s) ∧
    ∀ i j u, units[i]? = some u → units'[j]? = some u →
      u.typeSites j = (u.typeSites i).map (fun t => t.inTree j) ∧
      u.candidates j = (u.candidates i).map (fun t => t.inTree j) ∧
      ∀ t ∈ u.typeSites i,
        (∃ d ∈ m.program.definitions, ∃ d' ∈ m'.program.definitions,
          m.declaredSymbol? t.id = some (.definition d.key) ∧
          m'.declaredSymbol? (t.inTree j).id = some (.definition d'.key) ∧
          d.key = d'.key ∧ d.accessibility = d'.accessibility ∧ d.baseType = d'.baseType ∧
          d.interfaces = d'.interfaces ∧ d.methods = d'.methods ∧ d.imports = d'.imports ∧
          m.program.allInterfaces (.definition d.key) =
            m'.program.allInterfaces (.definition d'.key)) ∧
        m.service.outcome t = m'.service.outcome (t.inTree j) := by
  intro m m'
  have hagrees : m.program.Agrees m'.program := Model.agrees_perm added hone hno hperm
  refine ⟨fun s => congrFun hagrees.display_eq s, fun i j u hi hj =>
    ⟨u.typeSites_eq_map i j, u.candidates_eq_map i j, fun t ht => ?_⟩⟩
  rw [← CompilationUnit.map_site_declare, List.mem_map] at ht
  obtain ⟨e, he, rfl⟩ := ht
  have hdeclared : e ∈ (Declarations.ofUnits (units ++ added)).declared :=
    Declarations.mem_declared_of_getElem? (append_getElem? hi added) he
  have hdeclared' : e.inTree j ∈ (Declarations.ofUnits (units' ++ added)).declared := by
    refine Declarations.mem_declared_of_getElem? (append_getElem? hj added) ?_
    rw [u.declare_eq_map i j]
    exact List.mem_map_of_mem he
  have hsymbol : m.declaredSymbol? e.site.id = some (.definition e.key) :=
    Model.declaredSymbol?_of_mem hdeclared
  have hsymbol' : m'.declaredSymbol? (e.site.inTree j).id = some (.definition e.key) :=
    Model.declaredSymbol?_of_mem hdeclared'
  obtain ⟨d₀, hd₀⟩ := Declarations.exists_definition
    (Declarations.mem_keys.mpr ⟨e, hdeclared, rfl⟩)
  rcases hagrees.both e.key with ⟨hnone, -⟩ | ⟨d, d', hd, hd', hdd'⟩
  · rw [hd₀] at hnone
    cases hnone
  · obtain ⟨hmem, hkey⟩ := Program.definition?_eq_some hd
    obtain ⟨hmem', hkey'⟩ := Program.definition?_eq_some hd'
    refine ⟨⟨d, hmem, d', hmem', by rw [hsymbol, hkey], by rw [hsymbol', hkey'],
      hkey.trans hkey'.symm, hdd'.accessibility_eq, hdd'.baseType_eq, hdd'.interfaces_eq,
      hdd'.methods_eq, hdd'.imports_eq, ?_⟩, ?_⟩
    · rw [hagrees.allInterfaces_eq, hkey, hkey']
    · exact Service.outcome_inTree hagrees hagrees.allInterfaces_eq (hsymbol.trans hsymbol'.symm)

/-- An interface, and in another source a class that asks for its facade. -/
def separateSources : List String :=
  ["namespace N \x7b interface I \x7b void M(); \x7d \x7d",
    "using FacadeGenerator; namespace P \x7b partial class C : IFacadeGenerator<N.I> \x7b \x7d \x7d"]

/-- A facade is the same whether the interface comes first or last. -/
theorem Model.perm_invariant_swapped : ∃ first second t,
    CompilationUnit.parseAll? separateSources = some [first, second] ∧
      OneSourceEach [first, second] ∧ NoGlobals [first, second] ∧ t ∈ second.candidates 1 ∧
      ((Model.ofUnits ([first, second] ++ [Marker.unit])).service.outcome t).emitted?.isSome ∧
      (Model.ofUnits ([first, second] ++ [Marker.unit])).service.outcome t =
        (Model.ofUnits ([second, first] ++ [Marker.unit])).service.outcome (t.inTree 0) := by
  have hchecks : (CompilationUnit.parseAll? separateSources).any (fun units =>
      decide (units.length = 2) && decide (OneSourceEach units) && decide (NoGlobals units) &&
        (units[1]?.bind fun u => (u.candidates 1).head?).any fun t =>
          ((Model.ofUnits (units ++ [Marker.unit])).service.outcome t).emitted?.isSome) = true := by
    decide +kernel
  obtain ⟨units, hunits, hchecks⟩ := (Option.any_eq_true _ _).mp hchecks
  simp only [Bool.and_eq_true, decide_eq_true_eq] at hchecks
  obtain ⟨⟨⟨hlength, hone⟩, hno⟩, hcandidate⟩ := hchecks
  obtain ⟨first, second, rfl⟩ := List.length_eq_two.mp hlength
  obtain ⟨t, ht, hemitted⟩ := (Option.any_eq_true _ _).mp hcandidate
  have ht : t ∈ second.candidates 1 := List.mem_of_mem_head? ht
  obtain ⟨-, hsources⟩ := Model.perm_invariant [Marker.unit] (.swap second first []) hone hno
  obtain ⟨-, -, hsites⟩ := hsources 1 0 second rfl rfl
  exact ⟨first, second, t, hunits, hone, hno, ht, hemitted,
    (hsites t (List.mem_filter.mp ht).1).2⟩

end Facade
