import Facade.Proofs.Binding.Declared
import Facade.Proofs.Binding.WrittenModel
import Facade.Proofs.Syntax.WrittenSource

/-!
# Partial declarations

Declarations are parts of one type exactly if the same namespaces and types are around them and they
have the same name and number of type parameters. Binding learns of this on its way down into the
sources; a declaration tells it from what it stands in.

* `typeSitesOf`, `CompilationUnit.map_site_declare`: the type declarations of a program, in the order of
  the sources;
* `DefinitionKey.ext_chain`: a declared type is told from its namespace and its chain;
* `Declared.TellsPlace`, `CompilationUnit.tellsPlace_declare`: the way down agrees with the way up;
* `Environment.definition?_ofUnits`, `Model.definition?_ofUnits`: the types of a program;
* **`Model.merges_by_path`**: partial declarations merge exactly by path.
-/

namespace Facade

/-! ## The type declarations of a program -/

/-- The type declarations of a program, each before what it holds, in the order of the sources. -/
def typeSitesOf (units : List CompilationUnit) : List TypeSite :=
  (units.mapIdx CompilationUnit.typeSites).flatten

/-- The type declarations among some nodes. -/
def typesAmong (nodes : List Placed) : List TypeSite := nodes.filterMap fun n => n.2.type?

theorem typesAmong_append (xs ys : List Placed) :
    typesAmong (xs ++ ys) = typesAmong xs ++ typesAmong ys := List.filterMap_append

theorem typesAmong_of_none {xs : List Placed} (h : ∀ n ∈ xs, n.2.type? = none) :
    typesAmong xs = [] := List.filterMap_eq_nil_iff.mpr h

theorem typesAmong_cons_type (s : Site) (t : TypeSite) (xs : List Placed) :
    typesAmong ((s, .type t) :: xs) = t :: typesAmong xs := rfl

theorem typesAmong_cons_none {n : Placed} (h : n.2.type? = none) (xs : List Placed) :
    typesAmong (n :: xs) = typesAmong xs := List.filterMap_cons_none h

mutual

theorem Member.map_site_declare (space : Option String) : (m : Member) → (s : Site) → (i : Nat) →
    (outer : Option DefinitionKey) →
    (m.declare s i space outer).map Declared.site = typesAmong (m.walk s i)
  | .type head members, s, i, outer => by
    have hhead : typesAmong (TypeHead.walk (s.inType i head) head) = [] := by
      refine typesAmong_of_none fun n hn => ?_
      simp only [TypeHead.walk, List.mem_append, List.mem_map] at hn
      rcases hn with ⟨_, -, rfl⟩ | ⟨_, -, rfl⟩ <;> rfl
    rw [Member.declare, Member.walk, List.map_cons, List.cons_append,
      Member.map_site_declareAll space members, typesAmong_cons_type, typesAmong_append, hhead,
      List.nil_append]
  | .method m, s, i, outer => by
    refine (typesAmong_of_none fun n hn => ?_).symm
    simp only [Member.walk, MethodDeclaration.walk, List.mem_append, List.mem_cons,
      List.mem_map] at hn
    rcases hn with ((rfl | ⟨_, -, rfl⟩) | ⟨_, -, rfl⟩) | ⟨_, -, rfl⟩ <;> rfl
  | .other _, _, _, _ => rfl

theorem Member.map_site_declareAll (space : Option String) : (ms : List Member) → (s : Site) →
    (i : Nat) → (outer : Option DefinitionKey) →
    (Member.declareAll s i space outer ms).map Declared.site = typesAmong (Member.walkAll s i ms)
  | [], _, _, _ => rfl
  | m :: ms, s, i, outer => by
    rw [Member.declareAll, Member.walkAll, List.map_append, typesAmong_append,
      Member.map_site_declare space m, Member.map_site_declareAll space ms]

end

mutual

theorem NamespaceMember.map_site_declare : (m : NamespaceMember) → (s : Site) → (i : Nat) →
    (space : Option String) → (m.declare s i space).map Declared.site = typesAmong (m.walk s i)
  | .space head members, s, i, around => by
    have husings : typesAmong (UsingDirective.walkAll (s.inNamespace i head) head.usings) = [] :=
      typesAmong_of_none fun n hn => type?_of_mem_walkAll hn
    rw [NamespaceMember.declare, NamespaceMember.walk, List.cons_append,
      NamespaceMember.map_site_declareAll members, typesAmong_cons_none rfl, typesAmong_append,
      husings, List.nil_append]
  | .type d, s, i, around => Member.map_site_declare around (.type d.head d.members) s i none

theorem NamespaceMember.map_site_declareAll : (ms : List NamespaceMember) → (s : Site) →
    (i : Nat) → (space : Option String) →
    (NamespaceMember.declareAll s i space ms).map Declared.site =
      typesAmong (NamespaceMember.walkAll s i ms)
  | [], _, _, _ => rfl
  | m :: ms, s, i, around => by
    rw [NamespaceMember.declareAll, NamespaceMember.walkAll, List.map_append, typesAmong_append,
      NamespaceMember.map_site_declare m, NamespaceMember.map_site_declareAll ms]

end

/-- **Binding comes to every type declaration of a source**, in the order of the source. -/
theorem CompilationUnit.map_site_declare (tree : Nat) (unit : CompilationUnit) :
    (unit.declare tree).map Declared.site = unit.typeSites tree := by
  have husings : typesAmong (UsingDirective.walkAll (.ofUnit tree unit) unit.usings) = [] :=
    typesAmong_of_none fun n hn => type?_of_mem_walkAll hn
  rw [CompilationUnit.declare, NamespaceMember.map_site_declareAll]
  change _ = typesAmong (unit.walk tree)
  rw [CompilationUnit.walk, List.cons_append, typesAmong_cons_none rfl, typesAmong_append, husings,
    List.nil_append]

/-! ## Paths -/

/-- A name with the number of its type parameters. -/
def TypeHead.shape (h : TypeHead) : String × Nat := (h.name, h.arity)

/-- **A declared type is told from its namespace and its chain**. -/
theorem DefinitionKey.ext_chain {k l : DefinitionKey} (hspace : k.space = l.space)
    (hchain : k.chain = l.chain) : k = l := by
  obtain ⟨names, hk, hknest⟩ := k.exists_chain
  obtain ⟨names', hl, hlnest⟩ := l.exists_chain
  rw [hk, hl, List.cons.injEq, Prod.mk.injEq] at hchain
  obtain ⟨⟨hname, harity⟩, rfl⟩ := hchain
  have houtermost : k.outermost = l.outermost := by
    rw [k.outermost_eq, l.outermost_eq, hspace, hname, harity]
  rw [hknest, hlnest, houtermost]

theorem DefinitionKey.chain_declare (space : Option String) (outer : Option DefinitionKey)
    (head : TypeHead) : (DefinitionKey.declare space outer head).chain =
      (outer.map DefinitionKey.chain).getD [] ++ [head.shape] := by
  cases outer <;> rfl

/-- The identity of a declared type says where the declaration stands. -/
structure Declared.TellsPlace (e : Declared) : Prop where
  space : e.key.space = e.site.site.namespaceName
  chain : e.key.chain = (e.site.site.types ++ [e.site.head]).map TypeHead.shape

/-- Declarations declare one type exactly if they stand in the same namespace and the same types. -/
theorem Declared.TellsPlace.key_eq_iff {e e' : Declared} (h : e.TellsPlace) (h' : e'.TellsPlace) :
    e.key = e'.key ↔ e.site.site.namespaceName = e'.site.site.namespaceName ∧
      e.site.site.types.map TypeHead.shape = e'.site.site.types.map TypeHead.shape ∧
      e.site.head.shape = e'.site.head.shape := by
  have hchain : e.key.chain = e'.key.chain ↔
      e.site.site.types.map TypeHead.shape = e'.site.site.types.map TypeHead.shape ∧
        e.site.head.shape = e'.site.head.shape := by
    rw [h.chain, h'.chain, List.map_append, List.map_append, List.map_singleton, List.map_singleton,
      List.append_singleton_inj]
  rw [← hchain, ← h.space, ← h'.space]
  exact ⟨fun hk => hk ▸ ⟨rfl, rfl⟩, fun ⟨hspace, hc⟩ => DefinitionKey.ext_chain hspace hc⟩

mutual

theorem Member.tellsPlace_declare {space : Option String} : (m : Member) → (s : Site) → (i : Nat) →
    (outer : Option DefinitionKey) → s.namespaceName = space → (∀ o ∈ outer, o.space = space) →
    (outer.map DefinitionKey.chain).getD [] = s.types.map TypeHead.shape →
    ∀ e ∈ m.declare s i space outer, e.TellsPlace
  | .type head members, s, i, outer, hspace, houter, htypes, e, he => by
    have hchain : (DefinitionKey.declare space outer head).chain =
        (s.types ++ [head]).map TypeHead.shape := by
      rw [DefinitionKey.chain_declare, htypes, List.map_append, List.map_singleton]
    have hkey := DefinitionKey.space_declare houter head
    rw [Member.declare] at he
    rcases List.mem_cons.mp he with rfl | he
    · exact ⟨hkey.trans hspace.symm, hchain⟩
    · exact Member.tellsPlace_declareAll members (s.inType i head) 0 _ hspace
        (fun o ho => Option.mem_some.mp ho ▸ hkey) hchain e he
  | .method _, _, _, _, _, _, _, _, he => absurd he List.not_mem_nil
  | .other _, _, _, _, _, _, _, _, he => absurd he List.not_mem_nil

theorem Member.tellsPlace_declareAll {space : Option String} : (ms : List Member) → (s : Site) →
    (i : Nat) → (outer : Option DefinitionKey) → s.namespaceName = space →
    (∀ o ∈ outer, o.space = space) →
    (outer.map DefinitionKey.chain).getD [] = s.types.map TypeHead.shape →
    ∀ e ∈ Member.declareAll s i space outer ms, e.TellsPlace
  | [], _, _, _, _, _, _, _, he => absurd he List.not_mem_nil
  | m :: ms, s, i, outer, hspace, houter, htypes, e, he => by
    rw [Member.declareAll] at he
    rcases List.mem_append.mp he with he | he
    · exact Member.tellsPlace_declare m s i outer hspace houter htypes e he
    · exact Member.tellsPlace_declareAll ms s (i + 1) outer hspace houter htypes e he

end

theorem Site.namespaceName_inNamespace {s : Site} (hs : ∀ h ∈ s.namespaces, Dotted h.name) (i : Nat)
    (head : NamespaceHead) :
    (s.inNamespace i head).namespaceName = some (qualify s.namespaceName head.name) := by
  have hjoined : (s.inNamespace i head).namespaceName =
      some (".".intercalate (s.namespaces.map NamespaceHead.name ++ [head.name])) := by
    simp [Site.namespaceName, Site.inNamespace]
  rw [hjoined, Site.namespaceName]
  cases hnames : s.namespaces with
  | nil => simp [qualify]
  | cons first rest =>
    have hdotted : Dotted (".".intercalate (s.namespaces.map NamespaceHead.name)) :=
      dotted_intercalate (by simp [hnames]) fun n hn => by
        obtain ⟨h, hh, rfl⟩ := List.mem_map.mp hn
        exact hs h hh
    rw [hnames] at hdotted
    rw [if_neg (by simp), Program.qualify_dotted hdotted,
      String.intercalate_append_of_ne_nil (by simp) (by simp), String.intercalate_singleton]

section

variable {P : String → Prop}

theorem NamespaceMember.tellsPlace_declareAll {ms : List NamespaceMember} {s : Site}
    {around : Option String} (h : ∀ m ∈ ms, ∀ i, ∀ e ∈ m.declare s i around, e.TellsPlace) (i : Nat) :
    ∀ e ∈ NamespaceMember.declareAll s i around ms, e.TellsPlace := by
  induction ms generalizing i with
  | nil => exact fun e he => absurd he List.not_mem_nil
  | cons m ms ih =>
    intro e he
    rw [NamespaceMember.declareAll] at he
    rcases List.mem_append.mp he with he | he
    · exact h m List.mem_cons_self i e he
    · exact ih (fun k hk => h k (List.mem_cons_of_mem _ hk)) (i + 1) e he

theorem NamespaceMember.tellsPlace_declare {m : NamespaceMember} (h : m.IsWritten P) :
    ∀ (s : Site) (i : Nat), (∀ h ∈ s.namespaces, Dotted h.name) → s.types = [] →
      ∀ e ∈ m.declare s i s.namespaceName, e.TellsPlace := by
  induction h with
  | @space head members hhead _ ih =>
    intro s i hs htypes e he
    have hinner : ∀ h ∈ (s.inNamespace i head).namespaces, Dotted h.name := fun h hh => by
      rcases List.mem_append.mp hh with hh | hh
      · exact hs h hh
      · exact List.mem_singleton.mp hh ▸ hhead.name
    rw [NamespaceMember.declare, ← Site.namespaceName_inNamespace hs i head] at he
    exact NamespaceMember.tellsPlace_declareAll (fun m hm j => ih m hm _ j hinner htypes) 0 e he
  | @type d _ =>
    intro s i _ htypes e he
    exact Member.tellsPlace_declare (.type d.head d.members) s i none rfl
      (fun o ho => absurd ho (by simp)) (by rw [htypes]; rfl) e he

/-- **The way down agrees with the way up**: the identity of a type says what its declarations stand
in. -/
theorem CompilationUnit.tellsPlace_declare {unit : CompilationUnit} (h : unit.IsWritten P)
    (tree : Nat) : ∀ e ∈ unit.declare tree, e.TellsPlace :=
  NamespaceMember.tellsPlace_declareAll (fun m hm i =>
    NamespaceMember.tellsPlace_declare (h.members m hm) (.ofUnit tree unit) i
      (fun _ hn => absurd hn List.not_mem_nil) rfl) 0

end

/-! ## The types of a program -/

section

variable {α β : Type} [BEq α] [BEq β]

/-- Induction along `List.eraseDups`: what follows an item is left without its repetitions. -/
theorem induction_on_eraseDups {motive : List α → Prop} (nil : motive [])
    (cons : ∀ x xs, motive (xs.filter fun b => !b == x) → motive (x :: xs)) (xs : List α) :
    motive xs := by
  induction h : xs.length using Nat.strong_induction_on generalizing xs with
  | _ n ih =>
    cases xs with
    | nil => exact nil
    | cons x xs =>
      have hlt : (xs.filter fun b => !b == x).length < n := by
        rw [← h, List.length_cons]
        exact Nat.lt_succ_of_le (List.length_filter_le _ xs)
      exact cons x xs (ih _ hlt _ rfl)

variable [LawfulBEq α] [LawfulBEq β]

theorem nodup_eraseDups (xs : List α) : xs.eraseDups.Nodup := by
  induction xs using induction_on_eraseDups with
  | nil => exact List.nodup_nil
  | cons x xs ih =>
    rw [List.eraseDups_cons, List.nodup_cons]
    exact ⟨fun hx => by simp [List.mem_eraseDups] at hx, ih⟩

theorem eraseDups_map {f : α → β} (hf : Function.Injective f) (xs : List α) :
    (xs.map f).eraseDups = xs.eraseDups.map f := by
  induction xs using induction_on_eraseDups with
  | nil => rfl
  | cons x xs ih =>
    have hfilter : ((fun b => !b == f x) ∘ f) = fun b => !b == x := by
      funext b
      rw [Function.comp_apply, Bool.eq_iff_iff]
      simp [hf.eq_iff]
    rw [List.map_cons, List.eraseDups_cons, List.eraseDups_cons, List.map_cons, List.filter_map,
      hfilter, ih]

end

variable {units : List CompilationUnit}

namespace Declarations

theorem map_site_declared : (ofUnits units).declared.map Declared.site = typeSitesOf units := by
  simp only [ofUnits, typeSitesOf, List.map_flatten, List.mapIdx_eq_zipIdx_map, List.map_map,
    Function.comp_def, CompilationUnit.map_site_declare]

theorem exists_declared {t : TypeSite} (h : t ∈ typeSitesOf units) :
    ∃ e ∈ (ofUnits units).declared, e.site = t := by
  rwa [← map_site_declared, List.mem_map] at h

theorem nodup_keys : (ofUnits units).keys.Nodup := nodup_eraseDups _

theorem sitesOf_eq (k : DefinitionKey) : (ofUnits units).sitesOf k =
    (typeSitesOf units).filter fun t => (ofUnits units).keyOf? t.id = some k := by
  rw [← map_site_declared, List.filter_map, sitesOf]
  congr 1
  refine List.filter_congr fun e he => ?_
  simp [keyOf?_of_mem he, Bool.beq_eq_decide_eq]

theorem define_eq_some {k : DefinitionKey} {d : Definition} (h : (ofUnits units).define k = some d) :
    d.key = k ∧ k ∈ (ofUnits units).keys ∧ d.sites = (ofUnits units).sitesOf k := by
  simp only [define, Option.pure_def, Option.bind_eq_bind, Option.bind_eq_some_iff,
    Option.some.injEq] at h
  obtain ⟨head, hhead, rfl⟩ := h
  obtain ⟨t, ht, -⟩ := Option.map_eq_some_iff.mp hhead
  exact ⟨rfl, mem_keys.mpr ⟨_, mem_sitesOf.mp (List.mem_of_mem_head? ht), rfl⟩, rfl⟩

theorem exists_define {k : DefinitionKey} (h : k ∈ (ofUnits units).keys) :
    ∃ d, (ofUnits units).define k = some d := by
  obtain ⟨e, he, rfl⟩ := mem_keys.mp h
  obtain ⟨first, rest, hsites⟩ := List.exists_cons_of_ne_nil (List.ne_nil_of_mem (mem_sitesOf.mpr he))
  simp [define, headOf?, hsites]

end Declarations

/-- **The types of a program before they are bound**, found by their identities. -/
theorem Environment.definition?_ofUnits (k : DefinitionKey) :
    (Environment.ofUnits units).program.definition? k = (Declarations.ofUnits units).define k := by
  rw [Program.definition?]
  cases hfind : (Environment.ofUnits units).program.definitions.find? fun d => d.key == k with
  | some d =>
    obtain ⟨l, -, hl⟩ := List.mem_filterMap.mp (List.mem_of_find?_eq_some hfind)
    obtain ⟨hkey, -, -⟩ := Declarations.define_eq_some hl
    have hdk : d.key = k := by simpa using List.find?_some hfind
    rw [← hl, ← hkey, hdk]
  | none =>
    cases hdefine : (Declarations.ofUnits units).define k with
    | none => rfl
    | some d =>
      obtain ⟨hkey, hk, -⟩ := Declarations.define_eq_some hdefine
      have hmem : d ∈ (Environment.ofUnits units).program.definitions :=
        List.mem_filterMap.mpr ⟨k, hk, hdefine⟩
      exact absurd (List.find?_eq_none.mp hfind d hmem) (by simp [hkey])

/-- **The types of a program**, found by their identities. -/
theorem Model.definition?_ofUnits (k : DefinitionKey) : (Model.ofUnits units).program.definition? k =
    ((Declarations.ofUnits units).define k).map (Environment.ofUnits units).bind := by
  rw [← Environment.definition?_ofUnits]
  simp only [Program.definition?, Model.ofUnits, List.find?_map, Function.comp_def,
    Environment.key_bind]

theorem Environment.sites_bind (e : Environment) (d : Definition) : (e.bind d).sites = d.sites := by
  unfold bind
  split <;> rfl

theorem Model.map_key_definitions :
    (Model.ofUnits units).program.definitions.map Definition.key =
      (Declarations.ofUnits units).keys := by
  have hkeys : ∀ keys : List DefinitionKey, (∀ k ∈ keys, k ∈ (Declarations.ofUnits units).keys) →
      (keys.filterMap (Declarations.ofUnits units).define).map Definition.key = keys := by
    intro keys hkeys
    induction keys with
    | nil => rfl
    | cons k keys ih =>
      obtain ⟨d, hd⟩ := Declarations.exists_define (hkeys k List.mem_cons_self)
      rw [List.filterMap_cons_some hd, List.map_cons, (Declarations.define_eq_some hd).1,
        ih fun l hl => hkeys l (List.mem_cons_of_mem _ hl)]
  simp only [Model.ofUnits, List.map_map, Function.comp_def, Environment.key_bind]
  exact hkeys _ fun k hk => hk

namespace Model

theorem exists_define_of_mem {d : Definition} (h : d ∈ (ofUnits units).program.definitions) :
    ∃ d₀, (Declarations.ofUnits units).define d.key = some d₀ ∧
      d = (Environment.ofUnits units).bind d₀ := by
  obtain ⟨d₀, hd₀, rfl⟩ := List.mem_map.mp h
  obtain ⟨k, -, hdefine⟩ := List.mem_filterMap.mp hd₀
  rw [Environment.key_bind, (Declarations.define_eq_some hdefine).1]
  exact ⟨d₀, hdefine, rfl⟩

theorem sites_of_mem {d : Definition} (h : d ∈ (ofUnits units).program.definitions) :
    d.sites = (Declarations.ofUnits units).sitesOf d.key := by
  obtain ⟨d₀, hdefine, hd⟩ := exists_define_of_mem h
  rw [hd, Environment.sites_bind, ← hd, (Declarations.define_eq_some hdefine).2.2]

theorem methods_of_mem {d : Definition} (h : d ∈ (ofUnits units).program.definitions)
    (hkind : d.kind = .interfaceKind) :
    d.methods = d.sites.flatMap ((Environment.ofUnits units).methodsAt d.key .interfaceKind) := by
  obtain ⟨d₀, -, rfl⟩ := exists_define_of_mem h
  have hkind₀ : d₀.kind = .interfaceKind := by
    rw [← hkind, Environment.bind]
    split <;> rfl
  rw [Environment.key_bind, Environment.sites_bind, Environment.bind, hkind₀]

theorem ext_of_mem {d d' : Definition} (h : d ∈ (ofUnits units).program.definitions)
    (h' : d' ∈ (ofUnits units).program.definitions) (hkey : d.key = d'.key) : d = d' := by
  obtain ⟨d₀, hdefine, rfl⟩ := exists_define_of_mem h
  obtain ⟨d₁, hdefine', rfl⟩ := exists_define_of_mem h'
  rw [hkey, hdefine', Option.some.injEq] at hdefine
  rw [hdefine]

theorem definition?_of_mem {d : Definition} (h : d ∈ (ofUnits units).program.definitions) :
    (ofUnits units).program.definition? d.key = some d := by
  obtain ⟨d₀, hdefine, hd⟩ := exists_define_of_mem h
  rw [definition?_ofUnits, hdefine, hd]
  rfl

theorem declaredSymbol?_of_mem {e : Declared} (h : e ∈ (Declarations.ofUnits units).declared) :
    (ofUnits units).declaredSymbol? e.site.id = some (.definition e.key) :=
  congrArg (Option.map TypeSymbol.definition) (Declarations.keyOf?_of_mem h)

theorem declaredSymbol?_eq_iff (t : TypeSite) (k : DefinitionKey) :
    (ofUnits units).declaredSymbol? t.id = some (.definition k) ↔
      (Declarations.ofUnits units).keyOf? t.id = some k := by
  simp [declaredSymbol?, ofUnits, Environment.ofUnits]

end Model

/-! ## Merging -/

/-- **Partial declarations merge exactly by path.** In the program of some sources every type declaration
declares one type, which has it among its declarations and is no other type's. Two declarations declare
the same type exactly if the namespaces around them have the same full name, the types around them the
same names and numbers of type parameters, and so have they themselves. The declarations of a type are
all that declare it, in the order of the sources; each type is listed once, in the order of their first
declarations. And the identity of a type, which is found on the way down into the sources, says of each
of its declarations what it stands in. -/
theorem Model.merges_by_path
    (hparsed : ∀ u ∈ units, ∃ path source, CompilationUnit.parse path source = .ok u) :
    let m := Model.ofUnits units
    (∀ t ∈ typeSitesOf units, ∃ d ∈ m.program.definitions,
      m.declaredSymbol? t.id = some (.definition d.key) ∧
        ∀ d' ∈ m.program.definitions, t ∈ d'.sites ↔ d' = d) ∧
    (∀ t ∈ typeSitesOf units, ∀ t' ∈ typeSitesOf units,
      m.declaredSymbol? t.id = m.declaredSymbol? t'.id ↔
        t.site.namespaceName = t'.site.namespaceName ∧
        t.site.types.map TypeHead.shape = t'.site.types.map TypeHead.shape ∧
        t.head.shape = t'.head.shape) ∧
    (∀ d ∈ m.program.definitions, d.sites =
      (typeSitesOf units).filter fun t => m.declaredSymbol? t.id = some (.definition d.key)) ∧
    ((m.program.definitions.map Definition.key).Nodup ∧
      m.program.definitions.map (fun d => some (TypeSymbol.definition d.key)) =
        ((typeSitesOf units).map fun t => m.declaredSymbol? t.id).eraseDups) ∧
    ∀ d ∈ m.program.definitions, ∀ t ∈ d.sites, d.key.space = t.site.namespaceName ∧
      d.key.chain = (t.site.types ++ [t.head]).map TypeHead.shape := by
  intro m
  have htells : ∀ e ∈ (Declarations.ofUnits units).declared, e.TellsPlace := fun e he => by
    obtain ⟨i, hi, he⟩ := Declarations.mem_declared.mp he
    obtain ⟨path, source, hu⟩ := hparsed units[i] (List.getElem_mem hi)
    exact CompilationUnit.tellsPlace_declare (P := fun _ => True)
      (CompilationUnit.isWritten_of_parse (fun _ _ => trivial) hu) i e he
  refine ⟨fun t ht => ?bound, fun t ht t' ht' => ?shared, fun d hd => ?sites, ⟨?nodup, ?order⟩,
    fun d hd t ht => ?place⟩
  case bound =>
    obtain ⟨e, he, rfl⟩ := Declarations.exists_declared ht
    have hkey : e.key ∈ (Declarations.ofUnits units).keys := Declarations.mem_keys.mpr ⟨e, he, rfl⟩
    rw [← Model.map_key_definitions, List.mem_map] at hkey
    obtain ⟨d, hd, hdkey⟩ := hkey
    refine ⟨d, hd, by rw [hdkey]; exact Model.declaredSymbol?_of_mem he, fun d' hd' => ?_⟩
    have hsites : e.site ∈ d'.sites ↔ e.key = d'.key := by
      rw [Model.sites_of_mem hd', Declarations.sitesOf_eq, List.mem_filter,
        Declarations.keyOf?_of_mem he]
      simp [ht]
    rw [hsites, ← hdkey]
    exact ⟨fun h => Model.ext_of_mem hd' hd h.symm, fun h => by rw [h]⟩
  case shared =>
    obtain ⟨e, he, rfl⟩ := Declarations.exists_declared ht
    obtain ⟨e', he', rfl⟩ := Declarations.exists_declared ht'
    rw [Model.declaredSymbol?_of_mem he, Model.declaredSymbol?_of_mem he', Option.some.injEq,
      TypeSymbol.definition.injEq]
    exact (htells e he).key_eq_iff (htells e' he')
  case sites =>
    rw [Model.sites_of_mem hd, Declarations.sitesOf_eq]
    simp only [Model.declaredSymbol?_eq_iff, m]
  case nodup =>
    rw [Model.map_key_definitions]
    exact Declarations.nodup_keys
  case order =>
    let named (k : DefinitionKey) : Option TypeSymbol := some (.definition k)
    have hnamed : Function.Injective named := fun k l hkl =>
      TypeSymbol.definition.inj (Option.some.inj hkl)
    have hsymbols : (typeSitesOf units).map (fun t => m.declaredSymbol? t.id) =
        ((Declarations.ofUnits units).declared.map Declared.key).map named := by
      rw [← Declarations.map_site_declared, List.map_map, List.map_map]
      exact List.map_congr_left fun e he => Model.declaredSymbol?_of_mem he
    have htypes : m.program.definitions.map (fun d => some (TypeSymbol.definition d.key)) =
        (Declarations.ofUnits units).keys.map named := by
      rw [← Model.map_key_definitions, List.map_map]
      rfl
    rw [hsymbols, eraseDups_map hnamed, htypes]
    rfl
  case place =>
    rw [Model.sites_of_mem hd] at ht
    have htell := htells _ (Declarations.mem_sitesOf.mp ht)
    exact ⟨htell.space, htell.chain⟩

/-- Two sources with declarations of one type, in a dotted namespace and in nested ones. -/
def partialSources : List String :=
  ["namespace A.B \x7b partial class C \x7b \x7d \x7d",
    "namespace A \x7b namespace B \x7b partial class C \x7b \x7d class C<T> \x7b \x7d \x7d \x7d"]

/-- Declarations of one type merge however their namespace is written; a number of type parameters makes
another type. -/
theorem Model.merges_by_path_spelled : ∃ units first second generic,
    CompilationUnit.parseAll? partialSources = some units ∧
      typeSitesOf units = [first, second, generic] ∧
      (Model.ofUnits units).declaredSymbol? first.id =
        (Model.ofUnits units).declaredSymbol? second.id ∧
      (Model.ofUnits units).declaredSymbol? first.id ≠
        (Model.ofUnits units).declaredSymbol? generic.id := by
  have hpaths : (CompilationUnit.parseAll? partialSources).map
      (fun units => (typeSitesOf units).map fun t =>
        (t.site.namespaceName, t.site.types.map TypeHead.shape, t.head.shape)) =
        some [(some "A.B", [], "C", 0), (some "A.B", [], "C", 0), (some "A.B", [], "C", 1)] := by
    decide +kernel
  obtain ⟨units, hunits, hmap⟩ := Option.map_eq_some_iff.mp hpaths
  obtain ⟨first, ts, hsites, hfirst, hts⟩ := List.map_eq_cons_iff.mp hmap
  obtain ⟨second, ts, rfl, hsecond, hts⟩ := List.map_eq_cons_iff.mp hts
  obtain ⟨generic, ts, rfl, hgeneric, hts⟩ := List.map_eq_cons_iff.mp hts
  obtain rfl := List.map_eq_nil_iff.mp hts
  obtain ⟨-, hshared, -⟩ :=
    Model.merges_by_path (CompilationUnit.parsed_of_parseAll? hunits)
  simp only [Prod.mk.injEq] at hfirst hsecond hgeneric
  refine ⟨units, first, second, generic, hunits, hsites, ?_, fun hsame => ?_⟩
  · exact (hshared first (by simp [hsites]) second (by simp [hsites])).mpr
      ⟨hfirst.1.trans hsecond.1.symm, hfirst.2.1.trans hsecond.2.1.symm,
        hfirst.2.2.trans hsecond.2.2.symm⟩
  · have hshape := ((hshared first (by simp [hsites]) generic (by simp [hsites])).mp hsame).2.2
    rw [hfirst.2.2, hgeneric.2.2] at hshape
    exact absurd hshape (by decide)

end Facade
