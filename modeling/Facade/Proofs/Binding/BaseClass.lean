import Facade.Proofs.Binding.Agreement
import Facade.Proofs.Binding.OuterArguments

/-!
# The base class of a class

The first class at the first place of a base list is the base class. It is taken out of the base lists
once: a declaration that names it again lists it among the interfaces.

* `Environment.firstBase?`, `Environment.besidesBase`, **`Environment.foldl_addBases`**: the base lists
  of all declarations, one after the other;
* `Model.basesAt`, `Model.HasBaseClass`: what the declarations of a class name;
* **`Model.bases_of_class`**: the base class and the interfaces of a class, and when the base class is
  not among these;
* `bases_of_class_named_once`: partial declarations of which one names the base class;
* `not_interfaces_of_repeated`: partial declarations that repeat it.
-/

namespace Facade

open Relation Program

/-! ## Base lists -/

theorem filter_eraseDups {α : Type} [BEq α] [LawfulBEq α] (f : α → Bool) (xs : List α) :
    xs.eraseDups.filter f = (xs.filter f).eraseDups := by
  induction xs using induction_on_eraseDups with
  | nil => rfl
  | cons x xs ih =>
    rw [List.eraseDups_cons]
    by_cases hx : f x
    · rw [List.filter_cons_of_pos hx, List.filter_cons_of_pos hx, List.eraseDups_cons, ih,
        List.filter_filter, List.filter_filter]
      simp only [Bool.and_comm]
    · have hother : ∀ y ∈ xs, (f y && !(y == x)) = f y := by
        intro y _
        by_cases hy : y = x
        · simp [hy, hx]
        · simp [hy]
      rw [List.filter_cons_of_neg hx, List.filter_cons_of_neg hx, ih, List.filter_filter,
        List.filter_congr hother]

namespace Environment

section

variable (isClass : TypeSymbol → Bool)

/-- The first class at the first place of a base list. -/
def firstBase? (lists : List (List TypeSymbol)) : Option TypeSymbol :=
  lists.findSome? fun l => l.head?.filter isClass

/-- What base lists name besides the first class at the first place of one of them. -/
def besidesBase : List (List TypeSymbol) → List TypeSymbol
  | [] => []
  | [] :: lists => besidesBase lists
  | (b :: bs) :: lists =>
    if isClass b then bs ++ lists.flatten else b :: bs ++ besidesBase lists

variable {isClass}

theorem firstBase?_cons_of_pos {b : TypeSymbol} (hb : isClass b) (bs : List TypeSymbol)
    (lists : List (List TypeSymbol)) : firstBase? isClass ((b :: bs) :: lists) = some b := by
  rw [firstBase?, List.findSome?_cons, List.head?_cons, Option.filter_some, if_pos hb]

theorem firstBase?_cons_of_neg {b : TypeSymbol} (hb : ¬ isClass b) (bs : List TypeSymbol)
    (lists : List (List TypeSymbol)) :
    firstBase? isClass ((b :: bs) :: lists) = firstBase? isClass lists := by
  rw [firstBase?, List.findSome?_cons, List.head?_cons, Option.filter_some, if_neg hb, firstBase?]

theorem exists_of_firstBase? {lists : List (List TypeSymbol)} {B : TypeSymbol}
    (h : firstBase? isClass lists = some B) :
    ∃ xs ys, lists.flatten = xs ++ B :: ys ∧ besidesBase isClass lists = xs ++ ys := by
  induction lists with
  | nil => cases h
  | cons l lists ih =>
    cases l with
    | nil => exact ih h
    | cons b bs =>
      by_cases hb : isClass b
      · rw [firstBase?_cons_of_pos hb, Option.some.injEq] at h
        exact ⟨[], bs ++ lists.flatten, by simp [h], by simp [besidesBase, hb]⟩
      · rw [firstBase?_cons_of_neg hb] at h
        obtain ⟨xs, ys, hall, hleft⟩ := ih h
        exact ⟨b :: bs ++ xs, ys, by simp [hall], by simp [besidesBase, hb, hleft]⟩

theorem filter_besidesBase {lists : List (List TypeSymbol)} {B : TypeSymbol}
    (h : firstBase? isClass lists = some B) :
    (besidesBase isClass lists).filter (· ≠ B) = lists.flatten.filter (· ≠ B) := by
  obtain ⟨xs, ys, hall, hleft⟩ := exists_of_firstBase? h
  simp [hall, hleft]

theorem count_besidesBase {lists : List (List TypeSymbol)} {B : TypeSymbol}
    (h : firstBase? isClass lists = some B) :
    lists.flatten.count B = (besidesBase isClass lists).count B + 1 := by
  obtain ⟨xs, ys, hall, hleft⟩ := exists_of_firstBase? h
  simp [hall, hleft, Nat.add_assoc]

end

variable (e : Environment)

/-- With a base class, or at any place but the first, a base type is one more interface. -/
theorem addBase_eq_addNew {kind : TypeKind} {isFirst : Bool} {b : Bases} {t : TypeSymbol}
    (h : (isFirst && kind == .classKind && e.program.kind t == .classKind && b.baseType.isNone) =
      false) :
    e.addBase kind isFirst b t = { b with interfaces := addNew b.interfaces t } := by
  rw [addBase, if_neg (by simp [h]), addNew]
  split_ifs <;> rfl

theorem foldl_addBase_false (kind : TypeKind) (ts : List TypeSymbol) (b : Bases) :
    ts.foldl (e.addBase kind false) b = { b with interfaces := ts.foldl addNew b.interfaces } := by
  induction ts generalizing b with
  | nil => rfl
  | cons t ts ih => rw [List.foldl_cons, addBase_eq_addNew e (by simp), ih, List.foldl_cons]

theorem addBases_some (kind : TypeKind) (B : TypeSymbol) (found ts : List TypeSymbol) :
    e.addBases kind ⟨some B, found⟩ ts = ⟨some B, ts.foldl addNew found⟩ := by
  cases ts with
  | nil => rfl
  | cons t ts => rw [addBases, addBase_eq_addNew e (by simp), foldl_addBase_false, List.foldl_cons]

/-- **The base lists of a class, one after the other**: the first class at the first place of one is the
base class, and all else is listed, each type once. -/
theorem foldl_addBases (lists : List (List TypeSymbol)) (found : List TypeSymbol) :
    lists.foldl (e.addBases .classKind) ⟨none, found⟩ =
      ⟨firstBase? (e.program.kind · == .classKind) lists,
        (besidesBase (e.program.kind · == .classKind) lists).foldl addNew found⟩ := by
  have hsome : ∀ (lists : List (List TypeSymbol)) (B : TypeSymbol) (found : List TypeSymbol),
      lists.foldl (e.addBases .classKind) ⟨some B, found⟩ =
        ⟨some B, lists.flatten.foldl addNew found⟩ := by
    intro lists B
    induction lists with
    | nil => exact fun _ => rfl
    | cons l lists ih =>
      intro found
      rw [List.foldl_cons, addBases_some, ih, List.flatten_cons, List.foldl_append]
  induction lists generalizing found with
  | nil => rfl
  | cons l lists ih =>
    cases l with
    | nil => exact ih found
    | cons b bs =>
      rw [List.foldl_cons, addBases, foldl_addBase_false]
      by_cases hb : e.program.kind b = .classKind
      · have hadd : e.addBase .classKind true ⟨none, found⟩ b = ⟨some b, found⟩ := by
          simp [addBase, hb]
        rw [hadd, hsome, firstBase?_cons_of_pos (by simpa using hb), besidesBase,
          if_pos (by simpa using hb), List.foldl_append]
      · rw [addBase_eq_addNew e (by simp [hb]), ih, firstBase?_cons_of_neg (by simpa using hb),
          besidesBase, if_neg (by simpa using hb), List.cons_append, List.foldl_cons,
          List.foldl_append]

theorem basesOf_class (sites : List TypeSite) :
    let lists := sites.map fun s => s.head.baseTypes.map (e.resolve (e.declarations.scopeAt s))
    e.basesOf .classKind sites = ⟨firstBase? (e.program.kind · == .classKind) lists,
      (besidesBase (e.program.kind · == .classKind) lists).eraseDups⟩ := by
  intro lists
  have hfold : e.basesOf .classKind sites = lists.foldl (e.addBases .classKind) ⟨none, []⟩ := by
    rw [List.foldl_map]
    rfl
  rw [hfold, foldl_addBases, foldl_addNew]
  simp

end Environment

/-! ## Classes -/

/-- Two programs in which all types but one are based on the same. -/
def Program.BasedAlikeBut (p p' : Program) (k : DefinitionKey) : Prop :=
  ∀ l, l ≠ k → Option.Rel Definition.BasedAlike (p.definition? l) (p'.definition? l)

/-- What a type is, and is based on. -/
def Definition.basis (d : Definition) :
    DefinitionKey × List TypeParameter × Option TypeSymbol × List TypeSymbol :=
  (d.key, d.typeParameters, d.baseType, d.interfaces)

theorem Program.basedAlikeBut_of_basis {p p' : Program} {k : DefinitionKey}
    (h : (p.definitions.map Definition.basis).filter (·.1 ≠ k) =
      (p'.definitions.map Definition.basis).filter (·.1 ≠ k)) : p.BasedAlikeBut p' k := by
  intro l hl
  have hfind : ∀ p : Program, (p.definition? l).map Definition.basis =
      ((p.definitions.map Definition.basis).filter (·.1 ≠ k)).find? (·.1 == l) := by
    intro p
    rw [List.find?_filter, List.find?_map, definition?]
    congr 2
    funext d
    by_cases hd : d.key = l <;> simp [Definition.basis, hd, hl]
  have hboth : (p.definition? l).map Definition.basis = (p'.definition? l).map Definition.basis := by
    rw [hfind, hfind, h]
  cases hd : p.definition? l with
  | none =>
    rw [hd, Option.map_none, eq_comm, Option.map_eq_none_iff] at hboth
    rw [hboth]
    exact .none
  | some d =>
    rw [hd, Option.map_some, eq_comm, Option.map_eq_some_iff] at hboth
    obtain ⟨d', hd', hbasis⟩ := hboth
    rw [hd']
    obtain ⟨-, hparameters, hbase, hinterfaces⟩ : d'.key = d.key ∧
        d'.typeParameters = d.typeParameters ∧ d'.baseType = d.baseType ∧
        d'.interfaces = d.interfaces := by
      simpa [Definition.basis] using hbasis
    exact .some ⟨hparameters.symm, hbase.symm, hinterfaces.symm⟩

theorem Program.exists_of_mem_allInterfaces {p : Program} {t B : TypeSymbol}
    (h : B ∈ p.allInterfaces t) : ∃ s, ReflTransGen p.Edge t s ∧ B ∈ p.interfaces s := by
  rcases (p.typeSearch_searchDepth t).reaches (List.mem_filter.mp h).1 with hnil | hreaches
  · cases hnil
  · obtain ⟨b, hbase, hinterfaces⟩ := hreaches
    obtain ⟨s, hs, hlast⟩ := TransGen.tail'_iff.mp hinterfaces
    have hdown : ReflTransGen p.Edge t b := ReflTransGen.mono (fun _ _ h => Or.inl h) _ _ hbase
    have hacross : ReflTransGen p.Edge b s := ReflTransGen.mono (fun _ _ h => Or.inr h) _ _ hs
    exact ⟨s, hdown.trans hacross, hlast⟩

namespace Model

/-- The base types that one declaration of a type names. -/
def basesAt (m : Model) (site : TypeSite) : List TypeSymbol :=
  site.head.baseTypes.map (m.resolveAt site)

/-- The base types that the declarations of a type name. -/
def namedBases (m : Model) (d : Definition) : List TypeSymbol := d.sites.flatMap m.basesAt

/-- The declarations of a class that name a class at the first place all name `B`, and some do. -/
structure HasBaseClass (m : Model) (d : Definition) (B : TypeSymbol) : Prop where
  kind : d.kind = .classKind
  named : ∃ site ∈ d.sites, (m.basesAt site).head? = some B
  isClass : m.program.kind B = .classKind
  same : ∀ site ∈ d.sites, ∀ b ∈ (m.basesAt site).head?, m.program.kind b = .classKind → b = B

instance (m : Model) (d : Definition) (B : TypeSymbol) : Decidable (m.HasBaseClass d B) :=
  decidable_of_iff (d.kind = .classKind ∧ (∃ site ∈ d.sites, (m.basesAt site).head? = some B) ∧
      m.program.kind B = .classKind ∧ ∀ site ∈ d.sites, ∀ b ∈ (m.basesAt site).head?,
        m.program.kind b = .classKind → b = B)
    ⟨fun ⟨hkind, hnamed, hclass, hsame⟩ => ⟨hkind, hnamed, hclass, hsame⟩,
      fun h => ⟨h.kind, h.named, h.isClass, h.same⟩⟩

variable {units units' : List CompilationUnit}

theorem kind_ofUnits : (t : TypeSymbol) →
    (ofUnits units).program.kind t = (Environment.ofUnits units).program.kind t
  | .special _ | .parameter _ | .unresolved .. | .array .. | .pointer _ | .tuple _ => rfl
  | .nullable e => by rw [Program.kind, Program.kind, kind_ofUnits e]
  | .definition k | .constructed k _ => by
    rw [Program.kind, Program.kind, definition?_ofUnits, Environment.definition?_ofUnits]
    cases (Declarations.ofUnits units).define k with
    | none => rfl
    | some d =>
      change ((Environment.ofUnits units).bind d).kind = d.kind
      rw [Environment.bind]
      split <;> rfl

theorem bases_of_mem {d : Definition} (hd : d ∈ (ofUnits units).program.definitions)
    (hkind : d.kind = .classKind) :
    let lists := d.sites.map (ofUnits units).basesAt
    d.baseType = Environment.firstBase? ((ofUnits units).program.kind · == .classKind) lists ∧
      d.interfaces = (Environment.besidesBase ((ofUnits units).program.kind · == .classKind)
        lists).eraseDups := by
  obtain ⟨d₀, -, rfl⟩ := exists_define_of_mem hd
  have hkind₀ : d₀.kind = .classKind := by
    rw [← hkind, Environment.bind]
    split <;> rfl
  simp only [funext kind_ofUnits, Environment.sites_bind]
  rw [Environment.bind, hkind₀]
  exact ⟨congrArg Bases.baseType (Environment.basesOf_class _ _),
    congrArg Bases.interfaces (Environment.basesOf_class _ _)⟩

theorem HasBaseClass.firstBase? {m : Model} {d : Definition} {B : TypeSymbol}
    (h : m.HasBaseClass d B) :
    Environment.firstBase? (m.program.kind · == .classKind) (d.sites.map m.basesAt) = some B := by
  obtain ⟨site, hsite, hhead⟩ := h.named
  cases hfirst : Environment.firstBase? (m.program.kind · == .classKind)
      (d.sites.map m.basesAt) with
  | none =>
    have hnone := List.findSome?_eq_none_iff.mp hfirst _ (List.mem_map_of_mem hsite)
    simp [hhead, h.isClass] at hnone
  | some b =>
    obtain ⟨l, hl, hb⟩ := List.exists_of_findSome?_eq_some hfirst
    obtain ⟨other, hother, rfl⟩ := List.mem_map.mp hl
    obtain ⟨hhead', hclass⟩ := Option.filter_eq_some_iff.mp hb
    rw [h.same other hother b hhead' (by simpa using hclass)]

theorem interfaces_of_mem {d : Definition} (hd : d ∈ (ofUnits units).program.definitions) :
    (ofUnits units).program.interfaces (.definition d.key) = d.interfaces := by
  rw [Program.interfaces_definition, Program.interfaces_constructed (definition?_of_mem hd),
    List.zip_nil_right]
  refine (List.map_congr_left fun b hb => ?_).trans (List.map_id' _)
  exact ((isScoped_ofUnits units).bases d hd b (List.mem_append_left _ hb)).substitute_self
    fun _ _ => rfl

theorem mem_keys_iff {k : DefinitionKey} : k ∈ (Declarations.ofUnits units).keys ↔
    ((ofUnits units).program.definition? k).isSome := by
  rw [definition?_ofUnits, Option.isSome_map]
  constructor
  · intro hk
    obtain ⟨d, hd⟩ := Declarations.exists_define hk
    simp [hd]
  · intro hk
    obtain ⟨d, hd⟩ := Option.isSome_iff_exists.mp hk
    exact (Declarations.define_eq_some hd).2.1

theorem basedAlike_of_but {d d' : Definition} (hd : d ∈ (ofUnits units).program.definitions)
    (hd' : d' ∈ (ofUnits units').program.definitions) (hkey : d'.key = d.key)
    (halike : d'.BasedAlike d)
    (hbut : (ofUnits units').program.BasedAlikeBut (ofUnits units).program d.key) :
    (ofUnits units').program.BasedAlike (ofUnits units).program := by
  have hrel : ∀ k, Option.Rel Definition.BasedAlike ((ofUnits units').program.definition? k)
      ((ofUnits units).program.definition? k) := by
    intro k
    by_cases hk : k = d.key
    · rw [hk, definition?_of_mem hd, ← hkey, definition?_of_mem hd']
      exact .some halike
    · exact hbut k hk
  refine ⟨hrel, ?_⟩
  rw [length_definitions, length_definitions]
  refine ((List.perm_ext_iff_of_nodup Declarations.nodup_keys Declarations.nodup_keys).mpr
    fun k => ?_).length_eq
  rw [mem_keys_iff, mem_keys_iff]
  rcases both_of_rel (hrel k) with ⟨hnone, hnone'⟩ | ⟨a, b, ha, hb, -⟩
  · rw [hnone, hnone']
  · rw [ha, hb]
    rfl

theorem HasBaseClass.bases {d : Definition} (hd : d ∈ (ofUnits units).program.definitions)
    {B : TypeSymbol} (h : (ofUnits units).HasBaseClass d B) :
    d.baseType = some B ∧
    d.interfaces.filter (· ≠ B) = (((ofUnits units).namedBases d).filter (· ≠ B)).eraseDups ∧
    (B ∈ d.interfaces ↔ 2 ≤ ((ofUnits units).namedBases d).count B) := by
  obtain ⟨hbase, hinterfaces⟩ := bases_of_mem hd h.kind
  have hfirst := h.firstBase?
  rw [hbase, hinterfaces, namedBases, List.flatMap_def]
  refine ⟨hfirst, ?_, ?_⟩
  · rw [filter_eraseDups, Environment.filter_besidesBase hfirst]
  · rw [List.mem_eraseDups, ← List.count_pos_iff, Environment.count_besidesBase hfirst]
    omega

theorem HasBaseClass.interfaces_of_once {d : Definition}
    (hd : d ∈ (ofUnits units).program.definitions) {B : TypeSymbol}
    (h : (ofUnits units).HasBaseClass d B) (honce : ((ofUnits units).namedBases d).count B = 1) :
    B ∉ d.interfaces ∧
      d.interfaces = (((ofUnits units).namedBases d).filter (· ≠ B)).eraseDups := by
  obtain ⟨-, hfilter, hmem⟩ := h.bases hd
  have hnot : B ∉ d.interfaces := by
    rw [hmem, honce]
    omega
  refine ⟨hnot, ?_⟩
  rw [← hfilter]
  refine (List.filter_eq_self.mpr fun t ht => ?_).symm
  exact decide_eq_true fun heq => hnot (heq ▸ ht)

/-- **The base class and the interfaces of a class.** Where the declarations of a class name a class at
the first place they all name `B`. Then `B` is the base class, the interfaces besides `B` are the other
types that the declarations name, by their first occurrences, and `B` is among the interfaces if and only
if it is named more than once. If it is named once, by whichever declaration, it is not listed among all
interfaces, unless by a type that the base lists lead to; and however the class is declared, if the
declarations name `B` once and the same other types, they give the same. -/
theorem bases_of_class {d : Definition} (hd : d ∈ (ofUnits units).program.definitions)
    {B : TypeSymbol} (h : (ofUnits units).HasBaseClass d B) :
    let m := ofUnits units
    d.baseType = some B ∧
    d.interfaces.filter (· ≠ B) = ((m.namedBases d).filter (· ≠ B)).eraseDups ∧
    (B ∈ d.interfaces ↔ 2 ≤ (m.namedBases d).count B) ∧
    ((m.namedBases d).count B = 1 →
      d.interfaces = ((m.namedBases d).filter (· ≠ B)).eraseDups ∧
      ((∀ s, TransGen m.program.Edge (.definition d.key) s → B ∉ m.program.interfaces s) →
        B ∉ m.program.allInterfaces (.definition d.key)) ∧
      ∀ (others : List CompilationUnit) (d' : Definition),
        let m' := ofUnits others
        d' ∈ m'.program.definitions → d'.key = d.key → m'.HasBaseClass d' B →
        (m'.namedBases d').count B = 1 →
        ((m'.namedBases d').filter (· ≠ B)).eraseDups =
          ((m.namedBases d).filter (· ≠ B)).eraseDups →
        d'.baseType = d.baseType ∧ d'.interfaces = d.interfaces ∧
          (d'.typeParameters = d.typeParameters → m'.program.BasedAlikeBut m.program d.key →
            m'.program.allInterfaces = m.program.allInterfaces)) := by
  intro m
  obtain ⟨hbase, hfilter, hmem⟩ := h.bases hd
  refine ⟨hbase, hfilter, hmem, fun honce => ?_⟩
  obtain ⟨hnot, hinterfaces⟩ := h.interfaces_of_once hd honce
  refine ⟨hinterfaces, fun hbelow hall => ?_, ?_⟩
  · obtain ⟨s, hs, hlists⟩ := Program.exists_of_mem_allInterfaces hall
    rcases reflTransGen_iff_eq_or_transGen.mp hs with rfl | hs
    · exact hnot (interfaces_of_mem hd ▸ hlists)
    · exact hbelow s hs hlists
  · intro others d' m' hd' hkey h' honce' hsame
    obtain ⟨hbase', -, -⟩ := h'.bases hd'
    obtain ⟨-, hinterfaces'⟩ := h'.interfaces_of_once hd' honce'
    have hbases : d'.baseType = d.baseType := hbase'.trans hbase.symm
    have hlisted : d'.interfaces = d.interfaces := by rw [hinterfaces', hinterfaces, hsame]
    exact ⟨hbases, hlisted, fun hparameters hbut =>
      (basedAlike_of_but hd hd' hkey ⟨hparameters, hbases, hlisted⟩ hbut).allInterfaces_eq⟩

end Model

section Example

/-- A class in two parts, of which one names the base class. -/
def namedOnceSource : String :=
  "namespace N \x7b class B \x7b \x7d interface I \x7b \x7d interface J \x7b \x7d
  partial class C : B, I \x7b \x7d partial class C : J, I \x7b \x7d \x7d"

/-- A top-level type of the namespace of the sources. -/
def typeNamed (n : String) : TypeSymbol := .definition (.topLevel (some "N") n 0)

/-- The class in one declaration. -/
def wholeSource : String :=
  "namespace N \x7b class B \x7b \x7d interface I \x7b \x7d interface J \x7b \x7d
  class C : B, I, J \x7b \x7d \x7d"

/-- The program has the class, in so many declarations, which name its base class once and the same two
interfaces; no other type is based on any. -/
def HasClass (m : Model) (d : Definition) (declarations : Nat) : Prop :=
  (d.key = .topLevel (some "N") "C" 0 ∧ d.typeParameters = [] ∧ d.sites.length = declarations) ∧
    (m.HasBaseClass d (typeNamed "B") ∧ (m.namedBases d).count (typeNamed "B") = 1 ∧
      ((m.namedBases d).filter (· ≠ typeNamed "B")).eraseDups = [typeNamed "I", typeNamed "J"]) ∧
    (m.program.definitions.map Definition.basis).filter (·.1 ≠ .topLevel (some "N") "C" 0) =
      ["B", "I", "J"].map fun n => (.topLevel (some "N") n 0, [], none, [])

instance (m : Model) (d : Definition) (n : Nat) : Decidable (HasClass m d n) :=
  inferInstanceAs (Decidable (_ ∧ _))

theorem exists_hasClass (source : String) (n : Nat)
    (h : (firstDeclared? source).any (fun (x : CompilationUnit × Declared) =>
      decide (∃ d ∈ (Model.ofUnits [x.1]).program.definitions, HasClass (Model.ofUnits [x.1]) d n)) =
      true) :
    ∃ u, ∃ d ∈ (Model.ofUnits [u]).program.definitions, HasClass (Model.ofUnits [u]) d n := by
  obtain ⟨⟨u, _⟩, -, hfacts⟩ := (Option.any_eq_true _ _).mp h
  exact ⟨u, of_decide_eq_true hfacts⟩

/-- **A base class that one part names is no interface**, of the class or behind it, and the parts give
what the whole gives. -/
theorem bases_of_class_named_once : ∃ (u v : CompilationUnit) (d d' : Definition),
    d ∈ (Model.ofUnits [u]).program.definitions ∧ d.sites.length = 2 ∧
    (Model.ofUnits [u]).HasBaseClass d (typeNamed "B") ∧
    d.baseType = some (typeNamed "B") ∧ d.interfaces = [typeNamed "I", typeNamed "J"] ∧
    typeNamed "B" ∉ (Model.ofUnits [u]).program.allInterfaces (.definition d.key) ∧
    d' ∈ (Model.ofUnits [v]).program.definitions ∧ d'.sites.length = 1 ∧
    d'.interfaces = d.interfaces ∧
    (Model.ofUnits [v]).program.allInterfaces = (Model.ofUnits [u]).program.allInterfaces := by
  obtain ⟨u, d, hd, ⟨hkey, hparameters, hsites⟩, ⟨hbase, honce, hnamed⟩, hbasis⟩ :=
    exists_hasClass namedOnceSource 2 (by decide +kernel)
  obtain ⟨v, d', hd', ⟨hkey', hparameters', hsites'⟩, ⟨hbase', honce', hnamed'⟩, hbasis'⟩ :=
    exists_hasClass wholeSource 1 (by decide +kernel)
  obtain ⟨hB, -, -, hlists⟩ := Model.bases_of_class hd hbase
  obtain ⟨hinterfaces, hall, hwhole⟩ := hlists honce
  rw [hnamed] at hinterfaces
  have hnone : ∀ s, typeNamed "B" ∉ (Model.ofUnits [u]).program.interfaces s := by
    intro s hs
    rw [Program.interfaces] at hs
    split at hs
    · next c hc =>
      obtain ⟨k, -, hk⟩ := Option.bind_eq_some_iff.mp hc
      obtain ⟨hc, -⟩ := Program.definition?_eq_some hk
      obtain ⟨i, hi, heq⟩ := List.mem_map.mp hs
      by_cases hck : c.key = .topLevel (some "N") "C" 0
      · rw [Model.ext_of_mem hc hd (hck.trans hkey.symm), hinterfaces] at hi
        simp only [List.mem_cons, List.not_mem_nil, or_false] at hi
        rcases hi with rfl | rfl
        · exact absurd (show typeNamed "I" = typeNamed "B" from heq) (by decide)
        · exact absurd (show typeNamed "J" = typeNamed "B" from heq) (by decide)
      · have hmem : c.basis ∈ ((Model.ofUnits [u]).program.definitions.map
            Definition.basis).filter (·.1 ≠ .topLevel (some "N") "C" 0) :=
          List.mem_filter.mpr ⟨List.mem_map_of_mem hc, decide_eq_true hck⟩
        rw [hbasis] at hmem
        obtain ⟨n, -, hn⟩ := List.mem_map.mp hmem
        have hnil : [] = c.interfaces := congrArg (fun b => b.2.2.2) hn
        rw [← hnil] at hi
        cases hi
    · cases hs
  obtain ⟨-, hsame, hclosures⟩ := hwhole [v] d' hd' (hkey'.trans hkey.symm) hbase' honce'
    (hnamed'.trans hnamed.symm)
  have hbut : (Model.ofUnits [v]).program.BasedAlikeBut (Model.ofUnits [u]).program d.key :=
    hkey ▸ Program.basedAlikeBut_of_basis (hbasis'.trans hbasis.symm)
  exact ⟨u, v, d, d', hd, hsites, hbase, hB, hinterfaces, hall fun s _ => hnone s, hd', hsites',
    hsame, hclosures (hparameters'.trans hparameters.symm) hbut⟩

/-- A class in two parts that both name the base class. -/
def repeatedSource : String :=
  "namespace N \x7b class B \x7b \x7d interface I \x7b \x7d
  partial class C : B \x7b \x7d partial class C : B, I \x7b \x7d \x7d"

/-- **A base class that is named again is listed as an interface.** -/
theorem not_interfaces_of_repeated :
    ¬ ∀ units : List CompilationUnit,
      (∀ u ∈ units, ∃ path source, CompilationUnit.parse path source = .ok u) →
      ∀ d ∈ (Model.ofUnits units).program.definitions, ∀ B,
        (Model.ofUnits units).HasBaseClass d B → B ∉ d.interfaces := by
  intro h
  have hprogram : (firstDeclared? repeatedSource).any
      (fun (x : CompilationUnit × Declared) =>
        let m := Model.ofUnits [x.1]
        decide (∃ d ∈ m.program.definitions, m.HasBaseClass d (typeNamed "B") ∧
          typeNamed "B" ∈ d.interfaces)) = true := by
    decide +kernel
  obtain ⟨⟨u, declared⟩, hx, hfacts⟩ := (Option.any_eq_true _ _).mp hprogram
  obtain ⟨d, hd, hbase, hlisted⟩ := of_decide_eq_true hfacts
  exact h [u] (of_firstDeclared hx).1 d hd _ hbase hlisted

end Example

end Facade
