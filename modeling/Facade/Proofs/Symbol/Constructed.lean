import Facade.Proofs.Symbol.Substitution

/-!
# The closure of a constructed type

The ways down from a constructed type are those from its definition with the type arguments put in, as
long as no base list on the way names a type parameter. Putting types in can make interfaces alike that
differ in the definition, so each is listed once only after that.

* `Program.BaseOf`, `Program.LeadsTo`: the base lists of definitions;
* `Program.acyclic_of_definition`: cycles of types are cycles of definitions;
* `Program.Mirrors`, `Program.TypeWalk.substitute`: the walk from a constructed type;
* **`Program.IsScoped.allInterfaces_constructed`**: all its interfaces.
-/

namespace Facade.Program

open Relation

variable {p : Program}

/-! ## First visits of replaced types -/

theorem eraseDups_eq_foldl (walk : List TypeSymbol) : walk.eraseDups = walk.foldl addNew [] := by
  rw [foldl_addNew]
  simp

/-- First visits may be sorted out before types are replaced, for replacing makes types alike but
never apart. -/
theorem foldl_addNew_map (f : TypeSymbol → TypeSymbol) (walk found out : List TypeSymbol) :
    ((walk.foldl addNew found).map f).foldl addNew out =
      (walk.map f).foldl addNew ((found.map f).foldl addNew out) := by
  induction walk generalizing found with
  | nil => rfl
  | cons t walk ih =>
    rw [List.foldl_cons, ih, List.map_cons, List.foldl_cons]
    congr 1
    by_cases ht : t ∈ found
    · have hmet : f t ∈ (found.map f).foldl addNew out :=
        mem_foldl_addNew.mpr (Or.inr (List.mem_map_of_mem ht))
      rw [addNew, if_pos ht, addNew, if_pos hmet]
    · rw [addNew, if_neg ht, List.map_append, List.foldl_append]
      rfl

theorem eraseDups_map_eraseDups (f : TypeSymbol → TypeSymbol) (walk : List TypeSymbol) :
    (walk.eraseDups.map f).eraseDups = (walk.map f).eraseDups := by
  simp only [eraseDups_eq_foldl, foldl_addNew_map, List.map_nil, List.foldl_nil]

/-! ## One walk only -/

theorem InterfaceWalk.unique {ts walk walk' : List TypeSymbol} (h : p.InterfaceWalk ts walk)
    (h' : p.InterfaceWalk ts walk') : walk = walk' := by
  induction h generalizing walk' with
  | nil => cases h'; rfl
  | cons _ _ ih ih' =>
    cases h' with
    | cons hinner hrest => rw [ih hinner, ih' hrest]

theorem TypeWalk.unique {t : TypeSymbol} {walk walk' : List TypeSymbol} (h : p.TypeWalk t walk)
    (h' : p.TypeWalk t walk') : walk = walk' := by
  induction h generalizing walk' with
  | last hown hbase =>
    cases h' with
    | last hown' _ => exact hown.unique hown'
    | base _ hbase' _ => rw [hbase] at hbase'; cases hbase'
  | base hown hbase _ ih =>
    cases h' with
    | last _ hbase' => rw [hbase] at hbase'; cases hbase'
    | base hown' hbase' hwalk' =>
      rw [hbase, Option.some.injEq] at hbase'
      subst hbase'
      rw [hown.unique hown', ih hwalk']

theorem allInterfaces_eq_eraseDups {t : TypeSymbol} (h : p.Acyclic t) {walk : List TypeSymbol}
    (hwalk : p.TypeWalk t walk) : p.allInterfaces t = walk.eraseDups := by
  obtain ⟨walk', hwalk', hout⟩ := (p.typeSearch_searchDepth t).follows h
    ⟨fun s hs => List.mem_singleton.mp hs ▸ .refl, fun k hk => absurd hk List.not_mem_nil⟩
    (fun s hs => absurd hs List.not_mem_nil)
  rw [p.allInterfaces_of_acyclic h, hout, hwalk.unique hwalk', eraseDups_eq_foldl]

theorem exists_typeWalk {t : TypeSymbol} (h : p.Acyclic t) : ∃ walk, p.TypeWalk t walk := by
  obtain ⟨walk, hwalk, -⟩ := (p.typeSearch_searchDepth t).follows h
    ⟨fun s hs => List.mem_singleton.mp hs ▸ .refl, fun k hk => absurd hk List.not_mem_nil⟩
    (fun s hs => absurd hs List.not_mem_nil)
  exact ⟨walk, hwalk⟩

/-! ## Ways down from a definition -/

/-- The base list of a declared type names the other one, perhaps with type arguments. -/
def BaseOf (p : Program) (k k' : DefinitionKey) : Prop :=
  ∃ d, p.definition? k = some d ∧ ∃ b ∈ d.interfaces ++ d.baseType.toList, b.key? = some k'

/-- Base lists lead from one declared type to another, or they are the same. -/
def LeadsTo (p : Program) : DefinitionKey → DefinitionKey → Prop := ReflTransGen p.BaseOf

/-- Some base list that `k` leads to names a type parameter. -/
def NamesParameter (p : Program) (k : DefinitionKey) : Prop :=
  ∃ k', p.LeadsTo k k' ∧ ∃ d, p.definition? k' = some d ∧
    ∃ q, TypeSymbol.parameter q ∈ d.interfaces ++ d.baseType.toList

/-- Some declared type that `k` leads to is an ancestor of itself. -/
def IsCyclic (p : Program) (k : DefinitionKey) : Prop :=
  ∃ k', p.LeadsTo k k' ∧ TransGen p.BaseOf k' k'

/-- What holds of a definition and of all that base lists name holds of all that they lead to. -/
theorem LeadsTo.of_forall {k l : DefinitionKey} (h : p.LeadsTo k l) {P : DefinitionKey → Prop}
    (hk : P k) (hall : ∀ d ∈ p.definitions, ∀ b ∈ d.interfaces ++ d.baseType.toList,
      ∀ k' ∈ b.key?, P k') : P l := by
  rcases ReflTransGen.cases_tail h with rfl | ⟨k', -, d, hd, b, hb, hl⟩
  · exact hk
  · exact hall d (definition?_eq_some hd).1 b hb l hl

theorem Layered.not_namesParameter {rank : DefinitionKey → Nat} (h : p.Layered rank)
    (k : DefinitionKey) : ¬ p.NamesParameter k := by
  rintro ⟨k', -, d, hd, q, hq⟩
  exact (h d (definition?_eq_some hd).1 _ hq).1 q rfl

theorem not_isCyclic_of_rank {rank : DefinitionKey → Nat}
    (h : ∀ d ∈ p.definitions, ∀ b ∈ d.interfaces ++ d.baseType.toList,
      ∀ k ∈ b.key?, rank k < rank d.key) (k : DefinitionKey) : ¬ p.IsCyclic k := by
  have hstep : ∀ l l', p.BaseOf l l' → rank l' < rank l := by
    rintro l l' ⟨d, hd, b, hb, hl'⟩
    obtain ⟨hmem, rfl⟩ := definition?_eq_some hd
    exact h d hmem b hb l' hl'
  rintro ⟨l, -, hl⟩
  have hlt : ∀ {l l'}, TransGen p.BaseOf l l' → rank l' < rank l := by
    intro l l' h
    induction h with
    | single h => exact hstep _ _ h
    | tail _ h ih => exact Nat.lt_trans (hstep _ _ h) ih
  exact Nat.lt_irrefl _ (hlt hl)

theorem Layered.not_isCyclic {rank : DefinitionKey → Nat} (h : p.Layered rank)
    (k : DefinitionKey) : ¬ p.IsCyclic k :=
  not_isCyclic_of_rank (fun d hd b hb => (h d hd b hb).2) k

section

variable {k : DefinitionKey}

theorem acyclic_of_no_key {t : TypeSymbol} (ht : t.key? = none) : p.Acyclic t := by
  have hnone : ∀ s, ¬ p.Edge t s := fun s hedge => by
    obtain ⟨k, -, hkey, -⟩ := hedge.exists_base
    rw [ht] at hkey
    cases hkey
  intro s s' hs hss'
  rcases ReflTransGen.cases_head hs with rfl | ⟨s₁, hedge, -⟩
  · rcases TransGen.head'_iff.mp hss' with ⟨s₁, hedge, -⟩
    exact absurd hedge (hnone s₁)
  · exact absurd hedge (hnone s₁)

theorem baseOf_of_edge (hnames : ¬ p.NamesParameter k) {s s' : TypeSymbol} (hedge : p.Edge s s')
    (hs : ∀ l ∈ s.key?, p.LeadsTo k l) : ∃ l ∈ s.key?, ∀ l' ∈ s'.key?, p.BaseOf l l' := by
  obtain ⟨l, d, hkey, hd, b, hb, rfl⟩ := hedge.exists_base
  have hparameter : ∀ q, b ≠ .parameter q := by
    rintro q rfl
    exact hnames ⟨l, hs l hkey, d, hd, q, hb⟩
  refine ⟨l, hkey, fun l' hl' => ⟨d, hd, b, hb, ?_⟩⟩
  rwa [key?_substitute hparameter] at hl'

theorem leadsTo_of_edges (hnames : ¬ p.NamesParameter k) {t s : TypeSymbol}
    (h : ReflTransGen p.Edge t s) (ht : t.key? = some k) : ∀ l ∈ s.key?, p.LeadsTo k l := by
  induction h with
  | refl => exact fun l hl => by rw [ht] at hl; cases hl; exact .refl
  | tail _ hedge ih =>
    obtain ⟨l, hl, hbase⟩ := baseOf_of_edge hnames hedge ih
    exact fun l' hl' => (ih l hl).tail (hbase l' hl')

/-- **Types without cycles**: a definition that leads to no cycle is one, whatever its type
arguments. -/
theorem acyclic_of_definition (hnames : ¬ p.NamesParameter k) (hcyclic : ¬ p.IsCyclic k)
    {t : TypeSymbol} (ht : t.key? = some k) : p.Acyclic t := by
  have hdown : ∀ s s', TransGen p.Edge s s' → (∀ l ∈ s.key?, p.LeadsTo k l) →
      ∃ l ∈ s.key?, ∀ l' ∈ s'.key?, TransGen p.BaseOf l l' := by
    intro s s' h hs
    induction h with
    | single hedge =>
      obtain ⟨l, hl, hbase⟩ := baseOf_of_edge hnames hedge hs
      exact ⟨l, hl, fun l' hl' => .single (hbase l' hl')⟩
    | tail _ hedge ih =>
      obtain ⟨l, hl, hbelow⟩ := ih
      obtain ⟨l', hl', hbase⟩ := baseOf_of_edge hnames hedge fun l' hl' =>
        (hs l hl).trans (hbelow l' hl').to_reflTransGen
      exact ⟨l, hl, fun l'' hl'' => (hbelow l' hl').tail (hbase l'' hl'')⟩
  intro s s' hs hss' hkey heq
  have hleads := leadsTo_of_edges hnames hs ht
  obtain ⟨l, hl, hbelow⟩ := hdown s s' hss' hleads
  exact hcyclic ⟨l, hleads l hl, hbelow l (heq ▸ hl)⟩

end

/-! ## The walk of a constructed type -/

/-- The interfaces and the base class of one type are those of another with types put in the place of
type parameters. -/
structure Mirrors (p : Program) (m : Substitution) (t t' : TypeSymbol) : Prop where
  interfaces : p.interfaces t' = (p.interfaces t).map (TypeSymbol.substitute m)
  baseType : p.baseType? t' = (p.baseType? t).map (TypeSymbol.substitute m)

/-- A type that base lists lead to from `k`. -/
structure IsBelow (p : Program) (k : DefinitionKey) (t : TypeSymbol) : Prop where
  isOver : t.IsOver fun _ => True
  ne_parameter : ∀ q, t ≠ .parameter q
  leadsTo : ∀ l ∈ t.key?, p.LeadsTo k l

theorem IsScoped.mirrors_constructed (hp : p.IsScoped) (k : DefinitionKey) (as : List TypeSymbol) :
    p.Mirrors ((p.typeParameters k).zip as) (.definition k) (.constructed k as) := by
  cases hd : p.definition? k with
  | none =>
    exact ⟨by rw [interfaces_eq_nil_of_undefined rfl hd, interfaces_eq_nil_of_undefined rfl hd]; rfl,
      by rw [baseType?_eq_none_of_undefined rfl hd, baseType?_eq_none_of_undefined rfl hd]; rfl⟩
  | some d =>
    have hself : ∀ b ∈ d.interfaces ++ d.baseType.toList, b.substitute [] = b := fun b hb =>
      (hp.bases d (definition?_eq_some hd).1 b hb).substitute_self fun _ _ => rfl
    constructor
    · rw [interfaces_definition, interfaces_constructed hd, interfaces_constructed hd,
        List.zip_nil_right, List.map_congr_left fun b hb => hself b (List.mem_append_left _ hb),
        List.map_id']
    · rw [baseType?_definition, baseType?_constructed hd, baseType?_constructed hd,
        List.zip_nil_right, Option.map_map]
      refine Option.map_congr fun b hb => ?_
      rw [Function.comp, hself b (List.mem_append_right _ (by simpa using hb))]

section

variable {k : DefinitionKey} (hp : p.IsScoped)
  (hgeneric : ∀ l, p.LeadsTo k l → ¬ l.IsInGeneric)

include hp hgeneric

theorem IsBelow.mirrors {t : TypeSymbol} (h : p.IsBelow k t) (m : Substitution) :
    p.Mirrors m t (t.substitute m) := by
  have hnone : ∀ {t : TypeSymbol}, t.key? = none → (t.substitute m).key? = none →
      p.Mirrors m t (t.substitute m) := fun ht ht' =>
    ⟨by rw [interfaces_eq_nil ht, interfaces_eq_nil ht']; rfl,
      by rw [baseType?_eq_none ht, baseType?_eq_none ht']; rfl⟩
  cases h.isOver with
  | special | unresolved | array | nullable | pointer | tuple => exact hnone rfl rfl
  | @parameter q => exact absurd rfl (h.ne_parameter q)
  | @definition l hl =>
    have hlgeneric := hgeneric l (h.leadsTo l rfl)
    have hlength : ([] : List TypeSymbol).length = l.arity := hl.symm
    have hinterfaces := hp.interfaces_substitute hlgeneric hlength m
    have hbase := hp.baseType_substitute hlgeneric hlength m
    rw [substitute_constructed_eq, List.map_nil] at hinterfaces hbase
    rw [TypeSymbol.substitute]
    exact ⟨by rw [interfaces_definition]; exact hinterfaces,
      by rw [baseType?_definition]; exact hbase⟩
  | @constructed l as has =>
    have hlgeneric := hgeneric l (h.leadsTo l rfl)
    exact ⟨hp.interfaces_substitute hlgeneric has m, hp.baseType_substitute hlgeneric has m⟩

omit hgeneric in
theorem isBelow_of_edge (hnames : ¬ p.NamesParameter k) {t s : TypeSymbol} (hedge : p.Edge t s)
    (ht : ∀ l ∈ t.key?, p.LeadsTo k l)
    (harguments : ∀ e ∈ p.arguments t, e.2.IsOver fun _ => True) : p.IsBelow k s := by
  obtain ⟨l, hl, hbase⟩ := baseOf_of_edge hnames hedge ht
  obtain ⟨l', d, hkey, hd, b, hb, rfl⟩ := hedge.exists_base
  have hparameter : ∀ q, b ≠ .parameter q := by
    rintro q rfl
    exact hnames ⟨l', ht l' hkey, d, hd, q, hb⟩
  refine ⟨(hp.bases d (definition?_eq_some hd).1 b hb).substitute fun q _ => ?_, fun q heq => ?_,
    fun l' hl' => (ht l hl).tail (hbase l' hl')⟩
  · unfold Substitution.apply
    split
    · next e he => exact harguments e (List.mem_of_find?_eq_some he)
    · exact .parameter trivial
  · cases b with
    | parameter q' => exact hparameter q' rfl
    | _ => cases heq

omit hgeneric in
theorem IsBelow.edge (hnames : ¬ p.NamesParameter k) {t s : TypeSymbol} (h : p.IsBelow k t)
    (hedge : p.Edge t s) : p.IsBelow k s := by
  refine isBelow_of_edge hp hnames hedge h.leadsTo fun e he => ?_
  cases h.isOver with
  | constructed _ has => exact has _ (List.of_mem_zip he).2
  | _ => cases he

theorem InterfaceWalk.substitute (hnames : ¬ p.NamesParameter k) {ts walk : List TypeSymbol}
    (h : p.InterfaceWalk ts walk) (hts : ∀ t ∈ ts, p.IsBelow k t) (m : Substitution) :
    p.InterfaceWalk (ts.map (TypeSymbol.substitute m)) (walk.map (TypeSymbol.substitute m)) := by
  induction h with
  | nil => exact .nil
  | @cons t ts inner rest _ _ ih ih' =>
    have ht := hts t List.mem_cons_self
    have hinner := ih fun s hs => ht.edge hp hnames (Or.inr hs)
    rw [← (ht.mirrors hp hgeneric m).interfaces] at hinner
    have hrest := ih' fun s hs => hts s (List.mem_cons_of_mem _ hs)
    rw [List.map_cons, List.map_cons, List.map_append]
    exact .cons hinner hrest

/-- **The walk from a type whose base types are those of another with types put in.** -/
theorem TypeWalk.substitute (hnames : ¬ p.NamesParameter k) {t : TypeSymbol}
    {walk : List TypeSymbol} (h : p.TypeWalk t walk) (ht : ∀ s, p.Edge t s → p.IsBelow k s)
    {m : Substitution} {t' : TypeSymbol} (hmirrors : p.Mirrors m t t') :
    p.TypeWalk t' (walk.map (TypeSymbol.substitute m)) := by
  induction h generalizing t' with
  | last hown hbase =>
    have hown' := hown.substitute hp hgeneric hnames (fun s hs => ht s (Or.inr hs)) m
    rw [← hmirrors.interfaces] at hown'
    exact .last hown' (by rw [hmirrors.baseType, hbase]; rfl)
  | @base t b own inherited hown hbase _ ih =>
    have hown' := hown.substitute hp hgeneric hnames (fun s hs => ht s (Or.inr hs)) m
    rw [← hmirrors.interfaces] at hown'
    have hb := ht b (Or.inl hbase)
    rw [List.map_append]
    exact .base hown' (by rw [hmirrors.baseType, hbase]; rfl)
      (ih (fun s hs => hb.edge hp hnames hs) (hb.mirrors hp hgeneric m))

/-- **All interfaces of a constructed type** are those of its definition with the type arguments put
in, each once. -/
theorem IsScoped.allInterfaces_constructed (hnames : ¬ p.NamesParameter k)
    (hcyclic : ¬ p.IsCyclic k) (as : List TypeSymbol) :
    p.allInterfaces (.constructed k as) =
      ((p.allInterfaces (.definition k)).map
        (TypeSymbol.substitute ((p.typeParameters k).zip as))).eraseDups := by
  have hacyclic : p.Acyclic (.definition k) := acyclic_of_definition hnames hcyclic rfl
  have hacyclic' : p.Acyclic (.constructed k as) := acyclic_of_definition hnames hcyclic rfl
  obtain ⟨walk, hwalk⟩ := exists_typeWalk hacyclic
  have hbelow : ∀ s, p.Edge (.definition k) s → p.IsBelow k s := fun s hs =>
    isBelow_of_edge hp hnames hs (fun l hl => by cases hl; exact .refl) fun e he => by cases he
  have hmirrors := hp.mirrors_constructed k as
  rw [allInterfaces_eq_eraseDups hacyclic hwalk, eraseDups_map_eraseDups]
  exact allInterfaces_eq_eraseDups hacyclic'
    (hwalk.substitute hp hgeneric hnames hbelow hmirrors)

end

end Facade.Program
