import Mathlib.Data.List.Nodup
import Mathlib.Logic.Relation
import Mathlib.Tactic.Common
import Facade.Symbol.Interfaces

/-!
# The closure under interfaces

What the search for all interfaces of a type finds, whatever the declarations are, and that it ends.
Declarations may be cyclic, and the types on a cycle may grow without bound; where no definition is met
again on the way down, nothing is left out.

* `Program.Edge`, `Program.Reaches`, `Program.Acyclic`: the steps along base lists;
* `Program.Search`, `Program.TypeSearch`: the search as a big-step relation, which knows no depth;
* `Program.InterfaceWalk`, `Program.TypeWalk`: all ways down in pre-order, with repetitions;
* `typeSearch_visitType`: the depth that the search is given is enough;
* `Search.settles`, `TypeSearch.follows`: without cycles the search takes the walk, each type once;
* `Layered`, `Edge.exists_base`: what the declarations tell of the steps;
* `allInterfaces_of_acyclic`: where no cycles are, the closure is all that the search has met.
-/

namespace Facade.Program

open Relation

variable (p : Program)

/-! ## Steps along base lists -/

/-- The step from a type to its base class. -/
def BaseEdge (s t : TypeSymbol) : Prop := p.baseType? s = some t

/-- A step from a type to one of its interfaces. -/
def InterfaceEdge (s t : TypeSymbol) : Prop := t ∈ p.interfaces s

/-- A step along the base lists of a type, its type arguments put in. -/
def Edge (s t : TypeSymbol) : Prop := p.BaseEdge s t ∨ p.InterfaceEdge s t

/-- Base classes first, and then one or more interfaces lead from `t` to `s`. -/
def Reaches (t s : TypeSymbol) : Prop :=
  ∃ b, ReflTransGen p.BaseEdge t b ∧ TransGen p.InterfaceEdge b s

/-- No type that base lists lead to from `t`, their type arguments put in, leads on to a type of its own
definition. -/
def Acyclic (t : TypeSymbol) : Prop :=
  ∀ s s', ReflTransGen p.Edge t s → TransGen p.Edge s s' → s.key?.isSome → s'.key? ≠ s.key?

variable {p}

theorem interfaces_eq_nil {t : TypeSymbol} (h : t.key? = none) : p.interfaces t = [] := by
  simp [interfaces, definitionOf?, h]

theorem interfaces_eq_nil_of_undefined {t : TypeSymbol} {k : DefinitionKey}
    (h : t.key? = some k) (hk : p.definition? k = none) : p.interfaces t = [] := by
  simp [interfaces, definitionOf?, h, hk]

theorem baseType?_eq_none {t : TypeSymbol} (h : t.key? = none) : p.baseType? t = none := by
  simp [baseType?, definitionOf?, h]

theorem baseType?_eq_none_of_undefined {t : TypeSymbol} {k : DefinitionKey}
    (h : t.key? = some k) (hk : p.definition? k = none) : p.baseType? t = none := by
  simp [baseType?, definitionOf?, h, hk]

theorem Reaches.transGen {t s : TypeSymbol} (h : p.Reaches t s) : TransGen p.Edge t s := by
  obtain ⟨b, hb, hs⟩ := h
  have hdown : ReflTransGen p.Edge t b := ReflTransGen.mono (fun _ _ h => Or.inl h) _ _ hb
  have hacross : TransGen p.Edge b s := TransGen.mono (fun _ _ h => Or.inr h) _ _ hs
  exact TransGen.trans_right hdown hacross

theorem Reaches.of_base {t b s : TypeSymbol} (hb : p.baseType? t = some b) (h : p.Reaches b s) :
    p.Reaches t s := by
  obtain ⟨c, hc, hs⟩ := h
  exact ⟨c, ReflTransGen.head hb hc, hs⟩

theorem Reaches.cases {t s : TypeSymbol} (h : p.Reaches t s) :
    TransGen p.InterfaceEdge t s ∨ ∃ b, p.baseType? t = some b ∧ p.Reaches b s := by
  obtain ⟨c, hc, hs⟩ := h
  rcases ReflTransGen.cases_head hc with rfl | ⟨b, hb, hc⟩
  · exact Or.inl hs
  · exact Or.inr ⟨b, hb, c, hc, hs⟩

/-! ## The search without a depth -/

variable (p) in
/-- The search through some interfaces, one after the other: `Search active found ts out` says that,
with the definitions `active` being expanded and `found` met so far, the search through `ts` ends and
has then met `out`. -/
inductive Search :
    List DefinitionKey → List TypeSymbol → List TypeSymbol → List TypeSymbol → Prop
  | done {active found} : Search active found [] found
  | met {active found t ts out} : t ∈ found → Search active found ts out →
      Search active found (t :: ts) out
  | leaf {active found t ts out} : t ∉ found → (∀ k, t.key? = some k → k ∈ active) →
      Search active (found ++ [t]) ts out → Search active found (t :: ts) out
  | enter {active found t ts k inner out} : t ∉ found → t.key? = some k → k ∉ active →
      Search (k :: active) (found ++ [t]) (p.interfaces t) inner → Search active inner ts out →
      Search active found (t :: ts) out

variable (p) in
/-- The search from a type: through its interfaces, and then from its base class. -/
inductive TypeSearch :
    List DefinitionKey → List TypeSymbol → TypeSymbol → List TypeSymbol → Prop
  | stop {active found t} : (∀ k, t.key? = some k → k ∈ active) → TypeSearch active found t found
  | last {active found t k out} : t.key? = some k → k ∉ active →
      Search p (k :: active) found (p.interfaces t) out → p.baseType? t = none →
      TypeSearch active found t out
  | base {active found t k b inner out} : t.key? = some k → k ∉ active →
      Search p (k :: active) found (p.interfaces t) inner → p.baseType? t = some b →
      TypeSearch (k :: active) inner b out → TypeSearch active found t out

/-! ## The depth is enough -/

variable (p) in
/-- The number of definitions that are not being expanded. -/
def idle (active : List DefinitionKey) : Nat :=
  (p.definitions.filter fun d => decide (d.key ∉ active)).length

theorem idle_cons_le (active : List DefinitionKey) (k : DefinitionKey) :
    p.idle (k :: active) ≤ p.idle active := by
  refine (List.monotone_filter_right _ fun d hd => ?_).length_le
  simp only [List.mem_cons, not_or, decide_eq_true_eq] at hd ⊢
  exact hd.2

theorem idle_cons_lt {active : List DefinitionKey} {k : DefinitionKey} {d : Definition}
    (hd : p.definition? k = some d) (hk : k ∉ active) : p.idle (k :: active) < p.idle active := by
  have hkey : d.key = k := by simpa using List.find?_some hd
  have hmem : d ∈ p.definitions := List.mem_of_find?_eq_some hd
  have hfilter : (p.definitions.filter fun e => decide (e.key ∉ k :: active)) =
      (p.definitions.filter fun e => decide (e.key ∉ active)).filter
        fun e => decide (e.key ≠ k) := by
    rw [List.filter_filter]
    refine List.filter_congr fun e _ => ?_
    simp [not_or]
  unfold idle
  rw [hfilter]
  refine List.length_filter_lt_length_iff_exists.mpr ⟨d, ?_, by simp [hkey]⟩
  exact List.mem_filter.mpr ⟨hmem, by simpa [hkey] using hk⟩

/-- Given more depth than there are definitions to enter, the search ends before its depth does. -/
theorem search_visitInterface (depth : Nat) (active : List DefinitionKey)
    (h : p.idle active < depth) (ts found : List TypeSymbol) :
    p.Search active found ts (ts.foldl (p.visitInterface depth active) found) := by
  induction depth generalizing active ts found with
  | zero => exact absurd h (Nat.not_lt_zero _)
  | succ depth ih =>
    induction ts generalizing found with
    | nil => exact .done
    | cons t ts ihts =>
      rw [List.foldl_cons]
      by_cases hmet : t ∈ found
      · have hvisit : p.visitInterface (depth + 1) active found t = found := by
          simp [visitInterface, hmet]
        rw [hvisit]
        exact .met hmet (ihts found)
      cases hkey : t.key? with
      | none =>
        have hvisit : p.visitInterface (depth + 1) active found t = found ++ [t] := by
          simp [visitInterface, hmet, hkey]
        rw [hvisit]
        exact .leaf hmet (fun k hk => by simp [hkey] at hk) (ihts _)
      | some k =>
        by_cases hactive : k ∈ active
        · have hvisit : p.visitInterface (depth + 1) active found t = found ++ [t] := by
            simp [visitInterface, hmet, hkey, hactive]
          rw [hvisit]
          refine .leaf hmet (fun k' hk' => ?_) (ihts _)
          rw [hkey, Option.some.injEq] at hk'
          exact hk' ▸ hactive
        · have hvisit : p.visitInterface (depth + 1) active found t =
              (p.interfaces t).foldl (p.visitInterface depth (k :: active)) (found ++ [t]) := by
            simp [visitInterface, hmet, hkey, hactive]
          rw [hvisit]
          refine .enter hmet hkey hactive ?_ (ihts _)
          cases hd : p.definition? k with
          | none =>
            rw [interfaces_eq_nil_of_undefined hkey hd]
            exact .done
          | some d =>
            have hlt := idle_cons_lt hd hactive
            exact ih (k :: active) (by omega) _ _

/-- **The search from a type ends**, with what the given depth computes. -/
theorem typeSearch_visitType (depth : Nat) (active : List DefinitionKey)
    (h : p.idle active < depth) (found : List TypeSymbol) (t : TypeSymbol) :
    p.TypeSearch active found t (p.visitType depth active found t) := by
  induction depth generalizing active found t with
  | zero => exact absurd h (Nat.not_lt_zero _)
  | succ depth ih =>
    cases hkey : t.key? with
    | none =>
      rw [visitType, hkey]
      exact .stop fun k hk => by simp [hkey] at hk
    | some k =>
      by_cases hactive : k ∈ active
      · simp only [visitType, hkey, hactive, if_true]
        refine .stop fun k' hk' => ?_
        rw [hkey, Option.some.injEq] at hk'
        exact hk' ▸ hactive
      · simp only [visitType, hkey, hactive, if_false]
        have hinner := search_visitInterface (depth + 1) (k :: active)
          (Nat.lt_of_le_of_lt (idle_cons_le active k) h) (p.interfaces t) found
        cases hbase : p.baseType? t with
        | none => exact .last hkey hactive hinner hbase
        | some b =>
          refine .base hkey hactive hinner hbase (ih (k :: active) ?_ _ b)
          cases hd : p.definition? k with
          | none => rw [baseType?_eq_none_of_undefined hkey hd] at hbase; cases hbase
          | some d => have hlt := idle_cons_lt hd hactive; omega

variable (p) in
theorem typeSearch_searchDepth (t : TypeSymbol) :
    p.TypeSearch [] [] t (p.visitType p.searchDepth [] [] t) := by
  refine typeSearch_visitType _ _ ?_ _ _
  have hle : p.idle [] ≤ p.definitions.length := List.length_filter_le _ _
  simp only [searchDepth]
  omega

/-! ## What any search keeps -/

theorem Search.subset {active : List DefinitionKey} {found ts out : List TypeSymbol}
    (h : p.Search active found ts out) : found ⊆ out := by
  induction h with
  | done => exact List.Subset.refl _
  | met _ _ ih => exact ih
  | leaf _ _ _ ih => exact fun s hs => ih (List.mem_append_left _ hs)
  | enter _ _ _ _ _ ih ih' => exact fun s hs => ih' (ih (List.mem_append_left _ hs))

theorem nodup_append_singleton {found : List TypeSymbol} {t : TypeSymbol} (h : found.Nodup)
    (ht : t ∉ found) : (found ++ [t]).Nodup := by
  refine List.nodup_append.mpr ⟨h, List.nodup_singleton t, fun a ha b hb hab => ?_⟩
  rw [List.mem_singleton.mp hb] at hab
  exact ht (hab ▸ ha)

theorem Search.nodup {active : List DefinitionKey} {found ts out : List TypeSymbol}
    (h : p.Search active found ts out) (hfound : found.Nodup) : out.Nodup := by
  induction h with
  | done => exact hfound
  | met _ _ ih => exact ih hfound
  | leaf ht _ _ ih => exact ih (nodup_append_singleton hfound ht)
  | enter ht _ _ _ _ ih ih' => exact ih' (ih (nodup_append_singleton hfound ht))

theorem TypeSearch.nodup {active : List DefinitionKey} {found out : List TypeSymbol}
    {t : TypeSymbol} (h : p.TypeSearch active found t out) (hfound : found.Nodup) : out.Nodup := by
  induction h with
  | stop _ => exact hfound
  | last _ _ hs _ => exact hs.nodup hfound
  | base _ _ hs _ _ ih => exact ih (hs.nodup hfound)

theorem Search.reaches {active : List DefinitionKey} {found ts out : List TypeSymbol}
    (h : p.Search active found ts out) {s : TypeSymbol} (hs : s ∈ out) :
    s ∈ found ∨ ∃ t ∈ ts, ReflTransGen p.InterfaceEdge t s := by
  induction h with
  | done => exact Or.inl hs
  | met _ _ ih =>
    rcases ih hs with h | ⟨t, ht, h⟩
    · exact Or.inl h
    · exact Or.inr ⟨t, List.mem_cons_of_mem _ ht, h⟩
  | @leaf _ found t ts _ _ _ _ ih =>
    rcases ih hs with h | ⟨t', ht, h⟩
    · rcases List.mem_append.mp h with h | h
      · exact Or.inl h
      · exact Or.inr ⟨t, List.mem_cons_self, List.mem_singleton.mp h ▸ .refl⟩
    · exact Or.inr ⟨t', List.mem_cons_of_mem _ ht, h⟩
  | @enter _ found t ts _ _ _ _ _ _ _ _ ih ih' =>
    rcases ih' hs with h | ⟨t', ht, h⟩
    · rcases ih h with h | ⟨i, hi, h⟩
      · rcases List.mem_append.mp h with h | h
        · exact Or.inl h
        · exact Or.inr ⟨t, List.mem_cons_self, List.mem_singleton.mp h ▸ .refl⟩
      · exact Or.inr ⟨t, List.mem_cons_self, .head hi h⟩
    · exact Or.inr ⟨t', List.mem_cons_of_mem _ ht, h⟩

theorem Search.reaches_interface {active : List DefinitionKey} {found out : List TypeSymbol}
    {t s : TypeSymbol} (h : p.Search active found (p.interfaces t) out) (hs : s ∈ out) :
    s ∈ found ∨ p.Reaches t s := by
  rcases h.reaches hs with h | ⟨i, hi, h⟩
  · exact Or.inl h
  · exact Or.inr ⟨t, .refl, .head' hi h⟩

theorem TypeSearch.reaches {active : List DefinitionKey} {found out : List TypeSymbol}
    {t : TypeSymbol} (h : p.TypeSearch active found t out) {s : TypeSymbol} (hs : s ∈ out) :
    s ∈ found ∨ p.Reaches t s := by
  induction h with
  | stop _ => exact Or.inl hs
  | last _ _ h _ => exact h.reaches_interface hs
  | base _ _ h hb _ ih =>
    rcases ih hs with hs | hs
    · exact h.reaches_interface hs
    · exact Or.inr (hs.of_base hb)

/-! ## All ways down -/

variable (p) in
/-- Some types in order, each directly followed by all that its own interfaces lead to. -/
inductive InterfaceWalk : List TypeSymbol → List TypeSymbol → Prop
  | nil : InterfaceWalk [] []
  | cons {t ts inner rest} : InterfaceWalk (p.interfaces t) inner → InterfaceWalk ts rest →
      InterfaceWalk (t :: ts) (t :: (inner ++ rest))

variable (p) in
/-- The interfaces of a type in order, each directly followed by all that it leads to, and then what
the base class contributes. -/
inductive TypeWalk : TypeSymbol → List TypeSymbol → Prop
  | last {t own} : p.InterfaceWalk (p.interfaces t) own → p.baseType? t = none → TypeWalk t own
  | base {t b own inherited} : p.InterfaceWalk (p.interfaces t) own → p.baseType? t = some b →
      TypeWalk b inherited → TypeWalk t (own ++ inherited)

theorem InterfaceWalk.mem_of_mem {ts walk : List TypeSymbol} (h : p.InterfaceWalk ts walk)
    {t : TypeSymbol} (ht : t ∈ ts) : t ∈ walk := by
  induction h with
  | nil => exact ht
  | cons _ _ _ ih =>
    rcases List.mem_cons.mp ht with rfl | ht
    · exact List.mem_cons_self
    · exact List.mem_cons_of_mem _ (List.mem_append_right _ (ih ht))

theorem InterfaceWalk.inner_of_mem {ts walk : List TypeSymbol} (h : p.InterfaceWalk ts walk)
    {t : TypeSymbol} (ht : t ∈ ts) :
    ∃ inner, p.InterfaceWalk (p.interfaces t) inner ∧ inner ⊆ walk := by
  induction h with
  | nil => exact absurd ht List.not_mem_nil
  | @cons t' ts inner rest hinner _ _ ih =>
    rcases List.mem_cons.mp ht with rfl | ht
    · exact ⟨inner, hinner, fun s hs => List.mem_cons_of_mem _ (List.mem_append_left _ hs)⟩
    · obtain ⟨inner', hinner', hsub⟩ := ih ht
      exact ⟨inner', hinner', fun s hs =>
        List.mem_cons_of_mem _ (List.mem_append_right _ (hsub hs))⟩

theorem InterfaceWalk.mem_of_transGen {t s : TypeSymbol} (hs : TransGen p.InterfaceEdge t s)
    {walk : List TypeSymbol} (h : p.InterfaceWalk (p.interfaces t) walk) : s ∈ walk := by
  induction hs using TransGen.head_induction_on generalizing walk with
  | single hi => exact h.mem_of_mem hi
  | head hi _ ih =>
    obtain ⟨inner, hinner, hsub⟩ := h.inner_of_mem hi
    exact hsub (ih hinner)

theorem TypeWalk.mem_of_reaches {t s : TypeSymbol} {walk : List TypeSymbol}
    (h : p.TypeWalk t walk) (hs : p.Reaches t s) : s ∈ walk := by
  induction h with
  | last hown hbase =>
    rcases hs.cases with hs | ⟨b, hb, _⟩
    · exact hown.mem_of_transGen hs
    · rw [hbase] at hb; cases hb
  | base hown hbase _ ih =>
    rcases hs.cases with hs | ⟨b, hb, hs⟩
    · exact List.mem_append_left _ (hown.mem_of_transGen hs)
    · rw [hbase, Option.some.injEq] at hb
      exact List.mem_append_right _ (ih (hb ▸ hs))

/-! ## First visits -/

/-- One more visit: a type that has been met is not listed again. -/
def addNew (found : List TypeSymbol) (t : TypeSymbol) : List TypeSymbol :=
  if t ∈ found then found else found ++ [t]

theorem foldl_addNew_of_subset {found walk : List TypeSymbol} (h : walk ⊆ found) :
    walk.foldl addNew found = found := by
  induction walk with
  | nil => rfl
  | cons t rest ih =>
    rw [List.foldl_cons, addNew, if_pos (h List.mem_cons_self)]
    exact ih fun s hs => h (List.mem_cons_of_mem _ hs)

theorem foldl_addNew (found walk : List TypeSymbol) :
    walk.foldl addNew found =
      found ++ (walk.filter fun t => decide (t ∉ found)).eraseDups := by
  induction walk generalizing found with
  | nil => simp
  | cons t rest ih =>
    rw [List.foldl_cons, ih]
    by_cases ht : t ∈ found
    · simp [addNew, ht]
    · have hfilter : (rest.filter fun s => decide (s ∉ found ++ [t])) =
          (rest.filter fun s => decide (s ∉ found)).filter fun s => !(s == t) := by
        rw [List.filter_filter]
        refine List.filter_congr fun s _ => ?_
        by_cases hs : s = t <;> simp [hs, ht]
      rw [addNew, if_neg ht, hfilter, List.filter_cons_of_pos (by simpa using ht),
        List.eraseDups_cons, List.append_assoc]
      rfl

theorem mem_foldl_addNew {found walk : List TypeSymbol} {t : TypeSymbol} :
    t ∈ walk.foldl addNew found ↔ t ∈ found ∨ t ∈ walk := by
  induction walk generalizing found with
  | nil => simp
  | cons s rest ih =>
    rw [List.foldl_cons, ih]
    by_cases hs : s ∈ found
    · rw [addNew, if_pos hs]
      by_cases hts : t = s <;> simp [hts, hs]
    · rw [addNew, if_neg hs, List.mem_append, List.mem_singleton, List.mem_cons, or_assoc]

/-! ## The search without cycles -/

variable (p) in
/-- All that the interfaces of a type lead to has been met. -/
def Settled (found : List TypeSymbol) (t : TypeSymbol) : Prop :=
  ∃ walk, p.InterfaceWalk (p.interfaces t) walk ∧ walk ⊆ found

theorem Settled.mono {found found' : List TypeSymbol} {t : TypeSymbol} (h : p.Settled found t)
    (hsub : found ⊆ found') : p.Settled found' t := by
  obtain ⟨walk, hwalk, hin⟩ := h
  exact ⟨walk, hwalk, fun s hs => hsub (hin hs)⟩

theorem settled_of_no_key {found : List TypeSymbol} {t : TypeSymbol} (h : t.key? = none) :
    p.Settled found t :=
  ⟨[], by rw [interfaces_eq_nil h]; exact .nil, List.nil_subset _⟩

variable (p) in
/-- Where a search from `root` stands: base lists lead to the types `ts` that are due, and to them from
a type of every definition that is being expanded. -/
structure Stands (root : TypeSymbol) (active : List DefinitionKey) (ts : List TypeSymbol) :
    Prop where
  below : ∀ t ∈ ts, ReflTransGen p.Edge root t
  active : ∀ k ∈ active, ∃ s, ReflTransGen p.Edge root s ∧ s.key? = some k ∧
    ∀ t ∈ ts, TransGen p.Edge s t

theorem Stands.tail {root t : TypeSymbol} {active : List DefinitionKey} {ts : List TypeSymbol}
    (h : p.Stands root active (t :: ts)) : p.Stands root active ts where
  below s hs := h.below s (List.mem_cons_of_mem _ hs)
  active k hk := by
    obtain ⟨s, hroot, hkey, hdown⟩ := h.active k hk
    exact ⟨s, hroot, hkey, fun t ht => hdown t (List.mem_cons_of_mem _ ht)⟩

/-- Entering a type: its own definition is being expanded, and types one step down are due. -/
theorem Stands.enter {root t : TypeSymbol} {k : DefinitionKey} {active : List DefinitionKey}
    {ts down : List TypeSymbol} (h : p.Stands root active ts) (ht : t ∈ ts)
    (hkey : t.key? = some k) (hdown : ∀ s ∈ down, p.Edge t s) :
    p.Stands root (k :: active) down where
  below s hs := (h.below t ht).tail (hdown s hs)
  active k' hk' := by
    rcases List.mem_cons.mp hk' with rfl | hk'
    · exact ⟨t, h.below t ht, hkey, fun s hs => .single (hdown s hs)⟩
    · obtain ⟨a, hroot, hakey, hat⟩ := h.active k' hk'
      exact ⟨a, hroot, hakey, fun s hs => (hat t ht).tail (hdown s hs)⟩

theorem Stands.not_active {root t : TypeSymbol} {active : List DefinitionKey}
    {ts : List TypeSymbol} (h : p.Stands root active ts) (hroot : p.Acyclic root) (ht : t ∈ ts)
    {k : DefinitionKey} (hkey : t.key? = some k) : k ∉ active := fun hk => by
  obtain ⟨s, hs, hskey, hst⟩ := h.active k hk
  exact hroot s t hs (hst t ht) (by simp [hskey]) (hkey.trans hskey.symm)


variable (p) in
/-- What is met has settled, or its definition is being expanded. -/
def Pending (active : List DefinitionKey) (found : List TypeSymbol) : Prop :=
  ∀ s ∈ found, p.Settled found s ∨ ∃ k ∈ active, s.key? = some k

theorem Pending.enter {active : List DefinitionKey} {found : List TypeSymbol} {t : TypeSymbol}
    {k : DefinitionKey} (h : p.Pending active found) (hkey : t.key? = some k) :
    p.Pending (k :: active) (found ++ [t]) := fun s hs => by
  rcases List.mem_append.mp hs with hs | hs
  · rcases h s hs with hs | ⟨k', hk', hs⟩
    · exact Or.inl (hs.mono (List.subset_append_left _ _))
    · exact Or.inr ⟨k', List.mem_cons_of_mem _ hk', hs⟩
  · exact Or.inr ⟨k, List.mem_cons_self, List.mem_singleton.mp hs ▸ hkey⟩

/-- **Without cycles a search takes the walk**: it passes every way down, listing each type at its
first visit, and what it has met anew has settled. -/
theorem Search.settles {root : TypeSymbol} (hroot : p.Acyclic root)
    {active : List DefinitionKey} {found ts out : List TypeSymbol}
    (h : p.Search active found ts out) (hstands : p.Stands root active ts)
    (hpending : p.Pending active found) :
    ∃ walk, p.InterfaceWalk ts walk ∧ out = walk.foldl addNew found ∧
      ∀ s ∈ out, s ∈ found ∨ p.Settled out s := by
  induction h with
  | done => exact ⟨[], .nil, rfl, fun s hs => Or.inl hs⟩
  | @met active found t ts out ht hrest ih =>
    -- the definition of `t` is not being expanded, so `t` was left with all below it met
    obtain ⟨inner, hinner, hin⟩ : p.Settled found t := by
      rcases hpending t ht with hs | ⟨k, hk, hkey⟩
      · exact hs
      · exact absurd hk (hstands.not_active hroot List.mem_cons_self hkey)
    obtain ⟨rest, hwalk, hout, hsettled⟩ := ih hstands.tail hpending
    refine ⟨t :: (inner ++ rest), .cons hinner hwalk, ?_, hsettled⟩
    rw [List.foldl_cons, addNew, if_pos ht, List.foldl_append, foldl_addNew_of_subset hin]
    exact hout
  | @leaf active found t ts out ht hleaf hrest ih =>
    have hkey : t.key? = none := by
      cases hkey : t.key? with
      | none => rfl
      | some k => exact absurd (hleaf k hkey) (hstands.not_active hroot List.mem_cons_self hkey)
    have hpending' : p.Pending active (found ++ [t]) := fun s hs => by
      rcases List.mem_append.mp hs with hs | hs
      · exact (hpending s hs).imp_left fun h => h.mono (List.subset_append_left _ _)
      · exact Or.inl (settled_of_no_key (List.mem_singleton.mp hs ▸ hkey))
    obtain ⟨rest, hwalk, hout, hsettled⟩ := ih hstands.tail hpending'
    have hinner : p.InterfaceWalk (p.interfaces t) [] := by
      rw [interfaces_eq_nil hkey]
      exact .nil
    refine ⟨t :: ([] ++ rest), .cons hinner hwalk, ?_, fun s hs => ?_⟩
    · rw [List.foldl_cons, addNew, if_neg ht]
      exact hout
    · rcases hsettled s hs with hs | hs
      · rcases List.mem_append.mp hs with hs | hs
        · exact Or.inl hs
        · exact Or.inr (settled_of_no_key (List.mem_singleton.mp hs ▸ hkey))
      · exact Or.inr hs
  | @enter active found t ts k inner out ht hkey hk hsearch hrest ih ih' =>
    have hstands' : p.Stands root (k :: active) (p.interfaces t) :=
      hstands.enter List.mem_cons_self hkey fun s hs => Or.inr hs
    obtain ⟨own, hown, hinner, hsettled⟩ := ih hstands' (hpending.enter hkey)
    have ht' : p.Settled inner t := by
      refine ⟨own, hown, fun s hs => ?_⟩
      rw [hinner]
      exact mem_foldl_addNew.mpr (Or.inr hs)
    have hnew : ∀ s ∈ inner, s ∈ found ∨ p.Settled inner s := fun s hs => by
      rcases hsettled s hs with hs | hs
      · rcases List.mem_append.mp hs with hs | hs
        · exact Or.inl hs
        · exact Or.inr (List.mem_singleton.mp hs ▸ ht')
      · exact Or.inr hs
    have hpending' : p.Pending active inner := fun s hs => by
      rcases hnew s hs with hs | hs
      · exact (hpending s hs).imp_left fun h =>
          h.mono (List.Subset.trans (List.subset_append_left _ _) hsearch.subset)
      · exact Or.inl hs
    obtain ⟨rest, hwalk, hout, hsettled'⟩ := ih' hstands.tail hpending'
    refine ⟨t :: (own ++ rest), .cons hown hwalk, ?_, fun s hs => ?_⟩
    · rw [List.foldl_cons, addNew, if_neg ht, List.foldl_append, ← hinner]
      exact hout
    · rcases hsettled' s hs with hs | hs
      · exact (hnew s hs).imp_right fun h => h.mono hrest.subset
      · exact Or.inr hs

/-- The search through base classes follows the walk, too: nothing is pending when one is entered. -/
theorem TypeSearch.follows {root : TypeSymbol} (hroot : p.Acyclic root)
    {active : List DefinitionKey} {found out : List TypeSymbol} {t : TypeSymbol}
    (h : p.TypeSearch active found t out) (hstands : p.Stands root active [t])
    (hfound : ∀ s ∈ found, p.Settled found s) :
    ∃ walk, p.TypeWalk t walk ∧ out = walk.foldl addNew found := by
  induction h with
  | @stop active found t hstop =>
    have hkey : t.key? = none := by
      cases hkey : t.key? with
      | none => rfl
      | some k => exact absurd (hstop k hkey) (hstands.not_active hroot List.mem_cons_self hkey)
    refine ⟨[], .last ?_ (baseType?_eq_none hkey), rfl⟩
    rw [interfaces_eq_nil hkey]
    exact .nil
  | @last active found t k out hkey hk hsearch hbase =>
    obtain ⟨own, hown, hout, -⟩ := hsearch.settles hroot
      (hstands.enter List.mem_cons_self hkey fun s hs => Or.inr hs)
      (fun s hs => Or.inl (hfound s hs))
    exact ⟨own, .last hown hbase, hout⟩
  | @base active found t k b inner out hkey hk hsearch hbase _ ih =>
    obtain ⟨own, hown, hinner, hsettled⟩ := hsearch.settles hroot
      (hstands.enter List.mem_cons_self hkey fun s hs => Or.inr hs)
      (fun s hs => Or.inl (hfound s hs))
    have hstands' : p.Stands root (k :: active) [b] :=
      hstands.enter List.mem_cons_self hkey fun s hs =>
        Or.inl (List.mem_singleton.mp hs ▸ hbase)
    obtain ⟨inherited, hinherited, hout⟩ := ih hstands' fun s hs => by
      rcases hsettled s hs with hs | hs
      · exact (hfound s hs).mono hsearch.subset
      · exact hs
    refine ⟨own ++ inherited, .base hown hbase hinherited, ?_⟩
    rw [List.foldl_append, ← hinner]
    exact hout

/-! ## Definitions in layers -/

variable (p) in
/-- Each definition ranks above those that its base list names, and no base list names a type
parameter. -/
def Layered (rank : DefinitionKey → Nat) : Prop :=
  ∀ d ∈ p.definitions, ∀ b ∈ d.interfaces ++ d.baseType.toList,
    (∀ q, b ≠ .parameter q) ∧ ∀ k ∈ b.key?, rank k < rank d.key

instance (t : TypeSymbol) : Decidable (∀ q, t ≠ .parameter q) :=
  match t with
  | .parameter q => isFalse fun h => h q rfl
  | .special _ | .unresolved .. | .array .. | .nullable _ | .pointer _ | .tuple _ | .definition _
  | .constructed .. => isTrue fun _ h => by cases h

instance (rank : DefinitionKey → Nat) : Decidable (p.Layered rank) :=
  inferInstanceAs (Decidable (∀ d ∈ p.definitions, ∀ b ∈ d.interfaces ++ d.baseType.toList,
    (∀ q, b ≠ .parameter q) ∧ ∀ k ∈ b.key?, rank k < rank d.key))

theorem key?_substitute {t : TypeSymbol} (h : ∀ q, t ≠ .parameter q) (m : Substitution) :
    (t.substitute m).key? = t.key? := by
  cases t with
  | parameter q => exact absurd rfl (h q)
  | _ => simp [TypeSymbol.substitute, TypeSymbol.key?]

/-- A step leads from a declared type to an entry of its base list, the type arguments put in. -/
theorem Edge.exists_base {s s' : TypeSymbol} (hedge : p.Edge s s') :
    ∃ k d, s.key? = some k ∧ p.definition? k = some d ∧
      ∃ b ∈ d.interfaces ++ d.baseType.toList, s' = b.substitute (p.arguments s) := by
  cases hkey : s.key? with
  | none =>
    rcases hedge with hedge | hedge
    · rw [BaseEdge, baseType?_eq_none hkey] at hedge; cases hedge
    · rw [InterfaceEdge, interfaces_eq_nil hkey] at hedge; cases hedge
  | some k =>
    cases hd : p.definition? k with
    | none =>
      rcases hedge with hedge | hedge
      · rw [BaseEdge, baseType?_eq_none_of_undefined hkey hd] at hedge; cases hedge
      · rw [InterfaceEdge, interfaces_eq_nil_of_undefined hkey hd] at hedge; cases hedge
    | some d =>
      refine ⟨k, d, rfl, hd, ?_⟩
      rcases hedge with hedge | hedge
      · obtain ⟨b, hb, rfl⟩ : ∃ b, d.baseType = some b ∧ b.substitute (p.arguments s) = s' := by
          simpa [BaseEdge, baseType?, definitionOf?, hkey, hd, Option.bind_eq_some_iff] using hedge
        exact ⟨b, List.mem_append_right _ (by simp [hb]), rfl⟩
      · obtain ⟨b, hb, rfl⟩ : ∃ b ∈ d.interfaces, b.substitute (p.arguments s) = s' := by
          simpa [InterfaceEdge, interfaces, definitionOf?, hkey, hd] using hedge
        exact ⟨b, List.mem_append_left _ hb, rfl⟩

/-! ## The closure -/

theorem key?_of_unconstructed_eq {s t : TypeSymbol} (h : unconstructed s = unconstructed t)
    (ht : t.key?.isSome) : s.key? = t.key? := by
  cases s <;> cases t <;> simp_all [unconstructed, TypeSymbol.key?]

theorem ne_key?_of_reaches {t s : TypeSymbol} (h : p.Acyclic t) (hs : p.Reaches t s)
    (ht : t.key?.isSome) : s.key? ≠ t.key? :=
  h t s .refl hs.transGen ht

theorem visitType_of_no_key {t : TypeSymbol} (h : t.key? = none) (depth : Nat)
    (active : List DefinitionKey) (found : List TypeSymbol) :
    p.visitType depth active found t = found := by
  cases depth with
  | zero => rfl
  | succ depth => rw [visitType, h]

variable (p) in
/-- The filter of the closure drops nothing where no type leads on to one of its own definition. -/
theorem allInterfaces_of_acyclic {t : TypeSymbol} (h : p.Acyclic t) :
    p.allInterfaces t = p.visitType p.searchDepth [] [] t := by
  cases hkey : t.key? with
  | none => rw [allInterfaces, visitType_of_no_key hkey, List.filter_nil]
  | some k =>
    refine List.filter_eq_self.mpr fun s hs => ?_
    obtain hs | hs := (p.typeSearch_searchDepth t).reaches hs
    · exact absurd hs List.not_mem_nil
    · exact bne_iff_ne.mpr (ne_key?_of_reaches h hs (by simp [hkey]))

end Facade.Program
