import Facade.Proofs.Syntax.Written
import Facade.Syntax.Site

/-!
# What holds of all declarations of a source

Something is required of the methods, the types, the namespaces and the directives of a source. If what
is known of the trees gives it of each phrase, then all declarations of a source meet it, where they
stand.

* `Requirement`, `Member.Meets`, `CompilationUnit.Meets`: declarations that meet a requirement;
* `Requirement.IsKnown`: what is known of the trees gives the requirement;
* `Member.meets_of_tree`, `CompilationUnit.meets_of_tree`: by induction on trees;
* **`CompilationUnit.Meets.typeSites`**: the type declarations of a source, with what surrounds them.
-/

namespace Facade

/-- What is required of the declarations of a source. -/
structure Requirement where
  directive : UsingDirective → Prop
  space : NamespaceHead → Prop
  type : TypeHead → List Member → Prop
  method : MethodDeclaration → Prop

section

variable (q : Requirement)

/-- The member meets the requirement, and so do those in it. -/
inductive Member.Meets : Member → Prop
  | type {head members} : q.type head members → (∀ m ∈ members, Meets m) →
      Meets (.type head members)
  | method {d} : q.method d → Meets (.method d)
  | other {o} : Meets (.other o)

/-- The member of a namespace meets the requirement, and so do those in it. -/
inductive NamespaceMember.Meets : NamespaceMember → Prop
  | space {head members} : q.space head → (∀ m ∈ members, Meets m) → Meets (.space head members)
  | type {d} : Member.Meets q (.type d.head d.members) → Meets (.type d)

/-- The declarations of a source meet the requirement. -/
structure CompilationUnit.Meets (u : CompilationUnit) : Prop where
  usings : ∀ d ∈ u.usings, q.directive d
  members : ∀ m ∈ u.members, m.Meets q

/-- What surrounds a node meets the requirement; the types around it have members. -/
structure Site.Meets (s : Site) : Prop where
  usings : ∀ d ∈ s.unit.usings, q.directive d
  namespaces : ∀ h ∈ s.namespaces, q.space h
  types : ∀ h ∈ s.types, ∃ members ≠ [], q.type h members

/-- A type declaration meets the requirement, with what surrounds it. -/
structure TypeSite.Meets (t : TypeSite) : Prop where
  site : t.site.Meets q
  type : q.type t.head t.declaration.members
  members : ∀ m ∈ t.declaration.members, m.Meets q

end

/-! ## Trees -/

theorem mem_of_mapM {α β : Type} {f : α → Option β} {xs : List α} {ys : List β}
    (h : xs.mapM f = some ys) {y : β} (hy : y ∈ ys) : ∃ x ∈ xs, f x = some y := by
  induction xs generalizing ys with
  | nil =>
    simp only [List.mapM_nil, Option.pure_def, Option.some.injEq] at h
    simp [← h] at hy
  | cons x xs ih =>
    simp only [List.mapM_cons, Option.pure_def, Option.bind_eq_bind, Option.bind_eq_some_iff,
      Option.some.injEq] at h
    obtain ⟨z, hz, zs, hzs, rfl⟩ := h
    rcases List.mem_cons.mp hy with rfl | hy
    · exact ⟨x, List.mem_cons_self, hz⟩
    · obtain ⟨x', hx', hy⟩ := ih hzs hy
      exact ⟨x', List.mem_cons_of_mem _ hx', hy⟩

/-- What is known of the trees gives the requirement of each phrase. -/
structure Requirement.IsKnown (q : Requirement) (source : List Char) (known : Tree → Prop) : Prop where
  of_mem : ∀ {r parts extent t}, known (.node r parts extent) → t ∈ parts → known t
  directive : ∀ {t u}, known t → UsingDirective.ofTree? t = some u → q.directive u
  space : ∀ {r parts extent isFileScoped head}, known (.node r parts extent) →
    NamespaceHead.ofParts? isFileScoped parts extent = some head → q.space head
  type : ∀ {r parts extent around form head members}, known (.node r parts extent) →
    TypeForm.ofParts? source parts r = some form → TypeHead.ofParts? around form parts = some head →
    Member.ofBody? source parts = some members → q.type head members
  method : ∀ {parts extent around d}, known (.node .methodDeclaration parts extent) →
    MethodDeclaration.ofParts? source around parts = some d → q.method d

section

variable {q : Requirement} {source : List Char} {known : Tree → Prop}

namespace Member

/-- The members whose trees are smaller meet the requirement. -/
def MeetsBelow (q : Requirement) (source : List Char) (known : Tree → Prop) (size : Nat) : Prop :=
  ∀ t : Tree, sizeOf t < size → known t → ∀ m, ofTree? source t = some m → m.Meets q

theorem meets_of_trees {size : Nat} (ih : MeetsBelow q source known size) {ts : List Tree}
    (hsize : sizeOf ts ≤ size) (h : ∀ t ∈ ts, known t) {ms : List Member}
    (hms : ofTrees? source ts = some ms) : ∀ m ∈ ms, m.Meets q := by
  induction ts generalizing ms with
  | nil =>
    simp only [ofTrees?, Option.some.injEq] at hms
    simp [← hms]
  | cons t ts iht =>
    simp only [ofTrees?, Option.pure_def, Option.bind_eq_bind, Option.bind_eq_some_iff,
      Option.some.injEq] at hms
    obtain ⟨m, hm, ms, hms, rfl⟩ := hms
    simp only [List.cons.sizeOf_spec] at hsize
    exact List.forall_mem_cons.mpr ⟨ih t (by omega) (h t List.mem_cons_self) m hm,
      iht (by omega) (fun t ht => h t (List.mem_cons_of_mem _ ht)) hms⟩

theorem meets_of_body (hq : q.IsKnown source known) {size : Nat} (ih : MeetsBelow q source known size)
    {ts : List Tree} (hsize : sizeOf ts ≤ size) (h : ∀ t ∈ ts, known t) {ms : List Member}
    (hms : ofBody? source ts = some ms) : ∀ m ∈ ms, m.Meets q := by
  induction ts generalizing ms with
  | nil =>
    simp only [ofBody?, Option.some.injEq] at hms
    simp [← hms]
  | cons t ts iht =>
    unfold ofBody? at hms
    split at hms
    · next hnil => cases hnil
    · next hcons =>
      cases hcons
      exact meets_of_trees ih (by simp at hsize ⊢; omega)
        (fun t ht => hq.of_mem (h _ List.mem_cons_self) ht) hms
    · next hcons =>
      cases hcons
      exact iht (by simp at hsize ⊢; omega) (fun t ht => h t (List.mem_cons_of_mem _ ht)) hms

theorem meets_of_parts (hq : q.IsKnown source known) {size : Nat} (ih : MeetsBelow q source known size)
    {around : Surroundings} {ts : List Tree} (hsize : sizeOf ts ≤ size) (h : ∀ t ∈ ts, known t)
    {m : Member} (hm : ofParts? source around ts = some m) : m.Meets q := by
  induction ts with
  | nil => simp [ofParts?] at hm
  | cons t ts iht =>
    have hrest : ofParts? source around ts = some m → m.Meets q :=
      iht (by simp only [List.cons.sizeOf_spec] at hsize; omega)
        fun t ht => h t (List.mem_cons_of_mem _ ht)
    have ht := h t List.mem_cons_self
    cases t with
    | leaf => exact hrest hm
    | node r parts extent =>
      simp only [ofParts?] at hm
      split_ifs at hm with _ hr
      · exact hrest hm
      · simp only [Option.pure_def, Option.bind_eq_bind, Option.bind_eq_some_iff,
          Option.some.injEq] at hm
        obtain ⟨d, hd, rfl⟩ := hm
        exact .method (hq.method (hr ▸ ht) hd)
      · split at hm
        · simp only [Option.pure_def, Option.bind_eq_bind, Option.bind_eq_some_iff,
            Option.some.injEq] at hm
          obtain ⟨o, -, rfl⟩ := hm
          exact .other
        · simp only [Option.pure_def, Option.bind_eq_bind, Option.bind_eq_some_iff,
            Option.some.injEq] at hm
          obtain ⟨form, hform, head, hhead, members, hmembers, rfl⟩ := hm
          exact .type (hq.type ht hform hhead hmembers) (meets_of_body hq ih
            (by simp at hsize ⊢; omega) (fun t hmem => hq.of_mem ht hmem) hmembers)

/-- **The member of a tree meets the requirement.** -/
theorem meets_of_tree (hq : q.IsKnown source known) {t : Tree} (h : known t) {m : Member}
    (hm : ofTree? source t = some m) : m.Meets q := by
  have hbelow : ∀ size, MeetsBelow q source known size := by
    intro size
    induction size with
    | zero => exact fun t ht => absurd ht (Nat.not_lt_zero _)
    | succ size ih =>
      intro t ht h m hm
      unfold ofTree? at hm
      split at hm
      · obtain ⟨around, -, hm⟩ := Option.bind_eq_some_iff.mp hm
        exact meets_of_parts hq ih (by simp at ht ⊢; omega) (fun t ht => hq.of_mem h ht) hm
      · obtain ⟨around, -, hm⟩ := Option.bind_eq_some_iff.mp hm
        exact meets_of_parts hq ih (by simp at ht ⊢; omega) (fun t ht => hq.of_mem h ht) hm
      · cases hm
  exact hbelow (sizeOf t + 1) t (Nat.lt_succ_self _) h m hm

end Member

namespace NamespaceMember

/-- The members of namespaces whose trees are smaller meet the requirement. -/
def MeetsBelow (q : Requirement) (source : List Char) (known : Tree → Prop) (size : Nat) : Prop :=
  ∀ t : Tree, sizeOf t < size → known t → ∀ m, ofTree? source t = some m → m.Meets q

theorem meets_of_parts {size : Nat} (ih : MeetsBelow q source known size) {ts : List Tree}
    (hsize : sizeOf ts ≤ size) (h : ∀ t ∈ ts, known t) {ms : List NamespaceMember}
    (hms : ofParts? source ts = some ms) : ∀ m ∈ ms, m.Meets q := by
  induction ts generalizing ms with
  | nil =>
    simp only [ofParts?, Option.some.injEq] at hms
    simp [← hms]
  | cons t ts iht =>
    simp only [List.cons.sizeOf_spec] at hsize
    have hrest : ∀ {ms}, ofParts? source ts = some ms → ∀ m ∈ ms, m.Meets q := fun hms =>
      iht (by omega) (fun t ht => h t (List.mem_cons_of_mem _ ht)) hms
    unfold ofParts? at hms
    split at hms
    · next hnil => cases hnil
    · next hcons => cases hcons; exact hrest hms
    · next hcons => cases hcons; exact hrest hms
    · next hcons => cases hcons; exact hrest hms
    · next hcons =>
      cases hcons
      simp only [Option.pure_def, Option.bind_eq_bind, Option.bind_eq_some_iff,
        Option.some.injEq] at hms
      obtain ⟨m, hm, ms, hms, rfl⟩ := hms
      exact List.forall_mem_cons.mpr ⟨ih t (by omega) (h t List.mem_cons_self) m hm, hrest hms⟩

/-- The member of a namespace of a tree meets the requirement. -/
theorem meets_of_tree (hq : q.IsKnown source known) {t : Tree} (h : known t) {m : NamespaceMember}
    (hm : ofTree? source t = some m) : m.Meets q := by
  have hbelow : ∀ size, MeetsBelow q source known size := by
    intro size
    induction size with
    | zero => exact fun t ht => absurd ht (Nat.not_lt_zero _)
    | succ size ih =>
      intro t ht h m hm
      have hspace : ∀ {r parts extent isFileScoped head ms}, t = .node r parts extent →
          NamespaceHead.ofParts? isFileScoped parts extent = some head →
          ofParts? source parts = some ms → (space head ms).Meets q := by
        rintro r parts extent isFileScoped head ms rfl hhead hms
        exact .space (hq.space h hhead)
          (meets_of_parts ih (by simp at ht ⊢; omega) (fun t ht => hq.of_mem h ht) hms)
      unfold ofTree? at hm
      split at hm
      · simp only [Option.pure_def, Option.bind_eq_bind, Option.bind_eq_some_iff,
          Option.some.injEq] at hm
        obtain ⟨head, hhead, ms, hms, rfl⟩ := hm
        exact hspace rfl hhead hms
      · simp only [Option.pure_def, Option.bind_eq_bind, Option.bind_eq_some_iff,
          Option.some.injEq] at hm
        obtain ⟨head, hhead, ms, hms, rfl⟩ := hm
        exact hspace rfl hhead hms
      · simp only [Option.pure_def, Option.bind_eq_bind, Option.bind_eq_some_iff,
          Option.some.injEq] at hm
        obtain ⟨d, hd, rfl⟩ := hm
        unfold TypeDeclaration.ofTree? at hd
        split at hd
        · next hmember =>
          cases hd
          exact .type (Member.meets_of_tree hq h hmember)
        · cases hd
  exact hbelow (sizeOf t + 1) t (Nat.lt_succ_self _) h m hm

end NamespaceMember

/-- **The declarations of a tree meet the requirement.** -/
theorem CompilationUnit.meets_of_tree (hq : q.IsKnown source known) {t : Tree} (h : known t)
    {path : String} {unit : CompilationUnit} (hunit : ofTree? source path t = some unit) :
    unit.Meets q := by
  unfold ofTree? at hunit
  split at hunit
  · simp only [Option.pure_def, Option.bind_eq_bind, Option.bind_eq_some_iff,
      Option.some.injEq] at hunit
    obtain ⟨us, hus, ms, hms, rfl⟩ := hunit
    refine ⟨fun u hu => ?_, NamespaceMember.meets_of_parts
      (fun t _ ht m hm => NamespaceMember.meets_of_tree hq ht hm) (Nat.le_refl _)
      (fun t ht => hq.of_mem h ht) hms⟩
    obtain ⟨t, ht, hu⟩ := mem_of_mapM hus hu
    exact hq.directive (hq.of_mem h (Tree.mem_phrases ht).1) hu
  · cases hunit

end

/-! ## Declarations where they stand -/

section

variable {q : Requirement} {s : Site}

theorem Site.Meets.inNamespace (h : s.Meets q) (i : Nat) {head : NamespaceHead}
    (hhead : q.space head) : (s.inNamespace i head).Meets q where
  usings := h.usings
  namespaces := List.forall_mem_append.mpr ⟨h.namespaces, by simpa using hhead⟩
  types := h.types

theorem Site.Meets.inType (h : s.Meets q) (i : Nat) {head : TypeHead} {members : List Member}
    (hne : members ≠ []) (hhead : q.type head members) : (s.inType i head).Meets q where
  usings := h.usings
  namespaces := h.namespaces
  types := List.forall_mem_append.mpr ⟨h.types, by simpa using ⟨members, hne, hhead⟩⟩

/-- The type declarations among some nodes meet the requirement. -/
def TypesMeet (q : Requirement) (nodes : List Placed) : Prop :=
  ∀ n ∈ nodes, ∀ t, n.2.type? = some t → t.Meets q

theorem typesMeet_append {xs ys : List Placed} :
    TypesMeet q (xs ++ ys) ↔ TypesMeet q xs ∧ TypesMeet q ys := List.forall_mem_append

theorem typesMeet_of_none {xs : List Placed} (h : ∀ n ∈ xs, n.2.type? = none) : TypesMeet q xs :=
  fun n hn t ht => by rw [h n hn] at ht; cases ht

namespace Member

theorem typesMeet_walkAll {ms : List Member} (h : ∀ m ∈ ms, ∀ i, TypesMeet q (m.walk s i)) (i : Nat) :
    TypesMeet q (walkAll s i ms) := by
  induction ms generalizing i with
  | nil => exact typesMeet_of_none (by simp [walkAll])
  | cons m ms ih =>
    rw [walkAll, typesMeet_append]
    exact ⟨h m List.mem_cons_self i, ih (fun k hk => h k (List.mem_cons_of_mem _ hk)) (i + 1)⟩

theorem typesMeet_walk {m : Member} (h : m.Meets q) :
    ∀ (s : Site) (i : Nat), s.Meets q → TypesMeet q (m.walk s i) := by
  induction h with
  | @type head members hhead hmembers ih =>
    intro s i hs
    rw [walk, List.cons_append]
    refine List.forall_mem_cons.mpr ⟨?_, typesMeet_append.mpr ⟨typesMeet_of_none ?_, ?_⟩⟩
    · rintro t ht
      cases ht
      exact ⟨hs, hhead, hmembers⟩
    · intro n hn
      simp only [TypeHead.walk, List.mem_append, List.mem_map] at hn
      rcases hn with ⟨_, -, rfl⟩ | ⟨_, -, rfl⟩ <;> rfl
    · exact typesMeet_walkAll (fun m hm j => ih m hm _ j
        (hs.inType i (List.ne_nil_of_mem hm) hhead)) 0
  | method =>
    intro s i hs
    refine typesMeet_of_none fun n hn => ?_
    simp only [walk, MethodDeclaration.walk, List.mem_append, List.mem_cons, List.mem_map] at hn
    rcases hn with ((rfl | ⟨_, -, rfl⟩) | ⟨_, -, rfl⟩) | ⟨_, -, rfl⟩ <;> rfl
  | other =>
    intro s i hs
    exact typesMeet_of_none (by simp [walk, Node.type?])

end Member

theorem type?_of_mem_walkAll {us : List UsingDirective} {s : Site} {n : Placed}
    (h : n ∈ UsingDirective.walkAll s us) : n.2.type? = none := by
  obtain ⟨u, -, rfl⟩ := List.mem_map.mp h
  rfl

namespace NamespaceMember

theorem typesMeet_walkAll {ms : List NamespaceMember}
    (h : ∀ m ∈ ms, ∀ i, TypesMeet q (m.walk s i)) (i : Nat) : TypesMeet q (walkAll s i ms) := by
  induction ms generalizing i with
  | nil => exact typesMeet_of_none (by simp [walkAll])
  | cons m ms ih =>
    rw [walkAll, typesMeet_append]
    exact ⟨h m List.mem_cons_self i, ih (fun k hk => h k (List.mem_cons_of_mem _ hk)) (i + 1)⟩

theorem typesMeet_walk {m : NamespaceMember} (h : m.Meets q) :
    ∀ (s : Site) (i : Nat), s.Meets q → TypesMeet q (m.walk s i) := by
  induction h with
  | @space head members hhead _ ih =>
    intro s i hs
    rw [walk, List.cons_append]
    refine List.forall_mem_cons.mpr ⟨fun t ht => (by cases ht), typesMeet_append.mpr
      ⟨typesMeet_of_none fun n hn => type?_of_mem_walkAll hn, ?_⟩⟩
    exact typesMeet_walkAll (fun m hm j => ih m hm _ j (hs.inNamespace i hhead)) 0
  | type hd => exact fun s i hs => Member.typesMeet_walk hd s i hs

end NamespaceMember

theorem CompilationUnit.Meets.ofUnit {unit : CompilationUnit} (h : unit.Meets q) (tree : Nat) :
    (Site.ofUnit tree unit).Meets q :=
  ⟨h.usings, fun _ hn => absurd hn List.not_mem_nil, fun _ hn => absurd hn List.not_mem_nil⟩

/-- **The type declarations of a source meet the requirement where they stand.** -/
theorem CompilationUnit.Meets.typeSites {unit : CompilationUnit} (h : unit.Meets q) (tree : Nat) :
    ∀ t ∈ unit.typeSites tree, t.Meets q := by
  have hwalk : TypesMeet q (unit.walk tree) := by
    rw [walk, List.cons_append]
    exact List.forall_mem_cons.mpr ⟨fun t ht => (by cases ht), typesMeet_append.mpr
      ⟨typesMeet_of_none fun n hn => type?_of_mem_walkAll hn,
        NamespaceMember.typesMeet_walkAll (fun m hm j =>
          NamespaceMember.typesMeet_walk (h.members m hm) _ j (h.ofUnit tree)) 0⟩⟩
  intro t ht
  obtain ⟨n, hn, ht⟩ := List.mem_filterMap.mp ht
  exact hwalk n hn t ht

end

end Facade
