import Mathlib.Data.List.Nodup
import Mathlib.Tactic.Common
import Facade.Binding.Model

/-!
# The identities of declarations

Every declaration of a program has an identity of its own, so the type that it declares can be told
from it.

* `Numbered`: declarations whose ways from a site begin with certain numbers;
* `CompilationUnit.numbered_declare`: those of a source have different ways;
* **`Declarations.keyOf?_of_mem`**: the type that a declaration declares;
* `Declarations.containing_scopeAt`: the types around what a declaration of a type says.
-/

namespace Facade

/-! ## Ways from a site -/

/-- The ways from a site to some declarations begin with numbers among `N`, and no two are the
same. -/
structure Numbered (s : Site) (N : Nat → Prop) (ds : List Declared) : Prop where
  below : ∀ e ∈ ds, ∃ n, N n ∧ ∃ rest, e.site.id = ⟨s.tree, s.path ++ n :: rest⟩
  distinct : (ds.map fun e => e.site.id).Nodup

variable {s : Site} {N N' M : Nat → Prop} {ds es : List Declared}

theorem Numbered.nil : Numbered s N [] := ⟨by simp, List.nodup_nil⟩

theorem Numbered.append (h : Numbered s N ds) (h' : Numbered s N' es)
    (hne : ∀ n, N n → ¬ N' n) (hM : ∀ n, N n ∨ N' n → M n) : Numbered s M (ds ++ es) where
  below e he := by
    rcases List.mem_append.mp he with he | he
    · obtain ⟨n, hn, hid⟩ := h.below e he
      exact ⟨n, hM n (Or.inl hn), hid⟩
    · obtain ⟨n, hn, hid⟩ := h'.below e he
      exact ⟨n, hM n (Or.inr hn), hid⟩
  distinct := by
    rw [List.map_append]
    refine List.nodup_append.mpr ⟨h.distinct, h'.distinct, ?_⟩
    rintro _ ha _ hb rfl
    obtain ⟨e, he, rfl⟩ := List.mem_map.mp ha
    obtain ⟨e', he', heq⟩ := List.mem_map.mp hb
    obtain ⟨n, hn, rest, hid⟩ := h.below e he
    obtain ⟨n', hn', rest', hid'⟩ := h'.below e' he'
    rw [hid, hid', DeclarationId.mk.injEq, List.append_cancel_left_eq, List.cons.injEq] at heq
    exact hne n hn (heq.2.1 ▸ hn')

theorem Numbered.inType {i : Nat} {head : TypeHead} (h : Numbered (s.inType i head) N ds)
    (key : DefinitionKey) (members : List Member) :
    Numbered s (· = i) (⟨key, ⟨s, i, ⟨head, members⟩⟩⟩ :: ds) where
  below e he := by
    rcases List.mem_cons.mp he with rfl | he
    · exact ⟨i, rfl, [], rfl⟩
    · obtain ⟨n, -, rest, hid⟩ := h.below e he
      exact ⟨i, rfl, n :: rest, by rw [hid]; simp [Site.inType]⟩
  distinct := by
    refine List.nodup_cons.mpr ⟨fun hmem => ?_, h.distinct⟩
    obtain ⟨e, he, heq⟩ := List.mem_map.mp hmem
    obtain ⟨n, -, rest, hid⟩ := h.below e he
    rw [hid] at heq
    simp [Site.inType, TypeSite.id] at heq

theorem Numbered.inNamespace {i : Nat} {head : NamespaceHead}
    (h : Numbered (s.inNamespace i head) N ds) : Numbered s (· = i) ds where
  below e he := by
    obtain ⟨n, -, rest, hid⟩ := h.below e he
    exact ⟨i, rfl, n :: rest, by rw [hid]; simp [Site.inNamespace]⟩
  distinct := h.distinct

theorem Numbered.next {i : Nat} (h : Numbered s (· = i) ds) (h' : Numbered s (i + 1 ≤ ·) es) :
    Numbered s (i ≤ ·) (ds ++ es) :=
  h.append h' (by omega) (by omega)

/-! ## Sources -/

mutual

theorem Member.numbered_declare (space : Option String) : (m : Member) → (s : Site) → (i : Nat) →
    (outer : Option DefinitionKey) → Numbered s (· = i) (m.declare s i space outer)
  | .type head members, s, i, outer => by
    rw [Member.declare]
    exact (Member.numbered_declareAll space members (s.inType i head) 0 _).inType _ members
  | .method _, _, _, _ => .nil
  | .other _, _, _, _ => .nil

theorem Member.numbered_declareAll (space : Option String) : (ms : List Member) → (s : Site) →
    (i : Nat) → (outer : Option DefinitionKey) →
    Numbered s (i ≤ ·) (Member.declareAll s i space outer ms)
  | [], _, _, _ => .nil
  | m :: ms, s, i, outer => by
    rw [Member.declareAll]
    exact (Member.numbered_declare space m s i outer).next
      (Member.numbered_declareAll space ms s (i + 1) outer)

end

mutual

theorem NamespaceMember.numbered_declare : (m : NamespaceMember) → (s : Site) → (i : Nat) →
    (space : Option String) → Numbered s (· = i) (m.declare s i space)
  | .space head members, s, i, around => by
    rw [NamespaceMember.declare]
    exact (NamespaceMember.numbered_declareAll members (s.inNamespace i head) 0 _).inNamespace
  | .type d, s, i, around => Member.numbered_declare around (.type d.head d.members) s i none

theorem NamespaceMember.numbered_declareAll : (ms : List NamespaceMember) → (s : Site) →
    (i : Nat) → (space : Option String) →
    Numbered s (i ≤ ·) (NamespaceMember.declareAll s i space ms)
  | [], _, _, _ => .nil
  | m :: ms, s, i, around => by
    rw [NamespaceMember.declareAll]
    exact (NamespaceMember.numbered_declare m s i around).next
      (NamespaceMember.numbered_declareAll ms s (i + 1) around)

end

theorem CompilationUnit.numbered_declare (tree : Nat) (unit : CompilationUnit) :
    Numbered (.ofUnit tree unit) (0 ≤ ·) (unit.declare tree) :=
  NamespaceMember.numbered_declareAll unit.members _ 0 none

/-! ## What is declared -/

mutual

theorem Member.exists_declare (space : Option String) : (m : Member) → (s : Site) → (i : Nat) →
    (outer : Option DefinitionKey) → ∀ e ∈ m.declare s i space outer,
      ∃ o, e.key = DefinitionKey.declare space o e.site.head
  | .type head members, s, i, outer, e, he => by
    rw [Member.declare] at he
    rcases List.mem_cons.mp he with rfl | he
    · exact ⟨outer, rfl⟩
    · exact Member.exists_declareAll space members _ _ _ e he
  | .method _, _, _, _, _, he => absurd he List.not_mem_nil
  | .other _, _, _, _, _, he => absurd he List.not_mem_nil

theorem Member.exists_declareAll (space : Option String) : (ms : List Member) → (s : Site) →
    (i : Nat) → (outer : Option DefinitionKey) → ∀ e ∈ Member.declareAll s i space outer ms,
      ∃ o, e.key = DefinitionKey.declare space o e.site.head
  | [], _, _, _, _, he => absurd he List.not_mem_nil
  | m :: ms, s, i, outer, e, he => by
    rw [Member.declareAll] at he
    rcases List.mem_append.mp he with he | he
    · exact Member.exists_declare space m _ _ _ e he
    · exact Member.exists_declareAll space ms _ _ _ e he

end

mutual

theorem NamespaceMember.exists_declare : (m : NamespaceMember) → (s : Site) → (i : Nat) →
    (around : Option String) → ∀ e ∈ m.declare s i around,
      ∃ space o, e.key = DefinitionKey.declare space o e.site.head
  | .space head members, s, i, around, e, he => by
    rw [NamespaceMember.declare] at he
    exact NamespaceMember.exists_declareAll members _ _ _ e he
  | .type d, s, i, around, e, he =>
    ⟨around, Member.exists_declare around (.type d.head d.members) s i none e he⟩

theorem NamespaceMember.exists_declareAll : (ms : List NamespaceMember) → (s : Site) →
    (i : Nat) → (around : Option String) → ∀ e ∈ NamespaceMember.declareAll s i around ms,
      ∃ space o, e.key = DefinitionKey.declare space o e.site.head
  | [], _, _, _, _, he => absurd he List.not_mem_nil
  | m :: ms, s, i, around, e, he => by
    rw [NamespaceMember.declareAll] at he
    rcases List.mem_append.mp he with he | he
    · exact NamespaceMember.exists_declare m _ _ _ e he
    · exact NamespaceMember.exists_declareAll ms _ _ _ e he

end

@[simp] theorem DefinitionKey.arity_declare (space : Option String) (outer : Option DefinitionKey)
    (head : TypeHead) : (DefinitionKey.declare space outer head).arity = head.arity := by
  cases outer <;> rfl

/-! ## Programs -/

namespace Declarations

variable {units : List CompilationUnit}

theorem mem_declared {e : Declared} :
    e ∈ (ofUnits units).declared ↔
      ∃ (i : Nat) (h : i < units.length), e ∈ units[i].declare i := by
  simp only [ofUnits, List.mem_flatten, List.mem_mapIdx]
  constructor
  · rintro ⟨_, ⟨i, hi, rfl⟩, he⟩
    exact ⟨i, hi, he⟩
  · rintro ⟨i, hi, he⟩
    exact ⟨_, ⟨i, hi, rfl⟩, he⟩

theorem eq_of_id_eq {e e' : Declared} (he : e ∈ (ofUnits units).declared)
    (he' : e' ∈ (ofUnits units).declared) (hid : e.site.id = e'.site.id) : e = e' := by
  obtain ⟨i, hi, he⟩ := mem_declared.mp he
  obtain ⟨j, hj, he'⟩ := mem_declared.mp he'
  have hnumbered := CompilationUnit.numbered_declare i units[i]
  obtain ⟨_, _, _, htree⟩ := hnumbered.below e he
  obtain ⟨_, _, _, htree'⟩ := (CompilationUnit.numbered_declare j units[j]).below e' he'
  obtain rfl : i = j := by
    rw [htree, htree'] at hid
    exact (DeclarationId.mk.inj hid).1
  exact List.inj_on_of_nodup_map hnumbered.distinct he he' hid

/-- **The type that a declaration declares** is told from its identity. -/
theorem keyOf?_of_mem {e : Declared} (he : e ∈ (ofUnits units).declared) :
    (ofUnits units).keyOf? e.site.id = some e.key := by
  rw [keyOf?]
  cases hfind : (ofUnits units).declared.find? fun x => x.site.id == e.site.id with
  | none => exact absurd (List.find?_eq_none.mp hfind e he) (by simp)
  | some e' =>
    have hid : e'.site.id = e.site.id := by simpa using List.find?_some hfind
    rw [eq_of_id_eq (List.mem_of_find?_eq_some hfind) he hid]
    rfl

theorem mem_sitesOf {k : DefinitionKey} {t : TypeSite} :
    t ∈ (ofUnits units).sitesOf k ↔ (⟨k, t⟩ : Declared) ∈ (ofUnits units).declared := by
  simp only [sitesOf, List.mem_map, List.mem_filter, beq_iff_eq]
  constructor
  · rintro ⟨e, ⟨he, rfl⟩, rfl⟩
    exact he
  · exact fun h => ⟨⟨k, t⟩, ⟨h, rfl⟩, rfl⟩

theorem arity_of_mem {e : Declared} (he : e ∈ (ofUnits units).declared) :
    e.key.arity = e.site.head.arity := by
  obtain ⟨i, hi, he⟩ := mem_declared.mp he
  obtain ⟨space, o, hkey⟩ := NamespaceMember.exists_declareAll _ _ _ _ e he
  rw [hkey, DefinitionKey.arity_declare]

/-- Around what a declaration of a type says stand the type and those that contain it. -/
theorem containing_scopeAt {k : DefinitionKey} {t : TypeSite} (h : t ∈ (ofUnits units).sitesOf k) :
    ((ofUnits units).scopeAt t).containing = k.withOuter := by
  have hkey : (ofUnits units).keyOf? t.id = some k := keyOf?_of_mem (mem_sitesOf.mp h)
  rw [scopeAt, hkey]
  rfl

end Declarations

end Facade
