import Facade.Proofs.Binding.Scoped
import Facade.Proofs.Text.Splitting

/-!
# What is declared with a type

With a type of a program the types that contain it are declared, and its namespace is known.

* `DefinitionKey.outermost`, `DefinitionKey.nest`: the type around all others, and the way inwards;
* `Declarations.mem_keys_of_nested`, **`Declarations.mem_keys_of_nest`**: containing types are declared;
* **`Declarations.mem_spaces`**: the namespace of a declared type is one of the program's;
* `Declarations.length_typeParameters`: a declared type has its type parameters.
-/

namespace Facade

/-! ## Ways inwards -/

namespace DefinitionKey

/-- The type that contains the others around this one, or the type itself. -/
def outermost : DefinitionKey → DefinitionKey
  | topLevel s n a => topLevel s n a
  | nested o _ _ => o.outermost

/-- The type of these names in a type, each nested in the one before. -/
def nest (k : DefinitionKey) (names : List (String × Nat)) : DefinitionKey :=
  names.foldl (fun o n => .nested o n.1 n.2) k

@[simp] theorem nest_nil (k : DefinitionKey) : k.nest [] = k := rfl

@[simp] theorem nest_cons (k : DefinitionKey) (n : String × Nat) (names : List (String × Nat)) :
    k.nest (n :: names) = (nested k n.1 n.2).nest names := rfl

theorem nest_append (k : DefinitionKey) (names names' : List (String × Nat)) :
    k.nest (names ++ names') = (k.nest names).nest names' := List.foldl_append ..

@[simp] theorem space_nest (k : DefinitionKey) (names : List (String × Nat)) :
    (k.nest names).space = k.space := by
  induction names generalizing k with
  | nil => rfl
  | cons n names ih => rw [nest_cons, ih, space]

@[simp] theorem outermost_nest (k : DefinitionKey) (names : List (String × Nat)) :
    (k.nest names).outermost = k.outermost := by
  induction names generalizing k with
  | nil => rfl
  | cons n names ih => rw [nest_cons, ih, outermost]

@[simp] theorem chain_nest (k : DefinitionKey) (names : List (String × Nat)) :
    (k.nest names).chain = k.chain ++ names := by
  induction names generalizing k with
  | nil => simp
  | cons n names ih => rw [nest_cons, ih, chain, List.append_assoc, List.singleton_append]

@[simp] theorem space_outermost (k : DefinitionKey) : k.outermost.space = k.space := by
  induction k with
  | topLevel => rfl
  | nested o n a ih => exact ih

theorem exists_chain (k : DefinitionKey) : ∃ names,
    k.chain = (k.outermost.name, k.outermost.arity) :: names ∧ k = k.outermost.nest names := by
  induction k with
  | topLevel s n a => exact ⟨[], rfl, rfl⟩
  | nested o n a ih =>
    obtain ⟨names, hchain, hnest⟩ := ih
    refine ⟨names ++ [(n, a)], ?_, ?_⟩
    · rw [chain, hchain, outermost, List.cons_append]
    · rw [outermost, nest_append, ← hnest]
      rfl

theorem length_chain_pos (k : DefinitionKey) : 0 < k.chain.length := by
  cases k <;> simp [chain]

theorem outermost_of_length_chain {k : DefinitionKey} (h : k.chain.length = 1) : k.outermost = k := by
  cases k with
  | topLevel => rfl
  | nested o n a =>
    have hpos := o.length_chain_pos
    rw [chain, List.length_append, List.length_singleton] at h
    omega

theorem outermost_eq (k : DefinitionKey) :
    k.outermost = .topLevel k.space k.outermost.name k.outermost.arity := by
  induction k with
  | topLevel => rfl
  | nested o n a ih => exact ih

end DefinitionKey

/-! ## Declarations -/

/-- What contains the declared types is declared too, or is `outer`. -/
def ContainersDeclared (outer : Option DefinitionKey) (ds : List Declared) : Prop :=
  ∀ e ∈ ds, ∀ o ∈ e.key.outer?, o ∈ outer ∨ ∃ e' ∈ ds, e'.key = o

theorem ContainersDeclared.append {outer : Option DefinitionKey} {ds es : List Declared}
    (hds : ContainersDeclared outer ds) (hes : ContainersDeclared outer es) :
    ContainersDeclared outer (ds ++ es) := by
  intro e he o ho
  rcases List.mem_append.mp he with he | he
  · exact (hds e he o ho).imp_right fun ⟨e', he', heq⟩ => ⟨e', List.mem_append_left _ he', heq⟩
  · exact (hes e he o ho).imp_right fun ⟨e', he', heq⟩ => ⟨e', List.mem_append_right _ he', heq⟩

theorem ContainersDeclared.cons {outer : Option DefinitionKey} {e : Declared} {ds : List Declared}
    (he : e.key.outer? = outer) (h : ContainersDeclared (some e.key) ds) :
    ContainersDeclared outer (e :: ds) := by
  intro e' he' o ho
  rcases List.mem_cons.mp he' with rfl | he'
  · exact Or.inl (he ▸ ho)
  · right
    rcases h e' he' o ho with ho | ⟨e'', he'', heq⟩
    · exact ⟨e, List.mem_cons_self, Option.some.inj ho⟩
    · exact ⟨e'', List.mem_cons_of_mem _ he'', heq⟩

theorem DefinitionKey.outer?_declare (space : Option String) (outer : Option DefinitionKey)
    (head : TypeHead) : (DefinitionKey.declare space outer head).outer? = outer := by
  cases outer <;> rfl

theorem DefinitionKey.space_declare {space : Option String} {outer : Option DefinitionKey}
    (houter : ∀ o ∈ outer, o.space = space) (head : TypeHead) :
    (DefinitionKey.declare space outer head).space = space := by
  cases outer with
  | none => rfl
  | some o => exact houter o rfl

mutual

theorem Member.containersDeclared (space : Option String) : (m : Member) → (s : Site) → (i : Nat) →
    (outer : Option DefinitionKey) → ContainersDeclared outer (m.declare s i space outer)
  | .type head members, s, i, outer => by
    rw [Member.declare]
    exact .cons (DefinitionKey.outer?_declare space outer head)
      (Member.containersDeclaredAll space members (s.inType i head) 0 _)
  | .method _, _, _, _ => fun _ he => absurd he List.not_mem_nil
  | .other _, _, _, _ => fun _ he => absurd he List.not_mem_nil

theorem Member.containersDeclaredAll (space : Option String) : (ms : List Member) → (s : Site) →
    (i : Nat) → (outer : Option DefinitionKey) →
    ContainersDeclared outer (Member.declareAll s i space outer ms)
  | [], _, _, _ => fun _ he => absurd he List.not_mem_nil
  | m :: ms, s, i, outer => by
    rw [Member.declareAll]
    exact (Member.containersDeclared space m s i outer).append
      (Member.containersDeclaredAll space ms s (i + 1) outer)

end

mutual

theorem NamespaceMember.containersDeclared : (m : NamespaceMember) → (s : Site) → (i : Nat) →
    (space : Option String) → ContainersDeclared none (m.declare s i space)
  | .space head members, s, i, around => by
    rw [NamespaceMember.declare]
    exact NamespaceMember.containersDeclaredAll members _ 0 _
  | .type d, s, i, around => Member.containersDeclared around (.type d.head d.members) s i none

theorem NamespaceMember.containersDeclaredAll : (ms : List NamespaceMember) → (s : Site) →
    (i : Nat) → (space : Option String) →
    ContainersDeclared none (NamespaceMember.declareAll s i space ms)
  | [], _, _, _ => fun _ he => absurd he List.not_mem_nil
  | m :: ms, s, i, around => by
    rw [NamespaceMember.declareAll]
    exact (NamespaceMember.containersDeclared m s i around).append
      (NamespaceMember.containersDeclaredAll ms s (i + 1) around)

end

/-! ## Namespaces -/

mutual

theorem Member.space_of_mem_declare {space : Option String} : (m : Member) → (s : Site) →
    (i : Nat) → (outer : Option DefinitionKey) → (∀ o ∈ outer, o.space = space) →
    ∀ e ∈ m.declare s i space outer, e.key.space = space
  | .type head members, s, i, outer, houter, e, he => by
    have hkey := DefinitionKey.space_declare houter head
    rw [Member.declare] at he
    rcases List.mem_cons.mp he with rfl | he
    · exact hkey
    · exact Member.space_of_mem_declareAll members _ 0 _
        (fun o ho => Option.mem_some.mp ho ▸ hkey) e he
  | .method _, _, _, _, _, _, he => absurd he List.not_mem_nil
  | .other _, _, _, _, _, _, he => absurd he List.not_mem_nil

theorem Member.space_of_mem_declareAll {space : Option String} : (ms : List Member) → (s : Site) →
    (i : Nat) → (outer : Option DefinitionKey) → (∀ o ∈ outer, o.space = space) →
    ∀ e ∈ Member.declareAll s i space outer ms, e.key.space = space
  | [], _, _, _, _, _, he => absurd he List.not_mem_nil
  | m :: ms, s, i, outer, houter, e, he => by
    rw [Member.declareAll] at he
    rcases List.mem_append.mp he with he | he
    · exact Member.space_of_mem_declare m s i outer houter e he
    · exact Member.space_of_mem_declareAll ms s (i + 1) outer houter e he

end

theorem mem_dottedPrefixes (n : String) : n ∈ dottedPrefixes n := by
  have hpos : 0 < (Text.split '.' n).length :=
    List.length_pos_iff.mpr (Text.split_ne_nil '.' n)
  refine List.mem_map.mpr ⟨(Text.split '.' n).length - 1, List.mem_range.mpr (by omega), ?_⟩
  rw [List.take_of_length_le (by omega), Text.intercalate_split]

mutual

theorem NamespaceMember.space_of_mem_declare : (m : NamespaceMember) → (s : Site) → (i : Nat) →
    (around : Option String) → ∀ e ∈ m.declare s i around,
      e.key.space = around ∨ ∃ n ∈ m.spaces around, e.key.space = some n
  | .space head members, s, i, around, e, he => by
    rw [NamespaceMember.declare] at he
    right
    rw [NamespaceMember.spaces]
    rcases NamespaceMember.space_of_mem_declareAll members _ 0 _ e he with h | ⟨n, hn, h⟩
    · exact ⟨_, List.mem_append_left _ (mem_dottedPrefixes _), h⟩
    · exact ⟨n, List.mem_append_right _ hn, h⟩
  | .type d, s, i, around, e, he =>
    Or.inl (Member.space_of_mem_declare (.type d.head d.members) s i none (by simp) e he)

theorem NamespaceMember.space_of_mem_declareAll : (ms : List NamespaceMember) → (s : Site) →
    (i : Nat) → (around : Option String) → ∀ e ∈ NamespaceMember.declareAll s i around ms,
      e.key.space = around ∨ ∃ n ∈ NamespaceMember.spacesAll around ms, e.key.space = some n
  | [], _, _, _, _, he => absurd he List.not_mem_nil
  | m :: ms, s, i, around, e, he => by
    rw [NamespaceMember.declareAll] at he
    rw [NamespaceMember.spacesAll]
    rcases List.mem_append.mp he with he | he
    · exact (NamespaceMember.space_of_mem_declare m s i around e he).imp_right
        fun ⟨n, hn, h⟩ => ⟨n, List.mem_append_left _ hn, h⟩
    · exact (NamespaceMember.space_of_mem_declareAll ms s (i + 1) around e he).imp_right
        fun ⟨n, hn, h⟩ => ⟨n, List.mem_append_right _ hn, h⟩

end

/-! ## Programs -/

namespace Declarations

variable {units : List CompilationUnit}

theorem mem_keys {k : DefinitionKey} :
    k ∈ (ofUnits units).keys ↔ ∃ e ∈ (ofUnits units).declared, e.key = k := by
  simp only [ofUnits, List.mem_eraseDups, List.mem_map]

/-- The type around a declared type is declared. -/
theorem mem_keys_of_nested {o : DefinitionKey} {n : String} {a : Nat}
    (h : .nested o n a ∈ (ofUnits units).keys) : o ∈ (ofUnits units).keys := by
  obtain ⟨e, he, hkey⟩ := mem_keys.mp h
  obtain ⟨i, hi, hunit⟩ := mem_declared.mp he
  have hall := NamespaceMember.containersDeclaredAll units[i].members (.ofUnit i units[i]) 0 none
  rcases hall e hunit o (by rw [hkey]; rfl) with ho | ⟨e', he', heq⟩
  · cases ho
  · exact mem_keys.mpr ⟨e', mem_declared.mpr ⟨i, hi, he'⟩, heq⟩

/-- **All types on the way to a declared type are declared.** -/
theorem mem_keys_of_nest {k : DefinitionKey} {names : List (String × Nat)}
    (h : k.nest names ∈ (ofUnits units).keys) : k ∈ (ofUnits units).keys := by
  induction names generalizing k with
  | nil => exact h
  | cons n names ih => exact mem_keys_of_nested (ih h)

theorem mem_keys_of_withOuter {k o : DefinitionKey} (hk : k ∈ (ofUnits units).keys)
    (ho : o ∈ k.withOuter) : o ∈ (ofUnits units).keys := by
  induction k with
  | topLevel => exact List.mem_singleton.mp ho ▸ hk
  | nested o' n a ih =>
    rcases List.mem_cons.mp ho with rfl | ho
    · exact hk
    · exact ih (mem_keys_of_nested hk) ho

theorem mem_keys_outermost {k : DefinitionKey} (h : k ∈ (ofUnits units).keys) :
    k.outermost ∈ (ofUnits units).keys := by
  obtain ⟨names, -, hnest⟩ := k.exists_chain
  rw [hnest] at h
  exact mem_keys_of_nest h

/-- **The namespace of a declared type is known.** -/
theorem mem_spaces {k : DefinitionKey} (h : k ∈ (ofUnits units).keys) {n : String}
    (hn : k.space = some n) : n ∈ (ofUnits units).spaces := by
  obtain ⟨e, he, rfl⟩ := mem_keys.mp h
  obtain ⟨i, hi, he⟩ := mem_declared.mp he
  rcases NamespaceMember.space_of_mem_declareAll _ _ _ _ e he with h | ⟨n', hn', h⟩
  · rw [hn] at h
    cases h
  · obtain rfl := Option.some.inj (hn.symm.trans h)
    exact List.mem_eraseDups.mpr (List.mem_flatMap.mpr ⟨_, List.getElem_mem hi, hn'⟩)

theorem exists_definition {k : DefinitionKey} (h : k ∈ (ofUnits units).keys) :
    ∃ d, (Model.ofUnits units).program.definition? k = some d := by
  obtain ⟨e, he, hkey⟩ := mem_keys.mp h
  have hsite : e.site ∈ (ofUnits units).sitesOf k := by
    rw [← hkey]
    exact mem_sitesOf.mpr he
  obtain ⟨first, sites, hsites⟩ := List.exists_cons_of_ne_nil (List.ne_nil_of_mem hsite)
  have hdefine : ∃ d, (ofUnits units).define k = some d ∧ d.key = k := by
    simp [define, headOf?, hsites]
  obtain ⟨d, hd, hdkey⟩ := hdefine
  have hmem : (Environment.ofUnits units).bind d ∈ (Model.ofUnits units).program.definitions :=
    List.mem_map_of_mem (List.mem_filterMap.mpr ⟨k, h, hd⟩)
  rw [← Option.isSome_iff_exists, Program.definition?, List.find?_isSome]
  exact ⟨_, hmem, by simp [hdkey]⟩

/-- A declared type has its type parameters. -/
theorem length_typeParameters {k : DefinitionKey} (h : k ∈ (ofUnits units).keys) :
    ((Model.ofUnits units).program.typeParameters k).length = k.arity := by
  obtain ⟨d, hd⟩ := exists_definition h
  obtain ⟨hmem, hkey⟩ := Program.definition?_eq_some hd
  rw [Program.typeParameters, hd, ← hkey]
  exact (Model.isScoped_ofUnits units).arity d hmem

end Declarations

end Facade
