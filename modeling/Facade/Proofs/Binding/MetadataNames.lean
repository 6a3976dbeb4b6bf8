import Mathlib.Tactic.Common
import Facade.Proofs.Binding.Merging

/-!
# Metadata names

The metadata name of a declared type is put together from the names around it: dots divide namespaces,
plus signs the types that contain each other, and a backtick goes before a number of type parameters.
None of these signs is in a name, so the pieces can be told from the text.

* `DefinitionKey.mark_injective`, **`DefinitionKey.metadataName_injective`**: types of different
  identities have different metadata names;
* `Model.isWritten_key`: the identities of the types of a program are made of names;
* **`Model.metadataNames_identify`**: in a program a metadata name leads to the type that has it.
-/

namespace Facade

open Text Scan

namespace DefinitionKey

/-! ## Marked names -/

theorem mem_mark {n : String} (hn : Named n) {a : Nat} {c : Char} (hc : c ∈ (mark n a).toList) :
    isWord c = true ∨ c = '@' ∨ c = '`' ∨ c.isDigit = true := by
  unfold mark at hc
  split_ifs at hc with ha
  · exact (hn.mem c hc).imp_right Or.inl
  · simp only [String.toList_append, List.mem_append] at hc
    rcases hc with (hc | hc) | hc
    · exact (hn.mem c hc).imp_right Or.inl
    · exact Or.inr (Or.inr (Or.inl (by simpa using hc)))
    · refine Or.inr (Or.inr (Or.inr (Nat.isDigit_of_mem_toDigits (b := 10) (n := a) (by decide)
        (by decide) ?_)))
      simpa [Nat.toString_eq_ofList_toDigits] using hc

theorem mark_without {n : String} (hn : Named n) (a : Nat) {c : Char}
    (hc : c ∈ ['.', '+', '<', '>']) : Without (· = c) (mark n a).toList := by
  rintro d hd rfl
  have hsigns : ['.', '+', '<', '>'].all fun c =>
      !isWord c && c != '@' && c != '`' && !c.isDigit := by decide
  have hsign := List.all_eq_true.mp hsigns d hc
  simp only [Bool.and_eq_true, Bool.not_eq_true', bne_iff_ne, ne_eq] at hsign
  obtain ⟨⟨⟨hword, hat⟩, htick⟩, hdigit⟩ := hsign
  rcases mem_mark hn hd with h | h | h | h
  · rw [hword] at h
    cases h
  · exact hat h
  · exact htick h
  · rw [hdigit] at h
    cases h

/-- A name with a number is taken apart in one way. -/
theorem mark_injective {n m : String} (hn : Named n) (hm : Named m) {a b : Nat}
    (h : mark n a = mark m b) : n = m ∧ a = b := by
  have htick : ∀ {k : String}, Named k → Without (· = '`') k.toList :=
    fun hk => hk.without (by decide) (by decide)
  -- A name without a number has no backtick, one with a number has one.
  have hbare : ∀ {k l : String} {b : Nat}, Named k → k ≠ l ++ "`" ++ toString b := by
    rintro k l b hk rfl
    exact htick hk '`' (by simp) rfl
  unfold mark at h
  split_ifs at h with ha hb hb
  · exact ⟨h, ha.trans hb.symm⟩
  · exact absurd h (hbare hn)
  · exact absurd h.symm (hbare hm)
  · have hlist := congrArg String.toList h
    simp only [String.toList_append, List.append_assoc] at hlist
    obtain ⟨hname, -, hdigits⟩ := cut_at (htick hn) (htick hm) rfl rfl hlist
    refine ⟨String.toList_inj.mp hname, ?_⟩
    have hnumber := congrArg (fun s => Nat.ofDigitChars 10 s 0) hdigits
    simpa [Nat.toString_eq_ofList_toDigits] using hnumber

/-! ## Metadata names -/

theorem plus_not_mem_topLevel {space : Option String} {n : String} {a : Nat}
    (h : (topLevel space n a).IsWritten) : '+' ∉ (topLevel space n a).metadataName.toList := by
  have hname : '+' ∉ (mark n a).toList := fun hmem => mark_without h.2 a (by decide) '+' hmem rfl
  cases space with
  | none => exact hname
  | some s =>
    have hspace : '+' ∉ s.toList := fun hmem =>
      dotted_without (h.1 s rfl) (by decide) (by decide) (by decide) '+' hmem rfl
    rw [metadataName, Program.qualify_dotted (h.1 s rfl)]
    simpa using ⟨hspace, hname⟩

theorem topLevel_of_metadataName_eq {s s' : Option String} {n n' : String} {a a' : Nat}
    (hk : (topLevel s n a).IsWritten) (hl : (topLevel s' n' a').IsWritten)
    (h : (topLevel s n a).metadataName = (topLevel s' n' a').metadataName) :
    topLevel s n a = topLevel s' n' a' := by
  -- Without a namespace there is no dot at all.
  have hglobal : ∀ {s n m : String} {a b : Nat}, Named m → mark m b ≠ s ++ "." ++ mark n a := by
    intro s n m a b hm heq
    exact mark_without hm b (c := '.') (by decide) '.' (by simp [heq]) rfl
  cases s with
  | none =>
    cases s' with
    | none =>
      obtain ⟨rfl, rfl⟩ := mark_injective hk.2 hl.2 h
      rfl
    | some s' =>
      rw [metadataName, metadataName, Program.qualify_dotted (hl.1 s' rfl)] at h
      exact absurd h (hglobal hk.2)
  | some s =>
    rw [metadataName, metadataName, Program.qualify_dotted (hk.1 s rfl)] at h
    cases s' with
    | none => exact absurd h.symm (hglobal hl.2)
    | some s' =>
      rw [Program.qualify_dotted (hl.1 s' rfl)] at h
      have hlist := congrArg String.toList h
      simp only [String.toList_append, List.append_assoc] at hlist
      obtain ⟨hspace, -, hname⟩ := cut_at_last (mark_without hk.2 a (by decide))
        (mark_without hl.2 a' (by decide)) rfl rfl hlist
      obtain ⟨rfl, rfl⟩ := mark_injective hk.2 hl.2 (String.toList_inj.mp hname)
      rw [String.toList_inj.mp hspace]

/-- **Types of different identities have different metadata names.** The last plus sign divides a nested
type from the type that contains it; where there is none, the last dot divides the type from its
namespace. -/
theorem metadataName_injective {k l : DefinitionKey} (hk : k.IsWritten) (hl : l.IsWritten)
    (h : k.metadataName = l.metadataName) : k = l := by
  have hplus : ∀ {o : DefinitionKey} {n : String} {a : Nat},
      '+' ∈ (nested o n a).metadataName.toList := by simp [metadataName]
  induction k generalizing l with
  | topLevel s n a =>
    cases l with
    | topLevel s' n' a' => exact topLevel_of_metadataName_eq hk hl h
    | nested o' n' a' => exact absurd (h ▸ hplus) (plus_not_mem_topLevel hk)
  | nested o n a ih =>
    cases l with
    | topLevel s' n' a' => exact absurd (h ▸ hplus) (plus_not_mem_topLevel hl)
    | nested o' n' a' =>
      have hlist := congrArg String.toList h
      simp only [metadataName, String.toList_append, List.append_assoc] at hlist
      obtain ⟨houter, -, hname⟩ := cut_at_last (mark_without hk.2 a (by decide))
        (mark_without hl.2 a' (by decide)) rfl rfl hlist
      obtain ⟨rfl, rfl⟩ := mark_injective hk.2 hl.2 (String.toList_inj.mp hname)
      rw [ih hk.1 hl.1 (String.toList_inj.mp houter)]

end DefinitionKey

/-! ## Programs -/

namespace Model

variable {units : List CompilationUnit}

theorem isWritten_key {P : String → Prop} (hunits : ∀ u ∈ units, u.IsWritten P) {d : Definition}
    (hd : d ∈ (ofUnits units).program.definitions) : d.key.IsWritten := by
  refine (Declarations.isWritten_ofUnits hunits).keys d.key ?_
  rw [← map_key_definitions]
  exact List.mem_map_of_mem hd

/-- **Metadata names identify the types of a program**: no two of its types have the same one, whatever
their namespaces, nesting and numbers of type parameters, and the type that is found by a metadata name
is the one that has it. -/
theorem metadataNames_identify
    (hparsed : ∀ u ∈ units, ∃ path source, CompilationUnit.parse path source = .ok u) :
    ((ofUnits units).program.definitions.map fun d => d.key.metadataName).Nodup ∧
    ∀ name d, (ofUnits units).program.byMetadataName? name = some d ↔
      d ∈ (ofUnits units).program.definitions ∧ d.key.metadataName = name := by
  have hunits : ∀ u ∈ units, u.IsWritten fun _ => True := by
    intro u hu
    obtain ⟨path, source, hparse⟩ := hparsed u hu
    exact CompilationUnit.isWritten_of_parse (fun _ _ => trivial) hparse
  have hkey : ∀ d ∈ (ofUnits units).program.definitions,
      ∀ d' ∈ (ofUnits units).program.definitions,
        d.key.metadataName = d'.key.metadataName → d.key = d'.key := fun d hd d' hd' h =>
    DefinitionKey.metadataName_injective (isWritten_key hunits hd) (isWritten_key hunits hd') h
  refine ⟨?nodup, fun name d => ⟨fun h => ?sound, fun ⟨hd, hname⟩ => ?complete⟩⟩
  case nodup =>
    have hkeys : ((ofUnits units).program.definitions.map Definition.key).Nodup := by
      rw [map_key_definitions]
      exact Declarations.nodup_keys
    refine (List.nodup_map_iff_inj_on (List.Nodup.of_map _ hkeys)).mpr fun d hd d' hd' h => ?_
    exact ext_of_mem hd hd' (hkey d hd d' hd' h)
  case sound => exact ⟨List.mem_of_find?_eq_some h, by simpa using List.find?_some h⟩
  case complete =>
    cases hfind : (ofUnits units).program.byMetadataName? name with
    | none => exact absurd (List.find?_eq_none.mp hfind d hd) (by simp [hname])
    | some d' =>
      have hname' : d'.key.metadataName = name := by simpa using List.find?_some hfind
      have hd' := List.mem_of_find?_eq_some hfind
      rw [ext_of_mem hd' hd (hkey d' hd' d hd (hname'.trans hname.symm))]

/-- Types that differ in one piece of their metadata names each. -/
def likeNamedSources : List String :=
  ["namespace A.B \x7b class C<T> \x7b class D \x7b \x7d \x7d \x7d class A \x7b class B \x7b \x7d \x7d",
    "namespace A \x7b class B \x7b class C \x7b class D<T, U> \x7b \x7d \x7d \x7d class C \x7b \x7d \x7d"]

/-- Types of like names are told apart. -/
theorem metadataNames_identify_likeNamed : ∃ units,
    CompilationUnit.parseAll? likeNamedSources = some units ∧
    (ofUnits units).program.definitions.map (fun d => d.key.metadataName) =
      ["A.B.C`1", "A.B.C`1+D", "A", "A+B", "A.B", "A.B+C", "A.B+C+D`2", "A.C"] ∧
    ∀ d ∈ (ofUnits units).program.definitions,
      (ofUnits units).program.byMetadataName? d.key.metadataName = some d := by
  have hnames : (CompilationUnit.parseAll? likeNamedSources).map (fun units =>
      (ofUnits units).program.definitions.map fun d => d.key.metadataName) =
        some ["A.B.C`1", "A.B.C`1+D", "A", "A+B", "A.B", "A.B+C", "A.B+C+D`2", "A.C"] := by
    decide +kernel
  obtain ⟨units, hunits, hnames⟩ := Option.map_eq_some_iff.mp hnames
  exact ⟨units, hunits, hnames, fun d hd =>
    ((metadataNames_identify (CompilationUnit.parsed_of_parseAll? hunits)).2 _ d).mpr ⟨hd, rfl⟩⟩

end Model

end Facade
