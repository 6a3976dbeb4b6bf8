import Facade.Proofs.Binding.Scoped
import Facade.Proofs.Binding.WrittenModel
import Facade.Proofs.Symbol.Constructed

/-!
# Constructed types of bound programs

A type parameter belongs to a type or to a method, which its owner tells. Where types are put in the
place of type parameters of types only, methods keep their own.

* `TypeParameter.IsTypeLevel`, `Substitution.IsTypeLevel`: the type parameters of types;
* `Model.apply_of_isTypeLevel`: those of methods stay;
* **`Program.IsBound.substitute_constructed`**: constructed types of bound programs.
-/

namespace Facade

open Relation

/-! ## Owners -/

theorem isDigit_of_isNameStart {c : Char} (h : Text.isNameStart c = true) : c.isDigit = false := by
  by_contra hdigit
  rw [Bool.not_eq_false] at hdigit
  have hlt : c.toNat < 128 := by
    simp only [Char.isDigit, Bool.and_eq_true, decide_eq_true_eq, UInt32.le_iff_toNat_le] at hdigit
    exact Nat.lt_of_le_of_lt hdigit.2 (by decide)
  rw [Text.isNameStart, Text.isDecimalDigit, if_pos hlt, hdigit] at h
  simp at h

theorem Named.exists_not_digit {n : String} (h : Named n) : ∃ c ∈ n.toList, c.isDigit = false := by
  have hplain : ∀ cs, Scan.IsPlainName cs → ∃ c ∈ cs, c.isDigit = false := by
    intro cs hcs
    cases cs with
    | nil => cases hcs
    | cons c cs => exact ⟨c, List.mem_cons_self, isDigit_of_isNameStart hcs.1⟩
  rcases h with h | ⟨plain, heq, h⟩
  · exact hplain _ h
  · exact ⟨'@', by rw [heq]; exact List.mem_cons_self, by decide⟩

/-- The last character of a text that is no digit. -/
def lastOther (n : String) : Option Char := n.toList.reverse.find? fun c => !c.isDigit

theorem lastOther_append_of_named {n : String} (hn : Named n) (before : String) :
    ∃ c ∈ n.toList, lastOther (before ++ n) = some c := by
  obtain ⟨c, hc, hdigit⟩ := hn.exists_not_digit
  cases hfind : n.toList.reverse.find? fun c => !c.isDigit with
  | none => simpa [hdigit] using List.find?_eq_none.mp hfind c (List.mem_reverse.mpr hc)
  | some d =>
    refine ⟨d, List.mem_reverse.mp (List.mem_of_find?_eq_some hfind), ?_⟩
    rw [lastOther, String.toList_append, List.reverse_append, List.find?_append, hfind]
    rfl

theorem lastOther_marked (before : String) (i : Nat) :
    lastOther (before ++ "`" ++ toString i) = some '`' := by
  have hdigits : (toString i).toList.reverse.find? (fun c => !c.isDigit) = none := by
    refine List.find?_eq_none.mpr fun c hc => ?_
    have hdigit : c ∈ Nat.toDigits 10 i := by
      rw [List.mem_reverse] at hc
      rwa [← String.toList_ofList (l := Nat.toDigits 10 i)]
    simp [Nat.isDigit_of_mem_toDigits (by decide) (by decide) hdigit]
  rw [lastOther, String.toList_append, String.toList_append, List.reverse_append,
    List.reverse_append, List.find?_append, hdigits]
  rfl

theorem DefinitionKey.exists_ownerName (k : DefinitionKey) :
    ∃ before, k.ownerName = before ++ k.name := by
  cases k with
  | topLevel s n a =>
    cases s with
    | none => exact ⟨"", by simp [ownerName, qualify, name]⟩
    | some s =>
      by_cases hs : s.isEmpty
      · exact ⟨"", by simp [ownerName, qualify, name, hs]⟩
      · exact ⟨s ++ ".", by simp [ownerName, qualify, name, hs]⟩
  | nested o n a => exact ⟨o.metadataName ++ "+", rfl⟩

theorem DefinitionKey.IsWritten.name {k : DefinitionKey} (h : k.IsWritten) : Named k.name := by
  cases k with
  | topLevel => exact h.2
  | nested => exact h.2

theorem DefinitionKey.IsWritten.ownerName_ne {k : DefinitionKey} (hk : k.IsWritten)
    (method : String) (i : Nat) : k.ownerName ≠ method ++ "`" ++ toString i := by
  intro heq
  obtain ⟨before, hbefore⟩ := k.exists_ownerName
  obtain ⟨c, hc, hlast⟩ := lastOther_append_of_named hk.name before
  rw [← hbefore, heq, lastOther_marked, Option.some.injEq] at hlast
  exact hk.name.without (by decide) (by decide) c hc hlast.symm

/-- The type parameter belongs to a type. -/
def TypeParameter.IsTypeLevel (q : TypeParameter) : Prop :=
  ∃ k : DefinitionKey, k.IsWritten ∧ q.owner = k.ownerName

/-- Only type parameters of types are replaced. -/
def Substitution.IsTypeLevel (m : Substitution) : Prop := ∀ e ∈ m, e.1.IsTypeLevel

/-! ## Bound programs -/

/-- The program is what some sources declare. -/
def Program.IsBound (p : Program) : Prop :=
  ∃ units : List CompilationUnit, p = (Model.ofUnits units).program

theorem owner_of_mem_ofSyntax {owner : String} {ps : List TypeParameterSyntax} {q : TypeParameter}
    (h : q ∈ TypeParameter.ofSyntax owner ps) : q.owner = owner := by
  obtain ⟨i, p, -, rfl⟩ := mem_of_mem_mapIdx h
  rfl

namespace Model

variable {units : List CompilationUnit}

/-- Where only type parameters of types are replaced, methods keep their own. -/
theorem apply_of_isTypeLevel {m : Substitution} (hm : m.IsTypeLevel) {bound : Definition}
    (hbound : bound ∈ (Model.ofUnits units).program.definitions) {f : MethodSymbol}
    (hf : f ∈ bound.methods) {q : TypeParameter} (hq : q ∈ f.typeParameters) :
    m.apply q = .parameter q := by
  obtain ⟨d, hd, rfl⟩ := List.mem_map.mp hbound
  obtain ⟨s, hs, method, rfl⟩ := Environment.exists_of_mem_methods hd hf
  refine Substitution.apply_of_forall_ne fun e he heq => ?_
  obtain ⟨k, hk, howner⟩ := hm e he
  rw [heq, owner_of_mem_ofSyntax hq] at howner
  exact hk.ownerName_ne _ _ howner.symm

end Model

/-! ## Constructed types -/

/-- **Constructed types of bound programs.** Let no definition that base lists lead to from `k` be
nested in a generic type. Replacing type parameters of types in `k` with type arguments `as` replaces
them in its interfaces, in its base class and in its methods. All interfaces of `k` with these type
arguments are those of `k` itself with its type parameters replaced, each listed where it is first met,
if base lists lead from `k` to no cycle and none on the way names a type parameter. -/
theorem Program.IsBound.substitute_constructed {p : Program} (hp : p.IsBound) {k : DefinitionKey}
    (hgeneric : ∀ l, p.LeadsTo k l → ¬ l.IsInGeneric) {as : List TypeSymbol}
    (has : as.length = k.arity) {m : Substitution} (hm : m.IsTypeLevel) :
    (p.interfaces ((TypeSymbol.constructed k as).substitute m) =
        (p.interfaces (.constructed k as)).map (TypeSymbol.substitute m) ∧
      p.baseType? ((TypeSymbol.constructed k as).substitute m) =
        (p.baseType? (.constructed k as)).map (TypeSymbol.substitute m) ∧
      p.methods ((TypeSymbol.constructed k as).substitute m) =
        (p.methods (.constructed k as)).map (MethodSymbol.substitute m)) ∧
    (¬ p.IsCyclic k → ¬ p.NamesParameter k →
      p.allInterfaces (.constructed k as) =
        ((p.allInterfaces (.definition k)).map
          (TypeSymbol.substitute ((p.typeParameters k).zip as))).eraseDups) := by
  obtain ⟨units, rfl⟩ := hp
  have hscoped := Model.isScoped_ofUnits units
  have hk := hgeneric k .refl
  refine ⟨⟨hscoped.interfaces_substitute hk has m, hscoped.baseType_substitute hk has m,
    hscoped.methods_substitute hk has fun d hd f hf q hq => ?_⟩, fun hcyclic hnames => ?_⟩
  · exact Model.apply_of_isTypeLevel hm hd hf hq
  · exact hscoped.allInterfaces_constructed hgeneric hnames hcyclic as

section Example

/-- The program of one source. -/
def boundSource (source : String) : Program :=
  (Model.ofUnits (CompilationUnit.parse "a.cs" source).toOption.toList).program

theorem isBound_boundSource (source : String) : (boundSource source).IsBound := ⟨_, rfl⟩

/-- An interface based on two others, one of them twice. -/
def twiceBased : Program := boundSource
  "namespace N \x7b interface R<V> \x7b \x7d interface L<U> : R<U> \x7b \x7d
  interface I<T, S> : L<T>, R<S> \x7b T Get<X>(S s, X x); \x7d \x7d"

/-- The second type parameter of the interface. -/
def secondParameter : TypeParameter := ⟨"S", 1, "N.I", none⟩

/-- Two type arguments that are alike: the interface that is named twice is listed once. -/
theorem substitute_constructed_alike :
    twiceBased.allInterfaces (.constructed (.topLevel (some "N") "I" 2)
      [.special "int", .special "int"]) = [.constructed (.topLevel (some "N") "L" 1) [.special "int"],
        .constructed (.topLevel (some "N") "R" 1) [.special "int"]] ∧
    twiceBased.methods ((TypeSymbol.constructed (.topLevel (some "N") "I" 2)
        [.special "int", .parameter secondParameter]).substitute
        [(secondParameter, .special "string")]) =
      (twiceBased.methods (.constructed (.topLevel (some "N") "I" 2)
        [.special "int", .parameter secondParameter])).map
        (MethodSymbol.substitute [(secondParameter, .special "string")]) := by
  -- the source is read once for all that is asked of its program
  have hprogram : (twiceBased.Layered fun k => 3 - ["I", "L"].idxOf k.name) ∧
      (∀ d ∈ twiceBased.definitions, ∀ b ∈ d.interfaces ++ d.baseType.toList, ∀ l ∈ b.key?,
        ¬ l.IsInGeneric) ∧
      ((twiceBased.allInterfaces (.definition (.topLevel (some "N") "I" 2))).map
        (TypeSymbol.substitute ((twiceBased.typeParameters (.topLevel (some "N") "I" 2)).zip
          [.special "int", .special "int"]))).eraseDups =
        [.constructed (.topLevel (some "N") "L" 1) [.special "int"],
          .constructed (.topLevel (some "N") "R" 1) [.special "int"]] := by decide +kernel
  obtain ⟨hlayered, hbases, hlisted⟩ := hprogram
  have hgeneric : ∀ l, twiceBased.LeadsTo (.topLevel (some "N") "I" 2) l → ¬ l.IsInGeneric :=
    fun l hl => hl.of_forall (P := fun l => ¬ l.IsInGeneric) (by decide) hbases
  have hlevel : Substitution.IsTypeLevel [(secondParameter, .special "string")] := by
    intro e he
    obtain rfl := List.mem_singleton.mp he
    have hplain : ∀ n ∈ ["N", "I"], Scan.IsPlainName n.toList := by decide
    have hspace : Named "N" := Or.inl (hplain "N" (by simp))
    have hname : Named "I" := Or.inl (hplain "I" (by simp))
    exact ⟨.topLevel (some "N") "I" 2, ⟨fun s hs => Option.mem_some.mp hs ▸ hspace.dotted, hname⟩,
      rfl⟩
  have hempty : Substitution.IsTypeLevel [] := fun e he => absurd he List.not_mem_nil
  have hbound : twiceBased.IsBound := isBound_boundSource _
  refine ⟨?_, (hbound.substitute_constructed hgeneric rfl hlevel).1.2.2⟩
  rw [(hbound.substitute_constructed hgeneric rfl hempty).2 (hlayered.not_isCyclic _)
    (hlayered.not_namesParameter _), hlisted]

/-- An interface that is based on its type parameter. -/
def parameterBased : Program := boundSource
  "namespace N \x7b interface K \x7b \x7d interface J : K \x7b \x7d interface I<T> : T \x7b \x7d \x7d"

/-- **A type parameter in a base list**: the interfaces of the type that is put there are listed
too, though no base list leads to them. -/
theorem allInterfaces_of_parameter_base :
    parameterBased.IsBound ∧
    (∀ l, parameterBased.LeadsTo (.topLevel (some "N") "I" 1) l → ¬ l.IsInGeneric) ∧
    ¬ parameterBased.IsCyclic (.topLevel (some "N") "I" 1) ∧
    parameterBased.allInterfaces (.constructed (.topLevel (some "N") "I" 1)
      [.definition (.topLevel (some "N") "J" 0)]) ≠
      ((parameterBased.allInterfaces (.definition (.topLevel (some "N") "I" 1))).map
        (TypeSymbol.substitute ((parameterBased.typeParameters (.topLevel (some "N") "I" 1)).zip
          [.definition (.topLevel (some "N") "J" 0)]))).eraseDups := by
  have hprogram : (∀ d ∈ parameterBased.definitions, ∀ b ∈ d.interfaces ++ d.baseType.toList,
        ∀ k ∈ b.key?, ["K", "J"].idxOf k.name < ["K", "J"].idxOf d.key.name ∧ ¬ k.IsInGeneric) ∧
      parameterBased.allInterfaces (.constructed (.topLevel (some "N") "I" 1)
        [.definition (.topLevel (some "N") "J" 0)]) ≠
      ((parameterBased.allInterfaces (.definition (.topLevel (some "N") "I" 1))).map
        (TypeSymbol.substitute ((parameterBased.typeParameters (.topLevel (some "N") "I" 1)).zip
          [.definition (.topLevel (some "N") "J" 0)]))).eraseDups := by decide +kernel
  obtain ⟨hbases, hlisted⟩ := hprogram
  refine ⟨isBound_boundSource _, fun l hl => ?_,
    Program.not_isCyclic_of_rank (fun d hd b hb k hk => (hbases d hd b hb k hk).1) _, hlisted⟩
  exact hl.of_forall (P := fun l => ¬ l.IsInGeneric) (by decide)
    fun d hd b hb k hk => (hbases d hd b hb k hk).2

end Example

end Facade
