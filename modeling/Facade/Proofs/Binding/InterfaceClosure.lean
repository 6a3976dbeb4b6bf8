import Facade.Proofs.Binding.TypeLevel

/-!
# All interfaces of a type

What the closure under interfaces is, of any type of any program, and when nothing is missing in it. A
base list that names a type parameter leads on to the type that is put in its place, which no declaration
tells of: a definition can be met again below itself though none is an ancestor of itself, and what lies
below it then is left out.

* **`Program.allInterfaces_spec`**: the closure is right and always ends;
* `Program.not_mem_allInterfaces_of_fed`: a type parameter in a base list can hide interfaces.
-/

namespace Facade.Program

/-- **The closure is right and always ends**, whatever the declarations are: the search that knows no
depth ends, and the closure is what it met; no type is listed twice; each lies below `t` and is not `t`
with other type arguments. Where no type from `t` on leads to another one of its own definition, every
type below `t` is listed, in pre-order by first visits. The declarations tell of it if no definition that
base lists lead to from that of `t` is an ancestor of itself, and none of these base lists names a type
parameter. -/
theorem allInterfaces_spec (p : Program) (t : TypeSymbol) :
    (∃ out, p.TypeSearch [] [] t out ∧
      p.allInterfaces t = out.filter fun s => s.key? != t.key?) ∧
    (p.allInterfaces t).Nodup ∧
    (∀ s ∈ p.allInterfaces t, p.Reaches t s ∧ unconstructed s ≠ unconstructed t) ∧
    (p.Acyclic t →
      (∀ s, p.Reaches t s → s ∈ p.allInterfaces t) ∧
      ∃ walk, p.TypeWalk t walk ∧ p.allInterfaces t = walk.eraseDups) ∧
    ((∀ k ∈ t.key?, ¬ p.IsCyclic k ∧ ¬ p.NamesParameter k) → p.Acyclic t) := by
  have hsearch := p.typeSearch_searchDepth t
  refine ⟨⟨_, hsearch, rfl⟩, (hsearch.nodup List.nodup_nil).filter _, fun s hs => ?_,
    fun hacyclic => ?_, fun hdeclared => ?_⟩
  · obtain ⟨hs, hkey⟩ := List.mem_filter.mp hs
    have ht : t.key?.isSome := by
      cases ht : t.key? with
      | none => rw [visitType_of_no_key ht] at hs; exact absurd hs List.not_mem_nil
      | some k => rfl
    obtain hs | hs := hsearch.reaches hs
    · exact absurd hs List.not_mem_nil
    · exact ⟨hs, fun heq => bne_iff_ne.mp hkey (key?_of_unconstructed_eq heq ht)⟩
  · obtain ⟨walk, hwalk⟩ := exists_typeWalk hacyclic
    have hclosure := allInterfaces_eq_eraseDups hacyclic hwalk
    refine ⟨fun s hs => ?_, walk, hwalk, hclosure⟩
    rw [hclosure]
    exact List.mem_eraseDups.mpr (hwalk.mem_of_reaches hs)
  · cases hkey : t.key? with
    | none => exact acyclic_of_no_key hkey
    | some k => exact acyclic_of_definition (hdeclared k hkey).2 (hdeclared k hkey).1 hkey

section Example

/-- A generic class with a base class, which have an interface in common. -/
def sharedBases : Program := boundSource
  "namespace N \x7b interface Top \x7b \x7d interface L<T> : Top \x7b \x7d interface R : L<int>, Top \x7b \x7d
  class B : R \x7b \x7d class D<T> : B, L<T> \x7b \x7d \x7d"

/-- The class with a type argument. -/
def sharedBasesRoot : TypeSymbol := .constructed (.topLevel (some "N") "D" 1) [.special "string"]

/-- All four interfaces are listed, `Top` where it is first met. -/
theorem allInterfaces_spec_shared :
    (sharedBases.allInterfaces sharedBasesRoot).map sharedBases.display =
      ["N.L<string>", "N.Top", "N.R", "N.L<int>"] ∧
    ∃ walk, sharedBases.TypeWalk sharedBasesRoot walk ∧
      sharedBases.allInterfaces sharedBasesRoot = walk.eraseDups := by
  have hprogram : (sharedBases.Layered fun k => 4 - ["D", "B", "R", "L"].idxOf k.name) ∧
      (sharedBases.allInterfaces sharedBasesRoot).map sharedBases.display =
        ["N.L<string>", "N.Top", "N.R", "N.L<int>"] := by decide +kernel
  obtain ⟨hlayered, hlisted⟩ := hprogram
  have hspec := sharedBases.allInterfaces_spec sharedBasesRoot
  have hacyclic := hspec.2.2.2.2 fun k _ =>
    ⟨hlayered.not_isCyclic k, hlayered.not_namesParameter k⟩
  exact ⟨hlisted, (hspec.2.2.2.1 hacyclic).2⟩

/-- A class with an interface that is based on its type argument, which is based on its own. -/
def fed : Program := boundSource
  "namespace N \x7b interface K \x7b \x7d interface J : K \x7b \x7d interface I<T> : T \x7b \x7d
  class C : I<I<J>> \x7b \x7d \x7d"

/-- The interface with a type argument. -/
def fedWith (a : TypeSymbol) : TypeSymbol := .constructed (.topLevel (some "N") "I" 1) [a]

/-- **Interfaces can be missing though no definition is an ancestor of itself**: what the type argument
of a type argument is based on lies below the class and is not listed. -/
theorem not_mem_allInterfaces_of_fed : ¬ ∀ p : Program, p.IsBound → ∀ t : TypeSymbol,
    (∀ k ∈ t.key?, ¬ p.IsCyclic k) → ∀ s, p.Reaches t s → s ∈ p.allInterfaces t := by
  intro h
  have hprogram : (∀ d ∈ fed.definitions, ∀ b ∈ d.interfaces ++ d.baseType.toList, ∀ k ∈ b.key?,
        ["K", "J", "I", "C"].idxOf k.name < ["K", "J", "I", "C"].idxOf d.key.name) ∧
      fedWith (fedWith (.definition (.topLevel (some "N") "J" 0))) ∈
        fed.interfaces (.definition (.topLevel (some "N") "C" 0)) ∧
      fedWith (.definition (.topLevel (some "N") "J" 0)) ∈
        fed.interfaces (fedWith (fedWith (.definition (.topLevel (some "N") "J" 0)))) ∧
      .definition (.topLevel (some "N") "J" 0) ∈
        fed.interfaces (fedWith (.definition (.topLevel (some "N") "J" 0))) ∧
      .definition (.topLevel (some "N") "J" 0) ∉
        fed.allInterfaces (.definition (.topLevel (some "N") "C" 0)) := by decide +kernel
  obtain ⟨hranks, htwice, honce, hargument, hmissing⟩ := hprogram
  have hreaches : fed.Reaches (.definition (.topLevel (some "N") "C" 0))
      (.definition (.topLevel (some "N") "J" 0)) :=
    ⟨_, .refl, .head htwice (.head honce (.single hargument))⟩
  exact hmissing (h fed (isBound_boundSource _) _ (fun k _ => not_isCyclic_of_rank hranks k) _ hreaches)

end Example

end Facade.Program
