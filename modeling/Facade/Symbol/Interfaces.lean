import Facade.Symbol.Program

/-!
# Transitive interfaces

All interfaces of a type: those its declarations name, each followed by those it is based on, and then
those of its base class. Each interface is listed once, where it is first met. Declarations may be
cyclic, and may grow without bound by nesting type arguments; a definition is not entered again while
it is being expanded, which ends both.

* `Program.visitInterface`, `Program.visitType`: the steps of the search;
* `Program.allInterfaces`: the interfaces of a type.
-/

namespace Facade.Program

/-- Adds an interface and, in order, those it is based on, unless it has been met. `active` are the
definitions being expanded; `depth` bounds their number. -/
def visitInterface (p : Program) : Nat → List DefinitionKey → List TypeSymbol → TypeSymbol →
    List TypeSymbol
  | 0, _, found, _ => found
  | depth + 1, active, found, t =>
    if t ∈ found then found
    else
      match t.key? with
      | some k =>
        if k ∈ active then found ++ [t]
        else (p.interfaces t).foldl (visitInterface p depth (k :: active)) (found ++ [t])
      | none => found ++ [t]

/-- Adds the interfaces of a type, and then those of its base class. -/
def visitType (p : Program) : Nat → List DefinitionKey → List TypeSymbol → TypeSymbol →
    List TypeSymbol
  | 0, _, found, _ => found
  | depth + 1, active, found, t =>
    match t.key? with
    | some k =>
      if k ∈ active then found
      else
        let found := (p.interfaces t).foldl (visitInterface p (depth + 1) (k :: active)) found
        match p.baseType? t with
        | some b => visitType p depth (k :: active) found b
        | none => found
    | none => found

/-- More than the number of definitions that can be active at once. -/
def searchDepth (p : Program) : Nat := p.definitions.length + 2

/-- All interfaces of a type, each once, without those that are the type itself with other type
arguments. -/
def allInterfaces (p : Program) (t : TypeSymbol) : List TypeSymbol :=
  (visitType p p.searchDepth [] [] t).filter fun i => i.key? != t.key?

end Facade.Program
