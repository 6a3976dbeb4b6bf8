import Facade.Syntax.Declaration

/-!
# Type symbols

What a written type means in a program. A symbol is a value: two of them are the same type exactly if
they are equal.

* `DefinitionKey`, `DefinitionKey.metadataName`: the identity of a declared type;
* `TypeParameter`: the type parameters of types and methods;
* `TypeSymbol`: the types;
* `Substitution`, `TypeSymbol.substitute`: types in the place of type parameters.
-/

namespace Facade

/-- A name in a namespace; the global namespace adds nothing. -/
def qualify (space : Option String) (name : String) : String :=
  match space with
  | some s => if s.isEmpty then name else s ++ "." ++ name
  | none => name

/-- The identity of a declared type: what contains it, its name and the number of its type
parameters. All parts of a partial type have one identity. -/
inductive DefinitionKey where
  | topLevel (space : Option String) (name : String) (arity : Nat)
  | nested (outer : DefinitionKey) (name : String) (arity : Nat)
deriving Repr, DecidableEq, Inhabited

namespace DefinitionKey

/-- The simple name. -/
def name : DefinitionKey → String
  | topLevel _ n _ | nested _ n _ => n

/-- The number of type parameters. -/
def arity : DefinitionKey → Nat
  | topLevel _ _ a | nested _ _ a => a

/-- The containing type. -/
def outer? : DefinitionKey → Option DefinitionKey
  | topLevel .. => none
  | nested o _ _ => some o

/-- The type and those that contain it, the innermost first. -/
def withOuter : DefinitionKey → List DefinitionKey
  | topLevel s n a => [topLevel s n a]
  | nested o n a => nested o n a :: o.withOuter

/-- The namespace around the type and all types that contain it. -/
def space : DefinitionKey → Option String
  | topLevel s _ _ => s
  | nested o _ _ => o.space

/-- The names and numbers of type parameters of the containing types and of the type itself, the
outermost first. -/
def chain : DefinitionKey → List (String × Nat)
  | topLevel _ n a => [(n, a)]
  | nested o n a => o.chain ++ [(n, a)]

/-- A name with the number of its type parameters, if there are any. -/
def mark (name : String) (arity : Nat) : String :=
  if arity = 0 then name else name ++ "`" ++ toString arity

/-- The name that identifies the type in a program. -/
def metadataName : DefinitionKey → String
  | topLevel s n a => qualify s (mark n a)
  | nested o n a => o.metadataName ++ "+" ++ mark n a

/-- The name under which the type owns its type parameters. -/
def ownerName : DefinitionKey → String
  | topLevel s n _ => qualify s n
  | nested o n _ => o.metadataName ++ "+" ++ n

end DefinitionKey

/-- A type parameter: its name, its number, the name of the type or method it belongs to, and how it
may vary. -/
structure TypeParameter where
  name : String
  ordinal : Nat
  owner : String
  variance : Option Variance
deriving Repr, DecidableEq

/-- The type parameters that `owner` declares. -/
def TypeParameter.ofSyntax (owner : String) (ps : List TypeParameterSyntax) :
    List TypeParameter :=
  ps.mapIdx fun i p => ⟨p.name, i, owner, p.variance⟩

/-- A type of a program. -/
inductive TypeSymbol where
  /-- A type named by a word of the language. -/
  | special (keyword : String)
  | parameter (p : TypeParameter)
  /-- A type that the program does not declare, as it is written. -/
  | unresolved (name : String) (arguments : List TypeSymbol)
  | array (element : TypeSymbol) (rank : Nat)
  | nullable (element : TypeSymbol)
  | pointer (element : TypeSymbol)
  | tuple (elements : List (TypeSymbol × Option String))
  /-- A declared type itself. -/
  | definition (key : DefinitionKey)
  /-- A declared type with type arguments. -/
  | constructed (key : DefinitionKey) (arguments : List TypeSymbol)

instance : Inhabited TypeSymbol := ⟨.special "void"⟩

namespace TypeSymbol

mutual

/-- Decides whether two symbols are the same type. -/
def decEq : (a b : TypeSymbol) → Decidable (a = b)
  | special k, b =>
    match b with
    | special k' => decidable_of_iff (k = k') (by simp)
    | parameter _ | unresolved .. | array .. | nullable _ | pointer _ | tuple _ | definition _
    | constructed .. => isFalse (by simp)
  | parameter p, b =>
    match b with
    | parameter p' => decidable_of_iff (p = p') (by simp)
    | special _ | unresolved .. | array .. | nullable _ | pointer _ | tuple _ | definition _
    | constructed .. => isFalse (by simp)
  | unresolved n as, b =>
    match b with
    | unresolved n' as' =>
      match decEqList as as' with
      | isTrue h => decidable_of_iff (n = n') (by simp [h])
      | isFalse h => isFalse (by simp [h])
    | special _ | parameter _ | array .. | nullable _ | pointer _ | tuple _ | definition _
    | constructed .. => isFalse (by simp)
  | array e r, b =>
    match b with
    | array e' r' =>
      match decEq e e' with
      | isTrue h => decidable_of_iff (r = r') (by simp [h])
      | isFalse h => isFalse (by simp [h])
    | special _ | parameter _ | unresolved .. | nullable _ | pointer _ | tuple _ | definition _
    | constructed .. => isFalse (by simp)
  | nullable e, b =>
    match b with
    | nullable e' =>
      match decEq e e' with
      | isTrue h => isTrue (by rw [h])
      | isFalse h => isFalse (by simp [h])
    | special _ | parameter _ | unresolved .. | array .. | pointer _ | tuple _ | definition _
    | constructed .. => isFalse (by simp)
  | pointer e, b =>
    match b with
    | pointer e' =>
      match decEq e e' with
      | isTrue h => isTrue (by rw [h])
      | isFalse h => isFalse (by simp [h])
    | special _ | parameter _ | unresolved .. | array .. | nullable _ | tuple _ | definition _
    | constructed .. => isFalse (by simp)
  | tuple es, b =>
    match b with
    | tuple es' =>
      match decEqElements es es' with
      | isTrue h => isTrue (by rw [h])
      | isFalse h => isFalse (by simp [h])
    | special _ | parameter _ | unresolved .. | array .. | nullable _ | pointer _ | definition _
    | constructed .. => isFalse (by simp)
  | definition k, b =>
    match b with
    | definition k' => decidable_of_iff (k = k') (by simp)
    | special _ | parameter _ | unresolved .. | array .. | nullable _ | pointer _ | tuple _
    | constructed .. => isFalse (by simp)
  | constructed k as, b =>
    match b with
    | constructed k' as' =>
      match decEqList as as' with
      | isTrue h => decidable_of_iff (k = k') (by simp [h])
      | isFalse h => isFalse (by simp [h])
    | special _ | parameter _ | unresolved .. | array .. | nullable _ | pointer _ | tuple _
    | definition _ => isFalse (by simp)

/-- Decides whether two lists hold the same types. -/
def decEqList : (as bs : List TypeSymbol) → Decidable (as = bs)
  | [], [] => isTrue rfl
  | [], _ :: _ => isFalse (by simp)
  | _ :: _, [] => isFalse (by simp)
  | a :: as, b :: bs =>
    match decEq a b, decEqList as bs with
    | isTrue h, isTrue h' => isTrue (by rw [h, h'])
    | isFalse h, _ => isFalse (by simp [h])
    | _, isFalse h => isFalse (by simp [h])

/-- Decides whether two lists hold the same tuple elements. -/
def decEqElements : (as bs : List (TypeSymbol × Option String)) → Decidable (as = bs)
  | [], [] => isTrue rfl
  | [], _ :: _ => isFalse (by simp)
  | _ :: _, [] => isFalse (by simp)
  | (a, n) :: as, (b, m) :: bs =>
    match decEq a b, decEqElements as bs with
    | isTrue h, isTrue h' => decidable_of_iff (n = m) (by simp [h, h'])
    | isFalse h, _ => isFalse (by simp [h])
    | _, isFalse h => isFalse (by simp [h])

end

instance : DecidableEq TypeSymbol := decEq

/-- The declared type behind a symbol, without type arguments. -/
def key? : TypeSymbol → Option DefinitionKey
  | definition k | constructed k _ => some k
  | _ => none

/-- The type is written `void`. -/
def isVoid : TypeSymbol → Bool
  | special k => k == "void"
  | _ => false

end TypeSymbol

/-- A declared type with type arguments; with none it is the declared type itself. -/
def DefinitionKey.construct (k : DefinitionKey) (arguments : List TypeSymbol) : TypeSymbol :=
  if arguments.isEmpty then .definition k else .constructed k arguments

/-! ## Substitution -/

/-- Types for type parameters; what is not listed stays. -/
abbrev Substitution := List (TypeParameter × TypeSymbol)

/-- The type for a type parameter. -/
def Substitution.apply (m : Substitution) (p : TypeParameter) : TypeSymbol :=
  match m.find? fun e => e.1 == p with
  | some e => e.2
  | none => .parameter p

namespace TypeSymbol

mutual

/-- The type with all its type parameters replaced at once. -/
def substitute (m : Substitution) : TypeSymbol → TypeSymbol
  | special k => special k
  | parameter p => m.apply p
  | unresolved n as => unresolved n (substituteAll m as)
  | array e r => array (substitute m e) r
  | nullable e => nullable (substitute m e)
  | pointer e => pointer (substitute m e)
  | tuple es => tuple (substituteElements m es)
  | definition k => definition k
  | constructed k as => constructed k (substituteAll m as)

/-- Types with all their type parameters replaced. -/
def substituteAll (m : Substitution) : List TypeSymbol → List TypeSymbol
  | [] => []
  | t :: ts => substitute m t :: substituteAll m ts

/-- Tuple elements with all their type parameters replaced. -/
def substituteElements (m : Substitution) :
    List (TypeSymbol × Option String) → List (TypeSymbol × Option String)
  | [] => []
  | (t, n) :: es => (substitute m t, n) :: substituteElements m es

end

end TypeSymbol

end Facade
