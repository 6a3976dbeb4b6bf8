/-!
# Type syntax

Types as they are written in a source.

* `TypeSyntax`, `NamePart`: written types and the parts of their names;
* `TypeSyntax.text`: the text of a written type, in its one normal spacing.
-/

namespace Facade

mutual

/-- A type as it is written. -/
inductive TypeSyntax where
  /-- A type named by a word of the language. -/
  | predefined (keyword : String)
  /-- A dotted name, perhaps from the global namespace; it has at least one part. -/
  | named (isGlobal : Bool) (parts : List NamePart)
  /-- An array; a rank of two or more has several dimensions. -/
  | array (element : TypeSyntax) (rank : Nat)
  | nullable (element : TypeSyntax)
  | pointer (element : TypeSyntax)
  /-- A tuple, whose elements may have names. -/
  | tuple (elements : List (TypeSyntax × Option String))

/-- One part of a dotted name, with its type arguments. -/
inductive NamePart where
  | mk (name : String) (arguments : List TypeSyntax)

end

namespace NamePart

/-- The name of the part. -/
def name : NamePart → String
  | mk n _ => n

/-- The type arguments of the part. -/
def arguments : NamePart → List TypeSyntax
  | mk _ as => as

/-- The number of type arguments. -/
def arity (p : NamePart) : Nat := p.arguments.length

end NamePart

instance : Inhabited TypeSyntax := ⟨.predefined "void"⟩

instance : Inhabited NamePart := ⟨.mk "" []⟩

/-! ## Equality -/

mutual

/-- Decides whether two written types are the same. -/
def TypeSyntax.decEq : (a b : TypeSyntax) → Decidable (a = b)
  | .predefined k, .predefined k' => decidable_of_iff (k = k') (by simp)
  | .named g ps, .named g' ps' =>
    match NamePart.decEqList ps ps' with
    | isTrue h => decidable_of_iff (g = g') (by simp [h])
    | isFalse h => isFalse (by simp [h])
  | .array e r, .array e' r' =>
    match TypeSyntax.decEq e e' with
    | isTrue h => decidable_of_iff (r = r') (by simp [h])
    | isFalse h => isFalse (by simp [h])
  | .nullable e, .nullable e' =>
    match TypeSyntax.decEq e e' with
    | isTrue h => isTrue (by rw [h])
    | isFalse h => isFalse (by simp [h])
  | .pointer e, .pointer e' =>
    match TypeSyntax.decEq e e' with
    | isTrue h => isTrue (by rw [h])
    | isFalse h => isFalse (by simp [h])
  | .tuple es, .tuple es' =>
    match TypeSyntax.decEqElements es es' with
    | isTrue h => isTrue (by rw [h])
    | isFalse h => isFalse (by simp [h])
  | .predefined _, .named .. | .predefined _, .array .. | .predefined _, .nullable _
  | .predefined _, .pointer _ | .predefined _, .tuple _ | .named .., .predefined _
  | .named .., .array .. | .named .., .nullable _ | .named .., .pointer _ | .named .., .tuple _
  | .array .., .predefined _ | .array .., .named .. | .array .., .nullable _
  | .array .., .pointer _ | .array .., .tuple _ | .nullable _, .predefined _
  | .nullable _, .named .. | .nullable _, .array .. | .nullable _, .pointer _
  | .nullable _, .tuple _ | .pointer _, .predefined _ | .pointer _, .named ..
  | .pointer _, .array .. | .pointer _, .nullable _ | .pointer _, .tuple _
  | .tuple _, .predefined _ | .tuple _, .named .. | .tuple _, .array .. | .tuple _, .nullable _
  | .tuple _, .pointer _ => isFalse (by simp)

/-- Decides whether two parts are the same. -/
def NamePart.decEq : (a b : NamePart) → Decidable (a = b)
  | .mk n as, .mk n' as' =>
    match TypeSyntax.decEqList as as' with
    | isTrue h => decidable_of_iff (n = n') (by simp [h])
    | isFalse h => isFalse (by simp [h])

/-- Decides whether two lists of written types are the same. -/
def TypeSyntax.decEqList : (as bs : List TypeSyntax) → Decidable (as = bs)
  | [], [] => isTrue rfl
  | [], _ :: _ => isFalse (by simp)
  | _ :: _, [] => isFalse (by simp)
  | a :: as, b :: bs =>
    match TypeSyntax.decEq a b, TypeSyntax.decEqList as bs with
    | isTrue h, isTrue h' => isTrue (by rw [h, h'])
    | isFalse h, _ => isFalse (by simp [h])
    | _, isFalse h => isFalse (by simp [h])

/-- Decides whether two lists of parts are the same. -/
def NamePart.decEqList : (as bs : List NamePart) → Decidable (as = bs)
  | [], [] => isTrue rfl
  | [], _ :: _ => isFalse (by simp)
  | _ :: _, [] => isFalse (by simp)
  | a :: as, b :: bs =>
    match NamePart.decEq a b, NamePart.decEqList as bs with
    | isTrue h, isTrue h' => isTrue (by rw [h, h'])
    | isFalse h, _ => isFalse (by simp [h])
    | _, isFalse h => isFalse (by simp [h])

/-- Decides whether two lists of tuple elements are the same. -/
def TypeSyntax.decEqElements :
    (as bs : List (TypeSyntax × Option String)) → Decidable (as = bs)
  | [], [] => isTrue rfl
  | [], _ :: _ => isFalse (by simp)
  | _ :: _, [] => isFalse (by simp)
  | (a, n) :: as, (b, m) :: bs =>
    match TypeSyntax.decEq a b, TypeSyntax.decEqElements as bs with
    | isTrue h, isTrue h' => decidable_of_iff (n = m) (by simp [h, h'])
    | isFalse h, _ => isFalse (by simp [h])
    | _, isFalse h => isFalse (by simp [h])

end

instance : DecidableEq TypeSyntax := TypeSyntax.decEq

instance : DecidableEq NamePart := NamePart.decEq

/-! ## Text -/

/-- The brackets of an array of this rank. -/
def arrayBrackets (rank : Nat) : String :=
  "[" ++ String.ofList (List.replicate (rank - 1) ',') ++ "]"

/-- The text of a tuple element, with its name if that is not empty. -/
def withElementName (type : String) (name : Option String) : String :=
  match name with
  | some n => if n.isEmpty then type else type ++ " " ++ n
  | none => type

/-- The items of a list, divided by commas. -/
def commaSeparated (items : List String) : String := ", ".intercalate items

/-- A name with its type arguments between angle brackets, or alone if it has none. -/
def withArguments (name : String) (arguments : List String) : String :=
  if arguments.isEmpty then name else name ++ "<" ++ commaSeparated arguments ++ ">"

mutual

/-- The text of a written type. -/
def TypeSyntax.text : TypeSyntax → String
  | .predefined keyword => keyword
  | .named isGlobal parts =>
    (if isGlobal then "global::" else "") ++ ".".intercalate (NamePart.texts parts)
  | .array element rank => element.text ++ arrayBrackets rank
  | .nullable element => element.text ++ "?"
  | .pointer element => element.text ++ "*"
  | .tuple elements => "(" ++ commaSeparated (TypeSyntax.elementTexts elements) ++ ")"

/-- The text of a part of a name. -/
def NamePart.text : NamePart → String
  | .mk name arguments => withArguments name (TypeSyntax.texts arguments)

/-- The texts of written types. -/
def TypeSyntax.texts : List TypeSyntax → List String
  | [] => []
  | t :: ts => t.text :: TypeSyntax.texts ts

/-- The texts of the parts of a name. -/
def NamePart.texts : List NamePart → List String
  | [] => []
  | p :: ps => p.text :: NamePart.texts ps

/-- The texts of tuple elements. -/
def TypeSyntax.elementTexts : List (TypeSyntax × Option String) → List String
  | [] => []
  | (t, name) :: es => withElementName t.text name :: TypeSyntax.elementTexts es

end

end Facade
