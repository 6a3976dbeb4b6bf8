import Facade.Syntax.TypeSyntax
import Facade.Text.Position

/-!
# Declarations

What a source declares: namespaces, types and members, with the using directives around them. Opaque
regions are kept as text.

* `UsingDirective`, `UsingDirective.text`: imports and aliases;
* `MethodDeclaration`, `OtherMember`, `TypeHead`, `Member`, `TypeDeclaration`: types and members;
* `NamespaceMember`, `CompilationUnit`: namespaces and whole sources.
-/

namespace Facade

/-- What a using directive brings into scope. -/
inductive UsingTarget where
  /-- The types of a namespace. -/
  | space (name : String)
  /-- The members of a type. -/
  | membersOf (name : String)
  /-- Another name for a type. -/
  | alias (name : String) (target : TypeSyntax)
deriving DecidableEq

/-- A using directive. -/
structure UsingDirective where
  target : UsingTarget
  isGlobal : Bool
  span : Option Span
deriving DecidableEq

namespace UsingDirective

/-- The namespace or type that the directive names. -/
def name (u : UsingDirective) : String :=
  match u.target with
  | .space n | .membersOf n => n
  | .alias _ t => t.text

/-- The directive as it is written, in its one normal spacing. -/
def text (u : UsingDirective) : String :=
  (if u.isGlobal then "global using " else "using ") ++
    match u.target with
    | .space n => n ++ ";"
    | .membersOf n => "static " ++ n ++ ";"
    | .alias n t => n ++ " = " ++ t.text ++ ";"

end UsingDirective

/-- Whether a type parameter may vary. -/
inductive Variance where
  | contravariant | covariant
deriving Repr, DecidableEq

/-- The word for a variance. -/
def Variance.keyword : Variance → String
  | contravariant => "in"
  | covariant => "out"

/-- A type parameter of a type or method. -/
structure TypeParameterSyntax where
  name : String
  variance : Option Variance
  span : Option Span
deriving DecidableEq

/-- A constraint on a type parameter. -/
inductive ConstraintSyntax where
  /-- One of the constraints that name no type, such as `class` or `new()`. -/
  | special (text : String)
  | type (t : TypeSyntax)
deriving DecidableEq

/-- The text of a constraint. -/
def ConstraintSyntax.text : ConstraintSyntax → String
  | special t => t
  | type t => t.text

/-- The constraints on one type parameter. -/
structure ConstraintClause where
  typeParameter : String
  constraints : List ConstraintSyntax
  span : Option Span
deriving DecidableEq

/-- A parameter of a method or delegate. The text of a default value is kept as it is written. -/
structure ParameterSyntax where
  name : String
  type : TypeSyntax
  modifiers : List String
  defaultText : Option String
  span : Option Span
  nameSpan : Option Span
deriving DecidableEq

/-- A method. -/
structure MethodDeclaration where
  name : String
  returnType : TypeSyntax
  parameters : List ParameterSyntax
  typeParameters : List TypeParameterSyntax
  constraints : List ConstraintClause
  hasBody : Bool
  modifiers : List String
  attributes : List String
  span : Option Span
  nameSpan : Option Span
deriving DecidableEq

/-- The members that are neither methods nor types. -/
inductive MemberKind where
  | constructor | destructor | property | indexer | field | operator | conversion
deriving Repr, DecidableEq

/-- The word for a kind of member. -/
def MemberKind.title : MemberKind → String
  | constructor => "constructor"
  | destructor => "destructor"
  | property => "property"
  | indexer => "indexer"
  | field => "field"
  | operator => "operator"
  | conversion => "conversion"

/-- A member that is neither a method nor a type. -/
structure OtherMember where
  kind : MemberKind
  name : String
  modifiers : List String
  attributes : List String
  span : Option Span
deriving DecidableEq

/-- The forms of type declarations. -/
inductive TypeForm where
  | classForm
  | structForm
  | interfaceForm
  | recordForm (isStruct : Bool)
  | enumForm
  | delegateForm (returnType : TypeSyntax) (parameters : List ParameterSyntax)
deriving DecidableEq

/-- The words that declare a type of this form. -/
def TypeForm.keyword : TypeForm → String
  | classForm => "class"
  | structForm => "struct"
  | interfaceForm => "interface"
  | recordForm false => "record"
  | recordForm true => "record struct"
  | enumForm => "enum"
  | delegateForm _ _ => "delegate"

/-- A type declaration but for its members. -/
structure TypeHead where
  form : TypeForm
  name : String
  typeParameters : List TypeParameterSyntax
  baseTypes : List TypeSyntax
  constraints : List ConstraintClause
  modifiers : List String
  attributes : List String
  span : Option Span
  nameSpan : Option Span
deriving DecidableEq

namespace TypeHead

/-- The number of type parameters. -/
def arity (h : TypeHead) : Nat := h.typeParameters.length

/-- Whether the declaration may be one of several parts. -/
def isPartial (h : TypeHead) : Bool := h.modifiers.contains "partial"

/-- The name with the names of the type parameters. -/
def heading (h : TypeHead) : String :=
  withArguments h.name (h.typeParameters.map TypeParameterSyntax.name)

/-- Classes, structs and records can host a facade. -/
def canHost (h : TypeHead) : Bool :=
  match h.form with
  | .classForm | .structForm | .recordForm _ => true
  | _ => false

end TypeHead

/-- A member of a type. -/
inductive Member where
  | type (head : TypeHead) (members : List Member)
  | method (m : MethodDeclaration)
  | other (m : OtherMember)

/-- A type declaration. -/
structure TypeDeclaration where
  head : TypeHead
  members : List Member

/-- A namespace declaration but for its members. A file-scoped one holds the rest of its source. -/
structure NamespaceHead where
  name : String
  isFileScoped : Bool
  usings : List UsingDirective
  span : Option Span
deriving DecidableEq

/-- A member of a namespace. -/
inductive NamespaceMember where
  | space (head : NamespaceHead) (members : List NamespaceMember)
  | type (d : TypeDeclaration)

/-- What one source declares; `path` names the source. -/
structure CompilationUnit where
  path : String
  usings : List UsingDirective
  members : List NamespaceMember
  span : Option Span

instance : Inhabited CompilationUnit := ⟨⟨"", [], [], none⟩⟩

end Facade
