import Facade.Symbol.Accessibility
import Facade.Symbol.TypeSymbol
import Facade.Syntax.Site

/-!
# Programs

The declared types of a program with what is known of them, and the facts about type symbols that
depend on them.

* `MethodSymbol`, `ParameterSymbol`, `ConstraintClauseSymbol`: methods;
* `Definition`, `Program`: declared types, in the order of their first declarations;
* `Program.display`: the text of a type; `Program.kind`: what kind of type it is;
* `Program.interfaces`, `Program.baseType?`, `Program.methods`: what a type declares, with the type
  arguments put in.
-/

namespace Facade

/-- The kinds of types. -/
inductive TypeKind where
  | classKind | structKind | interfaceKind | enumKind | delegateKind | typeParameter | array | tuple
  | pointer | error
deriving Repr, DecidableEq, Inhabited

/-- The name of a kind. -/
def TypeKind.title : TypeKind → String
  | classKind => "class"
  | structKind => "struct"
  | interfaceKind => "interface"
  | enumKind => "enum"
  | delegateKind => "delegate"
  | typeParameter => "type parameter"
  | array => "array"
  | tuple => "tuple"
  | pointer => "pointer"
  | error => "error"

/-- The kind of type that a declaration of this form makes. -/
def TypeForm.kind : TypeForm → TypeKind
  | classForm | recordForm false => .classKind
  | structForm | recordForm true => .structKind
  | interfaceForm => .interfaceKind
  | enumForm => .enumKind
  | delegateForm _ _ => .delegateKind

/-- The declaration is that of a record. -/
def TypeForm.isRecord : TypeForm → Bool
  | recordForm _ => true
  | _ => false

/-! ## Methods -/

/-- A constraint on a type parameter. -/
inductive ConstraintSymbol where
  | special (text : String)
  | type (t : TypeSymbol)
deriving DecidableEq

/-- The constraint with its type parameters replaced. -/
def ConstraintSymbol.substitute (m : Substitution) : ConstraintSymbol → ConstraintSymbol
  | special t => special t
  | type t => type (t.substitute m)

/-- The constraints on one type parameter. -/
structure ConstraintClauseSymbol where
  typeParameter : String
  constraints : List ConstraintSymbol
deriving DecidableEq

/-- The clause with the type parameters in its constraints replaced. -/
def ConstraintClauseSymbol.substitute (m : Substitution) (c : ConstraintClauseSymbol) :
    ConstraintClauseSymbol :=
  { c with constraints := c.constraints.map (ConstraintSymbol.substitute m) }

/-- A parameter of a method. -/
structure ParameterSymbol where
  name : String
  type : TypeSymbol
  modifiers : List String
  defaultText : Option String
deriving DecidableEq

/-- The parameter with the type parameters in its type replaced. -/
def ParameterSymbol.substitute (m : Substitution) (p : ParameterSymbol) : ParameterSymbol :=
  { p with type := p.type.substitute m }

/-- A method of a declared type. A method whose name has several parts implements that of an
interface explicitly. -/
structure MethodSymbol where
  name : String
  returnType : TypeSymbol
  parameters : List ParameterSymbol
  typeParameters : List TypeParameter
  constraintClauses : List ConstraintClauseSymbol
  isStatic : Bool
  accessibility : Accessibility
  isExplicit : Bool
  span : Option Span
deriving DecidableEq

/-- The method with the type parameters in its signature replaced. -/
def MethodSymbol.substitute (m : Substitution) (f : MethodSymbol) : MethodSymbol :=
  { f with
    returnType := f.returnType.substitute m
    parameters := f.parameters.map (ParameterSymbol.substitute m)
    constraintClauses := f.constraintClauses.map (ConstraintClauseSymbol.substitute m) }

/-! ## Definitions -/

/-- A declared type: all its declarations, and what they say together. -/
structure Definition where
  key : DefinitionKey
  kind : TypeKind
  isRecord : Bool
  accessibility : Accessibility
  typeParameters : List TypeParameter
  sites : List TypeSite
  baseType : Option TypeSymbol
  interfaces : List TypeSymbol
  methods : List MethodSymbol

namespace Definition

/-- Some declaration of the type is partial. -/
def isPartial (d : Definition) : Bool := d.sites.any fun s => s.head.isPartial

/-- The using directives around the declarations of the type that hold for one source only, each
text once, those of inner namespaces before those further out. -/
def imports (d : Definition) : List String :=
  let directives := d.sites.flatMap fun s =>
    (s.site.namespaces.reverse.flatMap NamespaceHead.usings) ++ s.site.unit.usings
  ((directives.filter fun u => !u.isGlobal).map UsingDirective.text).eraseDups

end Definition

/-- The declared types of a program, in the order of their first declarations. -/
structure Program where
  definitions : List Definition

namespace Program

/-- The program without types. -/
def empty : Program := ⟨[]⟩

instance : Inhabited Program := ⟨empty⟩

/-- The declared type with this identity. -/
def definition? (p : Program) (k : DefinitionKey) : Option Definition :=
  p.definitions.find? fun d => d.key == k

/-- The declared type behind a symbol. -/
def definitionOf? (p : Program) (t : TypeSymbol) : Option Definition := do
  p.definition? (← t.key?)

/-- The declared type with this metadata name. -/
def byMetadataName? (p : Program) (name : String) : Option Definition :=
  p.definitions.find? fun d => d.key.metadataName == name

/-- The types declared directly in a type. -/
def nestedTypes (p : Program) (k : DefinitionKey) : List Definition :=
  p.definitions.filter fun d => d.key.outer? == some k

/-- The type parameters of a declared type. -/
def typeParameters (p : Program) (k : DefinitionKey) : List TypeParameter :=
  match p.definition? k with
  | some d => d.typeParameters
  | none => []

/-! ## Text -/

/-- The name of a declared type without its own type parameters. -/
def qualifiedName (p : Program) : DefinitionKey → String
  | .topLevel s n _ => qualify s n
  | .nested o n _ =>
    withArguments (qualifiedName p o) ((p.typeParameters o).map TypeParameter.name) ++ "." ++ n

/-- The name of a declared type with its type parameters. -/
def definitionText (p : Program) (k : DefinitionKey) : String :=
  withArguments (p.qualifiedName k) ((p.typeParameters k).map TypeParameter.name)

mutual

/-- The text of a type. -/
def display (p : Program) : TypeSymbol → String
  | .special k => k
  | .parameter q => q.name
  | .unresolved n as => withArguments n (displayAll p as)
  | .array e r => display p e ++ arrayBrackets r
  | .nullable e => display p e ++ "?"
  | .pointer e => display p e ++ "*"
  | .tuple es => "(" ++ commaSeparated (displayElements p es) ++ ")"
  | .definition k => p.definitionText k
  | .constructed k as => p.qualifiedName k ++ "<" ++ commaSeparated (displayAll p as) ++ ">"

/-- The texts of types. -/
def displayAll (p : Program) : List TypeSymbol → List String
  | [] => []
  | t :: ts => display p t :: displayAll p ts

/-- The texts of tuple elements. -/
def displayElements (p : Program) : List (TypeSymbol × Option String) → List String
  | [] => []
  | (t, n) :: es => withElementName (display p t) n :: displayElements p es

end

/-- The text of a constraint. -/
def constraintText (p : Program) : ConstraintSymbol → String
  | .special t => t
  | .type t => p.display t

/-- The text of a constraint clause. -/
def clauseText (p : Program) (c : ConstraintClauseSymbol) : String :=
  "where " ++ c.typeParameter ++ " : " ++ commaSeparated (c.constraints.map p.constraintText)

/-! ## Facts about types -/

/-- The type behind a symbol without its type arguments. -/
def unconstructed (t : TypeSymbol) : TypeSymbol :=
  match t with
  | .constructed k _ => .definition k
  | t => t

/-- The type arguments of a type; a declared type itself has its type parameters. -/
def typeArguments (p : Program) : TypeSymbol → List TypeSymbol
  | .unresolved _ as => as
  | .definition k => (p.typeParameters k).map TypeSymbol.parameter
  | .constructed _ as => as
  | _ => []

/-- The kind of a type. A nullable type is of the kind of its element. -/
def kind (p : Program) : TypeSymbol → TypeKind
  | .special k => if k == "string" || k == "object" then .classKind else .structKind
  | .parameter _ => .typeParameter
  | .unresolved .. => .error
  | .array .. => .array
  | .nullable e => kind p e
  | .pointer _ => .pointer
  | .tuple _ => .tuple
  | .definition k | .constructed k _ =>
    match p.definition? k with
    | some d => d.kind
    | none => .error

/-- The type arguments of a type for the type parameters of its definition. -/
def arguments (p : Program) : TypeSymbol → Substitution
  | .constructed k as => (p.typeParameters k).zip as
  | _ => []

/-- The interfaces that the declarations of a type name. -/
def interfaces (p : Program) (t : TypeSymbol) : List TypeSymbol :=
  match p.definitionOf? t with
  | some d => d.interfaces.map (TypeSymbol.substitute (p.arguments t))
  | none => []

/-- The base class of a type. -/
def baseType? (p : Program) (t : TypeSymbol) : Option TypeSymbol := do
  return (← (← p.definitionOf? t).baseType).substitute (p.arguments t)

/-- The methods that a type declares. -/
def methods (p : Program) (t : TypeSymbol) : List MethodSymbol :=
  match p.definitionOf? t with
  | some d => d.methods.map (MethodSymbol.substitute (p.arguments t))
  | none => []

/-- The using directives around the declarations of a type. -/
def imports (p : Program) (t : TypeSymbol) : List String :=
  match p.definitionOf? t with
  | some d => d.imports
  | none => []

/-- How far a type may be used. -/
def accessibility? (p : Program) (t : TypeSymbol) : Option Accessibility :=
  (p.definitionOf? t).map Definition.accessibility

end Program

end Facade
