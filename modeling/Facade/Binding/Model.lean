import Facade.Binding.Scope
import Facade.Symbol.Interfaces

/-!
# Semantic models

The second step of binding: what the declarations of each type say, resolved where they say it.

* `Environment.ofUnits`: the declared types, before their base lists and members are looked at;
* `Environment.bind`: a type with its base class, interfaces and methods;
* `Model`, `Model.ofUnits`: the sources of a program with all that is known of its types.
-/

namespace Facade

/-! ## Declared types -/

/-- The level of access of a type: the first of its declarations that has a word on access decides;
otherwise a top-level type is internal, a member of an interface public, and any other nested type
private. -/
def accessibilityOf (outerKind : Option TypeKind) (sites : List TypeSite) : Accessibility :=
  let default := match outerKind with
    | none => Accessibility.internalAccess
    | some .interfaceKind => .publicAccess
    | some _ => .privateAccess
  let mentions (s : TypeSite) : Bool := s.head.modifiers.any Accessibility.words.contains
  match sites.find? mentions with
  | some s => Accessibility.ofModifiers s.head.modifiers default
  | none => default

namespace Declarations

/-- The first declaration of a type; it says what kind of type it is. -/
def headOf? (d : Declarations) (k : DefinitionKey) : Option TypeHead :=
  (d.sitesOf k).head?.map TypeSite.head

/-- The kind of a declared type. -/
def kindOf? (d : Declarations) (k : DefinitionKey) : Option TypeKind :=
  (d.headOf? k).map fun h => h.form.kind

/-- A declared type, with nothing yet known of its base types and methods. -/
def define (d : Declarations) (k : DefinitionKey) : Option Definition := do
  let head ← d.headOf? k
  let sites := d.sitesOf k
  return {
    key := k
    kind := head.form.kind
    isRecord := head.form.isRecord
    accessibility := accessibilityOf (k.outer?.bind d.kindOf?) sites
    typeParameters := TypeParameter.ofSyntax k.ownerName head.typeParameters
    sites := sites
    baseType := none
    interfaces := []
    methods := [] }

end Declarations

/-- The declared types of some sources. -/
def Environment.ofUnits (units : List CompilationUnit) : Environment :=
  let d := Declarations.ofUnits units
  ⟨d, ⟨d.keys.filterMap d.define⟩⟩

/-! ## Base types and methods -/

/-- The base class and the interfaces of a type, as far as they are known. -/
structure Bases where
  baseType : Option TypeSymbol
  interfaces : List TypeSymbol

namespace Environment

variable (e : Environment)

/-- One more base type of a declaration: a class at the first place of a class declaration is its
base class, unless there is one already; all others are interfaces, each listed once. -/
def addBase (kind : TypeKind) (isFirst : Bool) (b : Bases) (t : TypeSymbol) : Bases :=
  if isFirst && kind == .classKind && e.program.kind t == .classKind && b.baseType.isNone then
    { b with baseType := some t }
  else if t ∈ b.interfaces then b
  else { b with interfaces := b.interfaces ++ [t] }

/-- The base types of one declaration. -/
def addBases (kind : TypeKind) (b : Bases) : List TypeSymbol → Bases
  | [] => b
  | first :: rest => rest.foldl (e.addBase kind false) (e.addBase kind true b first)

/-- The base types of all declarations of a type. -/
def basesOf (kind : TypeKind) (sites : List TypeSite) : Bases :=
  sites.foldl (fun b s =>
    let scope := e.declarations.scopeAt s
    e.addBases kind b (s.head.baseTypes.map (e.resolve scope))) ⟨none, []⟩

/-- A constraint in a scope. -/
def bindConstraint (s : Scope) : ConstraintSyntax → ConstraintSymbol
  | .special t => .special t
  | .type t => .type (e.resolve s t)

/-- A method of a type, whose signature is resolved in `scope` with its own type parameters. -/
def bindMethod (owner : DefinitionKey) (ownerKind : TypeKind) (scope : Scope)
    (m : MethodDeclaration) : MethodSymbol :=
  let methodName :=
    owner.metadataName ++ "." ++ m.name ++ "`" ++ toString m.typeParameters.length
  let typeParameters := TypeParameter.ofSyntax methodName m.typeParameters
  let scope := { scope with methodParameters := typeParameters }
  let default := if ownerKind == .interfaceKind then Accessibility.publicAccess else .privateAccess
  { name := m.name
    returnType := e.resolve scope m.returnType
    parameters := m.parameters.map fun p =>
      ⟨p.name, e.resolve scope p.type, p.modifiers, p.defaultText⟩
    typeParameters := typeParameters
    constraintClauses := m.constraints.map fun c =>
      ⟨c.typeParameter, c.constraints.map (e.bindConstraint scope)⟩
    isStatic := m.modifiers.contains "static"
    accessibility := Accessibility.ofModifiers m.modifiers default
    isExplicit := m.name.toList.contains '.'
    span := m.nameSpan }

/-- The methods of one declaration of a type. -/
def methodsAt (owner : DefinitionKey) (kind : TypeKind) (s : TypeSite) : List MethodSymbol :=
  let scope := e.declarations.scopeAt s
  s.declaration.members.filterMap fun
    | .method m => some (e.bindMethod owner kind scope m)
    | _ => none

/-- A type with its base class, interfaces and methods. Enums and delegates have none. -/
def bind (d : Definition) : Definition :=
  match d.kind with
  | .enumKind | .delegateKind => d
  | _ =>
    let bases := e.basesOf d.kind d.sites
    { d with
      baseType := bases.baseType
      interfaces := bases.interfaces
      methods := d.sites.flatMap (e.methodsAt d.key d.kind) }

end Environment

/-! ## Models -/

/-- The sources of a program, with all that is known of its types. -/
structure Model where
  environment : Environment
  program : Program

namespace Model

/-- The model of some sources. -/
def ofUnits (units : List CompilationUnit) : Model :=
  let e := Environment.ofUnits units
  ⟨e, ⟨e.program.definitions.map e.bind⟩⟩

/-- The type that a declaration declares. -/
def declaredSymbol? (m : Model) (id : DeclarationId) : Option TypeSymbol :=
  (m.environment.declarations.keyOf? id).map .definition

/-- The meaning of a written type within a type declaration. -/
def resolveAt (m : Model) (t : TypeSite) (written : TypeSyntax) : TypeSymbol :=
  m.environment.resolve (m.environment.declarations.scopeAt t) written

/-- The names of the namespaces of the program, in order. -/
def namespaceNames (m : Model) : List String :=
  m.environment.declarations.spaces.mergeSort fun a b => decide (a ≤ b)

end Model

end Facade
