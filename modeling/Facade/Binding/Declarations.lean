import Facade.Symbol.Program
import Facade.Text.Split

/-!
# The declared types of a program

The first step of binding: every type declaration of every source gets the identity of the type it
declares. Declarations with the same containing namespace or type, name and number of type parameters
declare parts of one type.

* `Declared`, `CompilationUnit.declare`: the declarations of a source with their identities;
* `Declarations`, `Declarations.ofUnits`: those of a program, and its namespaces.
-/

namespace Facade

/-- A type declaration and the identity of the type it declares. -/
structure Declared where
  key : DefinitionKey
  site : TypeSite

/-- The identity of a type declared in a namespace or in another type. -/
def DefinitionKey.declare (space : Option String) (outer : Option DefinitionKey)
    (head : TypeHead) : DefinitionKey :=
  match outer with
  | some o => .nested o head.name head.arity
  | none => .topLevel space head.name head.arity

mutual

/-- The type declarations of a member, given the namespace and the type that hold it. -/
def Member.declare (s : Site) (i : Nat) (space : Option String) (outer : Option DefinitionKey) :
    Member → List Declared
  | .type head members =>
    let key := DefinitionKey.declare space outer head
    ⟨key, ⟨s, i, ⟨head, members⟩⟩⟩ ::
      Member.declareAll (s.inType i head) 0 space (some key) members
  | .method _ | .other _ => []

/-- The type declarations of members. -/
def Member.declareAll (s : Site) (i : Nat) (space : Option String)
    (outer : Option DefinitionKey) : List Member → List Declared
  | [] => []
  | m :: ms => Member.declare s i space outer m ++ Member.declareAll s (i + 1) space outer ms

end

mutual

/-- The type declarations of a member of a namespace. -/
def NamespaceMember.declare (s : Site) (i : Nat) (space : Option String) :
    NamespaceMember → List Declared
  | .space head members =>
    NamespaceMember.declareAll (s.inNamespace i head) 0 (some (qualify space head.name)) members
  | .type d => Member.declare s i space none (.type d.head d.members)

/-- The type declarations of members of a namespace. -/
def NamespaceMember.declareAll (s : Site) (i : Nat) (space : Option String) :
    List NamespaceMember → List Declared
  | [] => []
  | m :: ms => NamespaceMember.declare s i space m ++ NamespaceMember.declareAll s (i + 1) space ms

end

/-- The type declarations of the source with this number. -/
def CompilationUnit.declare (tree : Nat) (unit : CompilationUnit) : List Declared :=
  NamespaceMember.declareAll (.ofUnit tree unit) 0 none unit.members

/-! ## Namespaces -/

/-- The beginnings of a dotted name, the shortest first. -/
def dottedPrefixes (name : String) : List String :=
  let segments := Text.split '.' name
  (List.range segments.length).map fun k => ".".intercalate (segments.take (k + 1))

mutual

/-- The namespaces that a member of a namespace declares. -/
def NamespaceMember.spaces (space : Option String) : NamespaceMember → List String
  | .space head members =>
    let full := qualify space head.name
    dottedPrefixes full ++ NamespaceMember.spacesAll (some full) members
  | .type _ => []

/-- The namespaces that members of a namespace declare. -/
def NamespaceMember.spacesAll (space : Option String) : List NamespaceMember → List String
  | [] => []
  | m :: ms => NamespaceMember.spaces space m ++ NamespaceMember.spacesAll space ms

end

/-! ## Programs -/

/-- The sources of a program with all their type declarations: `keys` are the declared types, in the
order of their first declarations, and `spaces` the namespaces. -/
structure Declarations where
  units : List CompilationUnit
  declared : List Declared
  keys : List DefinitionKey
  spaces : List String

namespace Declarations

/-- The declarations of a program. -/
def ofUnits (units : List CompilationUnit) : Declarations :=
  let declared := (units.mapIdx CompilationUnit.declare).flatten
  { units := units
    declared := declared
    keys := (declared.map Declared.key).eraseDups
    spaces := (units.flatMap fun u => NamespaceMember.spacesAll none u.members).eraseDups }

/-- The declared type with this identity. -/
def type? (d : Declarations) (k : DefinitionKey) : Option DefinitionKey :=
  if k ∈ d.keys then some k else none

/-- The type that a declaration declares. -/
def keyOf? (d : Declarations) (id : DeclarationId) : Option DefinitionKey :=
  (d.declared.find? fun e => e.site.id == id).map Declared.key

/-- The declarations of a type. -/
def sitesOf (d : Declarations) (k : DefinitionKey) : List TypeSite :=
  (d.declared.filter fun e => e.key == k).map Declared.site

/-- The global using directives of the program, each with the number of its source. -/
def globalUsings (d : Declarations) : List (Nat × UsingDirective) :=
  (d.units.mapIdx fun i u => (u.usings.filter UsingDirective.isGlobal).map fun g => (i, g)).flatten

end Declarations

end Facade
