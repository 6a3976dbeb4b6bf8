import Facade.Syntax.Declaration

/-!
# Sites of declarations

Where in a program a node stands, and all nodes of a source in order.

* `DeclarationId`: the identity of a declaration: the number of its source and the way to it;
* `Site`, `Site.namespaceName`: the namespaces and types around a node;
* `Node`, `CompilationUnit.walk`: the nodes of a source, each before what it holds;
* `TypeSite`, `CompilationUnit.candidates`: type declarations with their sites, and those of them
  that can host a facade.
-/

namespace Facade

/-- Which declaration of a program this is: the number of its source, and at each level the number of
the member that holds it. -/
structure DeclarationId where
  tree : Nat
  path : List Nat
deriving Repr, DecidableEq, Inhabited

/-- What surrounds a node: its source, and the namespaces and types it stands in, the outermost
first. `path` is the way to the declaration that holds the node. -/
structure Site where
  tree : Nat
  unit : CompilationUnit
  namespaces : List NamespaceHead
  types : List TypeHead
  path : List Nat
deriving Inhabited

namespace Site

/-- The site of what a source holds directly. -/
def ofUnit (tree : Nat) (unit : CompilationUnit) : Site := ⟨tree, unit, [], [], []⟩

/-- The site of what a namespace holds directly, which is itself at number `i`. -/
def inNamespace (s : Site) (i : Nat) (head : NamespaceHead) : Site :=
  { s with namespaces := s.namespaces ++ [head], path := s.path ++ [i] }

/-- The site of what a type holds directly, which is itself at number `i`. -/
def inType (s : Site) (i : Nat) (head : TypeHead) : Site :=
  { s with types := s.types ++ [head], path := s.path ++ [i] }

/-- The full name of the namespace around a node, none if that is the global namespace. -/
def namespaceName (s : Site) : Option String :=
  if s.namespaces.isEmpty then none
  else some (".".intercalate (s.namespaces.map NamespaceHead.name))

end Site

/-- A type declaration, and where it stands: `site` is what surrounds it, `index` its number
there. -/
structure TypeSite where
  site : Site
  index : Nat
  declaration : TypeDeclaration

namespace TypeSite

/-- The head of the declaration. -/
def head (t : TypeSite) : TypeHead := t.declaration.head

/-- The identity of the declaration. -/
def id (t : TypeSite) : DeclarationId := ⟨t.site.tree, t.site.path ++ [t.index]⟩

/-- The site of what the declaration holds. -/
def inside (t : TypeSite) : Site := t.site.inType t.index t.head

end TypeSite

/-! ## Walking a source -/

/-- A node of a source. -/
inductive Node where
  | unit (u : CompilationUnit)
  | directive (u : UsingDirective)
  | space (head : NamespaceHead)
  | type (d : TypeSite)
  | typeParameter (p : TypeParameterSyntax)
  | constraints (c : ConstraintClause)
  | method (m : MethodDeclaration)
  | parameter (p : ParameterSyntax)
  | other (m : OtherMember)

/-- A node with its site. -/
abbrev Placed := Site × Node

/-- The nodes of a method. -/
def MethodDeclaration.walk (s : Site) (m : MethodDeclaration) : List Placed :=
  (s, .method m) :: (m.typeParameters.map fun p => (s, .typeParameter p)) ++
    (m.parameters.map fun p => (s, .parameter p)) ++
    m.constraints.map fun c => (s, .constraints c)

/-- The nodes of a type declaration before its members. -/
def TypeHead.walk (s : Site) (h : TypeHead) : List Placed :=
  (h.typeParameters.map fun p => (s, .typeParameter p)) ++
    h.constraints.map fun c => (s, .constraints c)

mutual

/-- The nodes of a member, which has the number `i` at its site. -/
def Member.walk (s : Site) (i : Nat) : Member → List Placed
  | .type head members =>
    let inner := s.inType i head
    (s, .type ⟨s, i, ⟨head, members⟩⟩) :: TypeHead.walk inner head ++ Member.walkAll inner 0 members
  | .method m => m.walk s
  | .other m => [(s, .other m)]

/-- The nodes of members, which are numbered from `i` on at their site. -/
def Member.walkAll (s : Site) (i : Nat) : List Member → List Placed
  | [] => []
  | m :: ms => Member.walk s i m ++ Member.walkAll s (i + 1) ms

end

/-- The nodes of a type declaration, which has the number `i` at its site. -/
def TypeDeclaration.walk (s : Site) (i : Nat) (d : TypeDeclaration) : List Placed :=
  Member.walk s i (.type d.head d.members)

/-- The nodes of using directives. -/
def UsingDirective.walkAll (s : Site) (us : List UsingDirective) : List Placed :=
  us.map fun u => (s, .directive u)

mutual

/-- The nodes of a member of a namespace, which has the number `i` at its site. -/
def NamespaceMember.walk (s : Site) (i : Nat) : NamespaceMember → List Placed
  | .space head members =>
    let inner := s.inNamespace i head
    (s, .space head) :: UsingDirective.walkAll inner head.usings ++
      NamespaceMember.walkAll inner 0 members
  | .type d => d.walk s i

/-- The nodes of members of a namespace, which are numbered from `i` on at their site. -/
def NamespaceMember.walkAll (s : Site) (i : Nat) : List NamespaceMember → List Placed
  | [] => []
  | m :: ms => NamespaceMember.walk s i m ++ NamespaceMember.walkAll s (i + 1) ms

end

/-- The nodes of the source with this number, each before what it holds, in the order of the
source. -/
def CompilationUnit.walk (tree : Nat) (unit : CompilationUnit) : List Placed :=
  let s := Site.ofUnit tree unit
  (s, .unit unit) :: UsingDirective.walkAll s unit.usings ++
    NamespaceMember.walkAll s 0 unit.members

namespace Node

/-- The type declaration, if the node is one. -/
def type? : Node → Option TypeSite
  | type d => some d
  | _ => none

/-- The node can host a facade: it declares a class, struct or record. -/
def isCandidate : Node → Bool
  | type d => d.head.canHost
  | _ => false

end Node

/-- The type declarations of the source with this number. -/
def CompilationUnit.typeSites (tree : Nat) (unit : CompilationUnit) : List TypeSite :=
  (unit.walk tree).filterMap fun n => n.2.type?

/-- The declarations that can host a facade, in the order of the source. -/
def CompilationUnit.candidates (tree : Nat) (unit : CompilationUnit) : List TypeSite :=
  (unit.typeSites tree).filter fun t => t.head.canHost

end Facade
