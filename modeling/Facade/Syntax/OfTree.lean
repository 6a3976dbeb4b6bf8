import Facade.Grammar.Parse
import Facade.Syntax.Declaration
import Facade.Text.CharClass

/-!
# Declarations of a tree

The declarations that a parse tree stands for. A tree whose phrases are not made as the grammar says
has none.

* `TypeSyntax.ofTree?`: written types;
* `Member.ofTree?`, `TypeDeclaration.ofTree?`: types and members;
* `CompilationUnit.ofTree?`: whole sources;
* `CompilationUnit.parse`: the declarations of a source text.
-/

namespace Facade

namespace Tree

/-- The lines and columns of a tree. -/
def span (t : Tree) : Option Span := t.extent?.map Extent.span

/-- The text of a tree in its source. -/
def text (source : List Char) (t : Tree) : String :=
  match t.extent? with
  | some e => e.text source
  | none => ""

/-- The tree is a phrase of this rule. -/
def isPhrase (r : Rule) : Tree → Bool
  | leaf _ => false
  | node r' _ _ => r' == r

/-- The phrases of one rule among the parts. -/
def phrases (r : Rule) (parts : List Tree) : List Tree := parts.filter (isPhrase r)

/-- The first phrase of a rule among the parts. -/
def phrase? (r : Rule) (parts : List Tree) : Option Tree := parts.find? (isPhrase r)

/-- The parts of the first phrase of a rule, none if there is no such phrase. -/
def partsOf (r : Rule) (parts : List Tree) : List Tree :=
  match phrase? r parts with
  | some (node _ inner _) => inner
  | _ => []

/-- The texts of the tokens among the parts. -/
def words : List Tree → List String
  | [] => []
  | leaf t :: ts => t.text :: words ts
  | node .. :: ts => words ts

/-- The first name among the parts. -/
def name? : List Tree → Option Token
  | [] => none
  | leaf t :: ts => if t.terminal = .name then some t else name? ts
  | node .. :: ts => name? ts

/-- The names of a dotted name. -/
def dottedName (parts : List Tree) : String := ".".intercalate (words parts)

end Tree

/-! ## Types -/

/-- A type with one more suffix. -/
def TypeSyntax.withSuffix (t : TypeSyntax) (suffix : List String) : Option TypeSyntax :=
  match suffix with
  | ["?"] => some (.nullable t)
  | ["*"] => some (.pointer t)
  | "[" :: rest => some (.array t (rest.count "," + 1))
  | _ => none

/-- A type with its suffixes, the innermost first. -/
def TypeSyntax.withSuffixes (t : TypeSyntax) : List Tree → Option TypeSyntax
  | [] => some t
  | .node .typeSuffix parts _ :: rest => do (← t.withSuffix (Tree.words parts)).withSuffixes rest
  | _ => none

mutual

/-- The type that a tree stands for. -/
def TypeSyntax.ofTree? : Tree → Option TypeSyntax
  | .node .type (base :: suffixes) _ => do
    (← TypeSyntax.ofBase? base).withSuffixes suffixes
  | _ => none

/-- A type without its suffixes. -/
def TypeSyntax.ofBase? : Tree → Option TypeSyntax
  | .node .predefinedType [.leaf t] _ => some (.predefined t.text)
  | .node .namedType (.node .globalPrefix _ _ :: parts) _ => do
    return .named true (← NamePart.ofTrees? parts)
  | .node .namedType parts _ => do return .named false (← NamePart.ofTrees? parts)
  | .node .tupleType parts _ => do return .tuple (← TypeSyntax.ofElements? parts)
  | _ => none

/-- The parts of a dotted name. -/
def NamePart.ofTrees? : List Tree → Option (List NamePart)
  | [] => some []
  | .node .simpleName [.leaf t] _ :: rest => do
    return .mk t.text [] :: (← NamePart.ofTrees? rest)
  | .node .simpleName [.leaf t, .node .typeArgumentList arguments _] _ :: rest => do
    return .mk t.text (← TypeSyntax.ofTrees? arguments) :: (← NamePart.ofTrees? rest)
  | _ => none

/-- The types of a list. -/
def TypeSyntax.ofTrees? : List Tree → Option (List TypeSyntax)
  | [] => some []
  | t :: ts => do return (← TypeSyntax.ofTree? t) :: (← TypeSyntax.ofTrees? ts)

/-- The elements of a tuple. -/
def TypeSyntax.ofElements? : List Tree → Option (List (TypeSyntax × Option String))
  | [] => some []
  | .node .tupleElement [t] _ :: rest => do
    return (← TypeSyntax.ofTree? t, none) :: (← TypeSyntax.ofElements? rest)
  | .node .tupleElement [t, .leaf n] _ :: rest => do
    return (← TypeSyntax.ofTree? t, some n.text) :: (← TypeSyntax.ofElements? rest)
  | _ => none

end

/-- The first type among the parts of a phrase. -/
def TypeSyntax.among? (parts : List Tree) : Option TypeSyntax := do
  TypeSyntax.ofTree? (← Tree.phrase? .type parts)

/-! ## Parts of declarations -/

/-- What a directive with these parts brings into scope: one without a namespace has an alias. -/
def UsingTarget.ofParts? (parts : List Tree) : Option UsingTarget :=
  match Tree.phrase? .qualifiedName parts with
  | some _ =>
    let name := Tree.dottedName (Tree.partsOf .qualifiedName parts)
    some (if (Tree.words parts).contains "static" then .membersOf name else .space name)
  | none => do return .alias (← Tree.name? parts).text (← TypeSyntax.among? parts)

/-- A using directive. -/
def UsingDirective.ofTree? : Tree → Option UsingDirective
  | .node .usingDirective parts extent => do
    return ⟨← UsingTarget.ofParts? parts, (Tree.words parts).contains "global",
      extent.map Extent.span⟩
  | _ => none

/-- The variance that opens a type parameter. -/
def Variance.ofWords? : List String → Option Variance
  | "in" :: _ => some .contravariant
  | "out" :: _ => some .covariant
  | _ => none

/-- A type parameter. -/
def TypeParameterSyntax.ofTree? : Tree → Option TypeParameterSyntax
  | .node .typeParameter parts extent => do
    return ⟨(← Tree.name? parts).text, Variance.ofWords? (Tree.words parts),
      extent.map Extent.span⟩
  | _ => none

/-- The type parameters of a declaration with these parts. -/
def TypeParameterSyntax.among? (parts : List Tree) : Option (List TypeParameterSyntax) :=
  (Tree.partsOf .typeParameterList parts).mapM TypeParameterSyntax.ofTree?

/-- A constraint. -/
def ConstraintSyntax.ofTree? : Tree → Option ConstraintSyntax
  | .node .constraint parts _ =>
    match Tree.phrase? .type parts with
    | some t => do return .type (← TypeSyntax.ofTree? t)
    | none => some (.special ("".intercalate (Tree.words parts)))
  | _ => none

/-- A constraint clause. -/
def ConstraintClause.ofTree? : Tree → Option ConstraintClause
  | .node .constraintClause parts extent => do
    return ⟨(← Tree.name? parts).text,
      ← (Tree.phrases .constraint parts).mapM ConstraintSyntax.ofTree?, extent.map Extent.span⟩
  | _ => none

/-- The constraint clauses of a declaration with these parts. -/
def ConstraintClause.among? (parts : List Tree) : Option (List ConstraintClause) :=
  (Tree.phrases .constraintClause parts).mapM ConstraintClause.ofTree?

/-- The text of a default value: what the source holds after the equals sign, without the blanks
around it. -/
def ParameterSyntax.defaultOf (source : List Char) (t : Tree) : String :=
  Text.trimBlanks (String.ofList ((t.text source).toList.dropWhile (· == '=')))

/-- The first words of the phrases of a rule. -/
def Tree.headWords? (r : Rule) (parts : List Tree) : Option (List String) :=
  (Tree.phrases r parts).mapM fun
    | .node _ (.leaf t :: _) _ => some t.text
    | _ => none

/-- A parameter. -/
def ParameterSyntax.ofTree? (source : List Char) : Tree → Option ParameterSyntax
  | .node .parameter parts extent => do
    let name ← Tree.name? parts
    return {
      name := name.text
      type := ← TypeSyntax.among? parts
      modifiers := ← Tree.headWords? .parameterModifier parts
      defaultText := (Tree.phrase? .defaultValue parts).map (ParameterSyntax.defaultOf source)
      span := extent.map Extent.span
      nameSpan := some name.extent.span }
  | _ => none

/-- The parameters of a declaration with these parts. -/
def ParameterSyntax.among? (source : List Char) (parts : List Tree) :
    Option (List ParameterSyntax) :=
  (Tree.partsOf .parameterList parts).mapM (ParameterSyntax.ofTree? source)

/-! ## Members -/

/-- What stands before and around a declaration: its modifiers, attributes and span. -/
structure Surroundings where
  modifiers : List String
  attributes : List String
  span : Option Span

/-- The surroundings of a declaration with these parts. -/
def Surroundings.among? (source : List Char) (parts : List Tree) (extent : Option Extent) :
    Option Surroundings := do
  return {
    modifiers := ← Tree.headWords? .modifier parts
    attributes := (Tree.phrases .attributeSection parts).map (Tree.text source)
    span := extent.map Extent.span }

/-- A method with these parts. -/
def MethodDeclaration.ofParts? (source : List Char) (around : Surroundings)
    (parts : List Tree) : Option MethodDeclaration := do
  let name ← Tree.phrase? .memberName parts
  return {
    name := Tree.dottedName (Tree.partsOf .memberName parts)
    returnType := ← TypeSyntax.among? parts
    parameters := ← ParameterSyntax.among? source parts
    typeParameters := ← TypeParameterSyntax.among? parts
    constraints := ← ConstraintClause.among? parts
    hasBody := !(Tree.partsOf .memberBody parts).isEmpty
    modifiers := around.modifiers
    attributes := around.attributes
    span := around.span
    nameSpan := name.span }

/-- The kind of member that a phrase declares, if it is neither a method nor a type. -/
def MemberKind.ofRule? : Rule → Option MemberKind
  | .constructorDeclaration => some .constructor
  | .destructorDeclaration => some .destructor
  | .propertyDeclaration => some .property
  | .indexerDeclaration => some .indexer
  | .fieldDeclaration => some .field
  | .operatorDeclaration => some .operator
  | .conversionDeclaration => some .conversion
  | _ => none

/-- The name under which a member that is neither a method nor a type is listed. -/
def OtherMember.nameOf? (parts : List Tree) : MemberKind → Option String
  | .constructor | .destructor => do return (← Tree.name? parts).text
  | .property => do
    let _ ← Tree.phrase? .memberName parts
    return Tree.dottedName (Tree.partsOf .memberName parts)
  | .indexer => some "this[]"
  | .field => do
    let names ← (Tree.phrases .variableDeclarator parts).mapM fun
      | .node _ inner _ => (Tree.name? inner).map Token.text
      | .leaf _ => none
    return commaSeparated names
  | .operator =>
    match parts with
    | _ :: .leaf t :: _ => some ("operator " ++ t.text)
    | _ => none
  | .conversion => do return "operator " ++ (← TypeSyntax.among? parts).text

/-- A member that is neither a method nor a type. -/
def OtherMember.ofParts? (around : Surroundings) (kind : MemberKind) (parts : List Tree) :
    Option OtherMember := do
  return ⟨kind, ← OtherMember.nameOf? parts kind, around.modifiers, around.attributes,
    around.span⟩

/-- The form of the type that a phrase with these parts declares. -/
def TypeForm.ofParts? (source : List Char) (parts : List Tree) : Rule → Option TypeForm
  | .classDeclaration => some .classForm
  | .structDeclaration => some .structForm
  | .interfaceDeclaration => some .interfaceForm
  | .recordDeclaration =>
    some (.recordForm ((Tree.words (Tree.partsOf .recordKind parts)).contains "struct"))
  | .enumDeclaration => some .enumForm
  | .delegateDeclaration => do
    return .delegateForm (← TypeSyntax.among? parts) (← ParameterSyntax.among? source parts)
  | _ => none

/-- The base types of a declaration with these parts. The type after the colon of an enum counts as
one. -/
def TypeHead.basesOf? (parts : List Tree) (form : TypeForm) : Option (List TypeSyntax) :=
  match form with
  | .enumForm => ((Tree.phrase? .type parts).toList).mapM TypeSyntax.ofTree?
  | _ => (Tree.partsOf .baseList parts).mapM fun
    | .node .baseType inner _ => TypeSyntax.among? inner
    | _ => none

/-- A type declaration with these parts, but for its members. -/
def TypeHead.ofParts? (around : Surroundings) (form : TypeForm) (parts : List Tree) :
    Option TypeHead := do
  let name ← Tree.name? parts
  return {
    form := form
    name := name.text
    typeParameters := ← TypeParameterSyntax.among? parts
    baseTypes := ← TypeHead.basesOf? parts form
    constraints := ← ConstraintClause.among? parts
    modifiers := around.modifiers
    attributes := around.attributes
    span := around.span
    nameSpan := some name.extent.span }

mutual

/-- A member, or a type declaration outside of types. -/
def Member.ofTree? (source : List Char) : Tree → Option Member
  | .node .member parts extent | .node .typeDeclaration parts extent => do
    Member.ofParts? source (← Surroundings.among? source parts extent) parts
  | _ => none

/-- A member from its parts; attributes and modifiers come before the declaration proper. -/
def Member.ofParts? (source : List Char) (around : Surroundings) : List Tree → Option Member
  | [] => none
  | .leaf _ :: rest => Member.ofParts? source around rest
  | .node rule parts _ :: rest =>
    if rule = .attributeSection ∨ rule = .modifier then Member.ofParts? source around rest
    else if rule = .methodDeclaration then do
      return .method (← MethodDeclaration.ofParts? source around parts)
    else
      match MemberKind.ofRule? rule with
      | some kind => do return .other (← OtherMember.ofParts? around kind parts)
      | none => do
        let form ← TypeForm.ofParts? source parts rule
        return .type (← TypeHead.ofParts? around form parts) (← Member.ofBody? source parts)

/-- The members between the braces of a type declaration with these parts; a declaration without
braces has none. -/
def Member.ofBody? (source : List Char) : List Tree → Option (List Member)
  | [] => some []
  | .node .classBody parts _ :: _ => Member.ofTrees? source parts
  | _ :: rest => Member.ofBody? source rest

/-- The members of a list. -/
def Member.ofTrees? (source : List Char) : List Tree → Option (List Member)
  | [] => some []
  | t :: ts => do return (← Member.ofTree? source t) :: (← Member.ofTrees? source ts)

end

/-- A type declaration outside of types. -/
def TypeDeclaration.ofTree? (source : List Char) (t : Tree) : Option TypeDeclaration :=
  match Member.ofTree? source t with
  | some (.type head members) => some ⟨head, members⟩
  | _ => none

/-! ## Namespaces and sources -/

/-- A namespace with these parts, but for its members. -/
def NamespaceHead.ofParts? (isFileScoped : Bool) (parts : List Tree) (extent : Option Extent) :
    Option NamespaceHead := do
  let _ ← Tree.phrase? .qualifiedName parts
  return ⟨Tree.dottedName (Tree.partsOf .qualifiedName parts), isFileScoped,
    ← (Tree.phrases .usingDirective parts).mapM UsingDirective.ofTree?,
    extent.map Extent.span⟩

mutual

/-- A member of a namespace. -/
def NamespaceMember.ofTree? (source : List Char) : Tree → Option NamespaceMember
  | .node .namespaceDeclaration parts extent => do
    return .space (← NamespaceHead.ofParts? false parts extent)
      (← NamespaceMember.ofParts? source parts)
  | .node .fileScopedNamespace parts extent => do
    return .space (← NamespaceHead.ofParts? true parts extent)
      (← NamespaceMember.ofParts? source parts)
  | t => do return .type (← TypeDeclaration.ofTree? source t)

/-- The members among the parts of a namespace or source. -/
def NamespaceMember.ofParts? (source : List Char) : List Tree → Option (List NamespaceMember)
  | [] => some []
  | .leaf _ :: rest => NamespaceMember.ofParts? source rest
  | .node .usingDirective _ _ :: rest | .node .qualifiedName _ _ :: rest =>
    NamespaceMember.ofParts? source rest
  | t :: rest => do
    return (← NamespaceMember.ofTree? source t) :: (← NamespaceMember.ofParts? source rest)

end

/-- The declarations of a whole source. -/
def CompilationUnit.ofTree? (source : List Char) (path : String) : Tree → Option CompilationUnit
  | .node .source parts extent => do
    return {
      path := path
      usings := ← (Tree.phrases .usingDirective parts).mapM UsingDirective.ofTree?
      members := ← NamespaceMember.ofParts? source parts
      span := extent.map Extent.span }
  | _ => none

/-- The tree and the declarations of a source text; `path` names it. -/
def CompilationUnit.parseWithTree (path source : String) :
    Except SyntaxError (Tree × CompilationUnit) := do
  let tree ← Tree.parse source.toList
  match CompilationUnit.ofTree? source.toList path tree with
  | some unit => return (tree, unit)
  | none => throw ⟨.malformedTree, 1, 1⟩

/-- The declarations of a source text; `path` names it. -/
def CompilationUnit.parse (path source : String) : Except SyntaxError CompilationUnit := do
  return (← CompilationUnit.parseWithTree path source).2

/-- The source that gives another name to a type. -/
def aliasSource (text : String) : String := "using X = " ++ text ++ ";"

/-- The written type that a text is where another name is given to it. -/
def TypeSyntax.parse (text : String) : Except SyntaxError TypeSyntax := do
  let unit ← CompilationUnit.parse "" (aliasSource text)
  match unit.usings.head?.map UsingDirective.target with
  | some (.alias _ t) => return t
  | _ => throw ⟨.malformedTree, 1, 1⟩

end Facade
