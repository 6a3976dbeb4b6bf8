import Facade.Binding.Declarations

/-!
# Scopes

What a name means at a place in a program. A name is looked for among the type parameters and nested
types of the enclosing declarations, the innermost first, and then level by level outwards: in the
namespaces of the level, among its aliases, and in the namespaces it imports.

* `NamespaceLevel`, `Level`, `Scope`: the places where a name is looked for;
* `Scope.lookup`: the meaning of a simple name;
* `Scope.resolve`: the meaning of a written type.

The target of an alias is resolved without any aliases, so aliases do not see each other.
-/

namespace Facade

/-- One step of the search outwards: the namespaces of the level, the innermost first, and the
namespaces that its using directives import. -/
structure NamespaceLevel where
  spaces : List (Option String)
  imports : List String

/-- An alias, with the levels at which its target is resolved. -/
structure Alias where
  name : String
  target : TypeSyntax
  home : List NamespaceLevel

/-- One step of the search outwards, with the aliases of the level. -/
structure Level where
  plain : NamespaceLevel
  aliases : List Alias

/-- The places where the names of one site are looked for, the innermost first. -/
structure Scope where
  methodParameters : List TypeParameter
  containing : List DefinitionKey
  levels : List Level

/-- The namespaces that directives import. -/
def importsOf (us : List UsingDirective) : List String :=
  us.filterMap fun u =>
    match u.target with
    | .space n => some n
    | _ => none

/-- The aliases that directives declare; `home` says where the target of each is resolved. -/
def aliasesOf (us : List UsingDirective) (home : List NamespaceLevel) : List Alias :=
  us.filterMap fun u =>
    match u.target with
    | .alias n t => some ⟨n, t, home⟩
    | _ => none

namespace Declarations

variable (d : Declarations)

/-! ## Levels -/

/-- The global using directives of the sources other than one, with their numbers. -/
def foreignGlobals (tree : Nat) : List (Nat × UsingDirective) :=
  d.globalUsings.filter fun g => g.1 != tree

/-- The using directives of a source. -/
def usingsOf (tree : Nat) : List UsingDirective :=
  match d.units[tree]? with
  | some u => u.usings
  | none => []

/-- The outermost level of a source: the global namespace, its own using directives and the global
ones of other sources. -/
def unitLevel (tree : Nat) : NamespaceLevel :=
  ⟨[none], importsOf (d.usingsOf tree ++ (d.foreignGlobals tree).map Prod.snd)⟩

/-- The outermost level of a source with its aliases. A global alias is resolved in the source that
declares it. -/
def outermostLevel (tree : Nat) : Level :=
  { plain := d.unitLevel tree
    aliases := aliasesOf (d.usingsOf tree) [d.unitLevel tree] ++
      (d.foreignGlobals tree).flatMap fun g => aliasesOf [g.2] [d.unitLevel g.1] }

/-- The level of a namespace declaration within `outer`: the namespace itself and those around it
that the declaration names. -/
def namespaceLevel (outer : Option String) (head : NamespaceHead) : NamespaceLevel :=
  ⟨(dottedPrefixes head.name).reverse.map fun n => some (qualify outer n),
    importsOf head.usings⟩

/-- The levels of namespaces, given the name and the levels of what is around them. -/
def levelsWithin (outer : Option String) (around : List Level) :
    List NamespaceHead → List Level
  | [] => around
  | head :: inner =>
    let plain := namespaceLevel outer head
    let level := ⟨plain, aliasesOf head.usings (plain :: around.map Level.plain)⟩
    levelsWithin (some (qualify outer head.name)) (level :: around) inner

/-- The levels of a site, the innermost first. -/
def levelsAt (s : Site) : List Level :=
  levelsWithin none [d.outermostLevel s.tree] s.namespaces

/-- The scope of what a type declaration says. -/
def scopeAt (t : TypeSite) : Scope :=
  { methodParameters := []
    containing := ((d.keyOf? t.id).map DefinitionKey.withOuter).getD []
    levels := d.levelsAt t.site }

end Declarations

/-- The scope with nothing around it. -/
def Scope.empty : Scope := ⟨[], [], []⟩

/-! ## Lookup of simple names -/

namespace Declarations

variable (d : Declarations)

/-- The type of this name and number of type parameters in the first of some namespaces that has
one. -/
def inSpaces (spaces : List (Option String)) (name : String) (arity : Nat) :
    Option DefinitionKey :=
  spaces.findSome? fun s => d.type? (.topLevel s name arity)

/-- The type of this name in the namespaces of a level. -/
def inLevel (l : NamespaceLevel) (name : String) (arity : Nat) : Option DefinitionKey :=
  d.inSpaces l.spaces name arity

/-- The type of this name in the imported namespaces of a level. -/
def inImports (l : NamespaceLevel) (name : String) (arity : Nat) : Option DefinitionKey :=
  d.inSpaces (l.imports.map some) name arity

/-- The meaning of a name at levels without aliases. -/
def lookupPlain (levels : List NamespaceLevel) (name : String) (arity : Nat) :
    Option TypeSymbol :=
  (levels.findSome? fun l => d.inLevel l name arity <|> d.inImports l name arity).map .definition

end Declarations

/-! ## Resolution of written types -/

/-- A part of a dotted name, its type arguments resolved; `text` is the part as it is written. -/
structure ResolvedPart where
  name : String
  arguments : List TypeSymbol
  text : String

/-- The number of type arguments of a part. -/
def ResolvedPart.arity (p : ResolvedPart) : Nat := p.arguments.length

mutual

/-- The meaning of a written type, given the meaning of dotted names. -/
def TypeSyntax.resolveWith (named : Bool → List ResolvedPart → TypeSymbol) :
    TypeSyntax → TypeSymbol
  | .predefined k => .special k
  | .named isGlobal parts => named isGlobal (NamePart.resolveAll named parts)
  | .array e r => .array (e.resolveWith named) r
  | .nullable e => .nullable (e.resolveWith named)
  | .pointer e => .pointer (e.resolveWith named)
  | .tuple es => .tuple (TypeSyntax.resolveElements named es)

/-- The parts of a dotted name with their type arguments resolved. -/
def NamePart.resolveAll (named : Bool → List ResolvedPart → TypeSymbol) :
    List NamePart → List ResolvedPart
  | [] => []
  | .mk name arguments :: ps =>
    ⟨name, TypeSyntax.resolveAll named arguments, withArguments name (TypeSyntax.texts arguments)⟩
      :: NamePart.resolveAll named ps

/-- The meanings of written types. -/
def TypeSyntax.resolveAll (named : Bool → List ResolvedPart → TypeSymbol) :
    List TypeSyntax → List TypeSymbol
  | [] => []
  | t :: ts => t.resolveWith named :: TypeSyntax.resolveAll named ts

/-- The meanings of tuple elements. -/
def TypeSyntax.resolveElements (named : Bool → List ResolvedPart → TypeSymbol) :
    List (TypeSyntax × Option String) → List (TypeSymbol × Option String)
  | [] => []
  | (t, n) :: es => (t.resolveWith named, n) :: TypeSyntax.resolveElements named es

end

/-- A type found for a part of a name, with the type arguments of that part. -/
def ResolvedPart.construct (p : ResolvedPart) (found : TypeSymbol) : TypeSymbol :=
  match found with
  | .definition k => k.construct p.arguments
  | t => t

/-- The type that a name stands for when its parts lead to no declared type: all as it is written, but
for the type arguments of the last part. -/
def unresolvedName (isGlobal : Bool) (parts : List ResolvedPart) : TypeSymbol :=
  match parts.getLast? with
  | none => .unresolved "" []
  | some last =>
    let name := ".".intercalate (parts.dropLast.map ResolvedPart.text ++ [last.name])
    .unresolved (if isGlobal then "global::" ++ name else name) last.arguments

namespace Declarations

variable (d : Declarations)

/-- The type nested in `current` that a part names, with its type arguments. -/
def step (current : TypeSymbol) (p : ResolvedPart) : Option TypeSymbol := do
  let k ← current.key?
  let nested ← d.type? (.nested k p.name p.arity)
  return nested.construct p.arguments

/-- Follows the parts of a name from a type through its nested types. -/
def descend (start : TypeSymbol) (parts : List ResolvedPart) : Option TypeSymbol :=
  parts.foldlM d.step start

/-- The type that the first `count` parts name as a namespace, within one of `spaces`, and the next
part as a type in it. -/
def inQualified (spaces : List (Option String)) (parts : List ResolvedPart) (count : Nat) :
    Option DefinitionKey :=
  let outer := parts.take count
  if outer.any fun p => !p.arguments.isEmpty then none
  else do
    let last ← parts[count]?
    let suffix := ".".intercalate (outer.map ResolvedPart.name)
    spaces.findSome? fun s =>
      let full := qualify s suffix
      if full ∈ d.spaces then d.type? (.topLevel (some full) last.name last.arity) else none

/-- The longest beginning of a dotted name that is a namespace with the declared type that the next
part names: that type, and the number of its part. -/
def longestQualified (spaces : List (Option String)) (parts : List ResolvedPart) :
    Option (DefinitionKey × Nat) :=
  ((List.range (parts.length - 1)).reverse.map (· + 1)).findSome? fun count =>
    (d.inQualified spaces parts count).map fun k => (k, count)

/-- The meaning of a dotted name, given the meaning of simple names and the namespaces around. The
first part is a simple name if it means anything; otherwise the name begins with a namespace. -/
def resolveName (simple : String → Nat → Option TypeSymbol) (spaces : List (Option String))
    (isGlobal : Bool) (parts : List ResolvedPart) : TypeSymbol :=
  let found := do
    let head ← parts.head?
    let start := if isGlobal
      then (d.type? (.topLevel none head.name head.arity)).map TypeSymbol.definition
      else simple head.name head.arity
    match start with
    | some t => d.descend (head.construct t) parts.tail
    | none =>
      let (k, i) ← d.longestQualified (if isGlobal then [none] else spaces) parts
      let part ← parts[i]?
      d.descend (k.construct part.arguments) (parts.drop (i + 1))
  found.getD (unresolvedName isGlobal parts)

/-- The meaning of a written type at levels without aliases. -/
def resolvePlain (levels : List NamespaceLevel) (t : TypeSyntax) : TypeSymbol :=
  t.resolveWith (d.resolveName (d.lookupPlain levels) (levels.flatMap NamespaceLevel.spaces))

/-- The meaning of an alias. -/
def resolveAlias (a : Alias) : TypeSymbol := d.resolvePlain a.home a.target

/-- The meaning of a simple name at a level: a type of its namespaces, an alias, or a type of an
imported namespace. Aliases have no type arguments. -/
def lookupLevel (l : Level) (name : String) (arity : Nat) : Option TypeSymbol :=
  (d.inLevel l.plain name arity).map .definition <|>
  (if arity = 0 then (l.aliases.find? fun a => a.name == name).map d.resolveAlias else none) <|>
  (d.inImports l.plain name arity).map .definition

end Declarations

/-- The type parameter of this name. -/
def parameterNamed? (ps : List TypeParameter) (name : String) (arity : Nat) :
    Option TypeSymbol :=
  if arity = 0 then (ps.find? fun p => p.name == name).map .parameter else none

/-- The types that are declared so far: what names are resolved against. -/
structure Environment where
  declarations : Declarations
  program : Program

namespace Environment

variable (e : Environment)

/-- The meaning of a simple name in a containing type: one of its type parameters or nested types. -/
def lookupContaining (name : String) (arity : Nat) (k : DefinitionKey) : Option TypeSymbol :=
  parameterNamed? (e.program.typeParameters k) name arity <|>
    (e.declarations.type? (.nested k name arity)).map .definition

/-- The meaning of a simple name. -/
def lookup (s : Scope) (name : String) (arity : Nat) : Option TypeSymbol :=
  parameterNamed? s.methodParameters name arity <|>
  s.containing.findSome? (e.lookupContaining name arity) <|>
  s.levels.findSome? fun l => e.declarations.lookupLevel l name arity

/-- The meaning of a written type. -/
def resolve (s : Scope) (t : TypeSyntax) : TypeSymbol :=
  t.resolveWith (e.declarations.resolveName (e.lookup s)
    (s.levels.flatMap fun l => l.plain.spaces))

end Environment

end Facade
