import Facade.Binding.Model
import Facade.Generator.Marker
import Facade.Generator.Outcome

/-!
# Which interface a candidate asks for

A candidate is resolved with the help of a service that knows the whole program.

* `Service`, `Model.service`: the declared symbol of a declaration and the interfaces of a type;
* `Service.realizations`: the marker interfaces of a type;
* `Service.resolve`: the interface a candidate asks for, or why it has no facade;
* `Service.describe`, `TypeSite.container`: the texts that a facade is generated from.
-/

namespace Facade

/-- What a generator asks of a program. -/
structure Service where
  program : Program
  declaredSymbol? : DeclarationId → Option TypeSymbol
  allInterfaces : TypeSymbol → List TypeSymbol

/-- The service of a model. -/
def Model.service (m : Model) : Service :=
  ⟨m.program, m.declaredSymbol?, m.program.allInterfaces⟩

/-- A candidate that realizes the marker with an interface: `realizations` counts how often, `target`
is the interface of the first time. -/
structure Resolution where
  site : TypeSite
  symbol : TypeSymbol
  marker : TypeSymbol
  targetSymbol : TypeSymbol
  target : Target
  realizations : Nat

namespace Service

variable (service : Service)

/-- The type is the marker, whatever its type arguments. -/
def isMarker (t : TypeSymbol) : Bool :=
  service.program.display (Program.unconstructed t) == Marker.displayName

/-- The marker interfaces among the interfaces of a type, in their order. -/
def realizations (t : TypeSymbol) : List TypeSymbol :=
  (service.allInterfaces t).filter service.isMarker

/-- The first marker interface of a type. -/
def firstMarker? (t : TypeSymbol) : Option TypeSymbol :=
  (service.allInterfaces t).find? service.isMarker

/-! ## Descriptions -/

/-- The methods a facade forwards: the public instance methods that the interface itself declares. -/
def forwardedMethods (t : TypeSymbol) : List MethodSymbol :=
  (service.program.methods t).filter fun m =>
    !m.isStatic && !m.isExplicit && m.accessibility == .publicAccess

/-- The texts of a method. -/
def describeMethod (m : MethodSymbol) : ForwardedMethod :=
  { name := m.name
    returnType := service.program.display m.returnType
    returnsVoid := m.returnType.isVoid
    parameters := m.parameters.map fun p =>
      ⟨service.program.display p.type, p.name, p.modifiers, p.defaultText⟩
    typeParameters := m.typeParameters.map TypeParameter.name
    constraintClauses := m.constraintClauses.map service.program.clauseText }

/-- The texts of an interface. -/
def describe (t : TypeSymbol) : Target :=
  { displayName := service.program.display t
    methods := (service.forwardedMethods t).map service.describeMethod
    imports := service.program.imports t }

end Service

namespace TypeSite

/-- A skip of this declaration. -/
def skip (t : TypeSite) (reason : SkipReason) (detail : String) : Skip :=
  ⟨reason, t.head.name, detail, t.head.nameSpan, some t.site.unit.path⟩

/-- The texts of a declaration that a facade extends. -/
def container (t : TypeSite) (service : Service) (symbol : TypeSymbol) : Container :=
  { name := t.head.name
    keyword := t.head.form.keyword
    accessibility := (service.program.accessibility? symbol).getD .notApplicable
    space := t.site.namespaceName
    typeParameters := t.head.typeParameters.map TypeParameterSyntax.name
    outerTypes := t.site.types.map fun h => (h.form.keyword, h.heading)
    isPartial := t.head.isPartial
    span := t.head.nameSpan
    filename := some t.site.unit.path }

end TypeSite

namespace Service

variable (service : Service)

/-- The type argument of a marker; a nullable one stands for its element. -/
def markerTarget? (marker : TypeSymbol) : Option TypeSymbol :=
  match (service.program.typeArguments marker).head? with
  | some (.nullable t) => some t
  | t => t

/-- The interface that a candidate with this symbol asks for, or why it has no facade. If the marker
is realized more than once the first time counts. -/
def resolveSymbol (site : TypeSite) (symbol : TypeSymbol) : Except Skip Resolution :=
  match service.realizations symbol with
  | [] => .error (site.skip .noMarker "")
  | marker :: more =>
    match service.markerTarget? marker with
    | none => .error (site.skip .notAnInterface "?")
    | some target =>
      if service.program.kind target = .interfaceKind then
        .ok ⟨site, symbol, marker, target, service.describe target, more.length + 1⟩
      else .error (site.skip .notAnInterface (service.program.display target))

/-- The interface that a candidate asks for, or why it has no facade. -/
def resolve (site : TypeSite) : Except Skip Resolution :=
  match service.declaredSymbol? site.id with
  | none => .error (site.skip .noSymbol "")
  | some symbol => service.resolveSymbol site symbol

/-- The interface that a candidate asks for. -/
def target? (site : TypeSite) : Option Target :=
  match service.resolve site with
  | .ok r => some r.target
  | .error _ => none

end Service

namespace Resolution

/-- The texts of the declaration that the facade extends. -/
def container (r : Resolution) (service : Service) : Container := r.site.container service r.symbol

/-- What is worth saying of the candidate. -/
def notices (r : Resolution) : List Notice :=
  let notice (kind : NoticeKind) (detail : String) (count : Nat) : Notice :=
    ⟨kind, r.site.head.name, detail, count, r.site.head.nameSpan, some r.site.site.unit.path⟩
  (if r.realizations > 1 then [notice .multipleMarkers r.target.displayName r.realizations]
    else []) ++
  (if r.site.head.isPartial then [] else [notice .notPartial "" 0]) ++
  (if r.target.methods.isEmpty then [notice .emptyInterface r.target.displayName 0] else [])

end Resolution

end Facade
