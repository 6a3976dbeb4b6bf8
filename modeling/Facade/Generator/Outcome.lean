import Facade.Symbol.Accessibility
import Facade.Text.Position
import Facade.Syntax.TypeSyntax

/-!
# Outcomes of generation

What is known of a type that asks for a facade and of the interface it asks for, and what comes of
it.

* `ForwardedParameter`, `ForwardedMethod`, `Target`: the interface, as texts;
* `Container`: the type that is extended;
* `GeneratedUnit`, `Skip`, `Outcome`: a generated text, or why there is none;
* `Notice`: what is worth saying of a type whose facade was generated.
-/

namespace Facade

/-- A parameter of a forwarded method. -/
structure ForwardedParameter where
  type : String
  name : String
  modifiers : List String
  defaultText : Option String
deriving Repr, DecidableEq

namespace ForwardedParameter

/-- The parameter as it is declared. -/
def declaration (p : ForwardedParameter) : String :=
  let text := " ".intercalate (p.modifiers ++ [p.type, p.name])
  match p.defaultText with
  | some d => text ++ " = " ++ d
  | none => text

/-- The modifiers that are repeated where the parameter is passed on. -/
def passingModifiers : List String := ["ref", "out", "in"]

/-- The parameter as it is passed on. -/
def argument (p : ForwardedParameter) : String :=
  " ".intercalate (p.modifiers.filter passingModifiers.contains ++ [p.name])

end ForwardedParameter

/-- A method that a facade forwards. -/
structure ForwardedMethod where
  name : String
  returnType : String
  returnsVoid : Bool
  parameters : List ForwardedParameter
  typeParameters : List String
  constraintClauses : List String
deriving Repr, DecidableEq

/-- The type parameters of a method between angle brackets. -/
def ForwardedMethod.genericSuffix (m : ForwardedMethod) : String :=
  withArguments "" m.typeParameters

/-- The interface that a facade implements by forwarding. -/
structure Target where
  displayName : String
  methods : List ForwardedMethod
  imports : List String
deriving Repr, DecidableEq

/-- The type that a facade extends. `outerTypes` are the keyword and the heading of the types around
it, the outermost first. -/
structure Container where
  name : String
  keyword : String
  accessibility : Accessibility
  space : Option String
  typeParameters : List String
  outerTypes : List (String × String)
  isPartial : Bool
  span : Option Span
  filename : Option String
deriving Repr, DecidableEq

/-- The name of a container with its type parameters. -/
def Container.displayName (c : Container) : String := withArguments c.name c.typeParameters

/-! ## What comes of a candidate -/

/-- A generated text. -/
structure GeneratedUnit where
  name : String
  hintName : String
  text : String
deriving Repr, DecidableEq, Inhabited

/-- The name of the file that a unit is written to. -/
def GeneratedUnit.fileName (u : GeneratedUnit) : String := u.hintName ++ ".cs"

/-- Why a candidate has no facade. -/
inductive SkipReason where
  | noSymbol | noMarker | notAnInterface | noNamespace | unsupportedAccessibility
deriving Repr, DecidableEq

/-- The wording of a reason. -/
def SkipReason.title : SkipReason → String
  | noSymbol => "no symbol"
  | noMarker => "no marker"
  | notAnInterface => "not an interface"
  | noNamespace => "no namespace"
  | unsupportedAccessibility => "unsupported accessibility"

/-- A candidate without a facade. This is no error. -/
structure Skip where
  reason : SkipReason
  container : String
  detail : String
  span : Option Span
  filename : Option String
deriving Repr, DecidableEq

/-- What comes of a candidate. -/
inductive Outcome where
  | unit (u : GeneratedUnit)
  | skip (s : Skip)
deriving Repr, DecidableEq

/-- What is worth saying of a facade that was generated. -/
inductive NoticeKind where
  | multipleMarkers | notPartial | emptyInterface
deriving Repr, DecidableEq

/-- The wording of a kind of notice. -/
def NoticeKind.title : NoticeKind → String
  | multipleMarkers => "multiple markers"
  | notPartial => "not partial"
  | emptyInterface => "empty interface"

/-- Something worth saying of a candidate whose facade was generated. -/
structure Notice where
  kind : NoticeKind
  container : String
  detail : String
  count : Nat
  span : Option Span
  filename : Option String
deriving Repr, DecidableEq

end Facade
