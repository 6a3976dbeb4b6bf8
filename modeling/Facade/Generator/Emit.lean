import Facade.Generator.Outcome

/-!
# The text of a facade

A facade is a part of the container that forwards every method of the interface to an implementation,
which the container supplies. Its text depends on the container and the target alone.

* `Code`, `Code.lines`: lines and blocks, and how they are laid out;
* `Target.members`: what a facade declares;
* `emit`: the generated text, or why there is none.
-/

namespace Facade

/-- Lines of a text, and blocks of them between braces. -/
inductive Code where
  | line (text : String)
  | block (header : String) (body : List Code)

namespace Code

/-- A line at this depth, four blanks for each level; an empty line stays empty. -/
def indented (depth : Nat) (text : String) : String :=
  if text.isEmpty then "" else String.ofList (List.replicate (4 * depth) ' ') ++ text

mutual

/-- The lines of a piece of code at this depth. -/
def lines (depth : Nat) : Code → List String
  | line t => [indented depth t]
  | block header body =>
    indented depth header :: indented depth "\x7b" :: linesAll (depth + 1) body ++
      [indented depth "\x7d"]

/-- The lines of pieces of code. -/
def linesAll (depth : Nat) : List Code → List String
  | [] => []
  | c :: cs => lines depth c ++ linesAll depth cs

end

/-- The text of some code, each line ended. -/
def text (cs : List Code) : String := "\n".intercalate (linesAll 0 cs) ++ "\n"

/-- A block within blocks of these headers, the outermost first. -/
def within (headers : List String) (inner : Code) : Code :=
  headers.foldr (fun h c => block h [c]) inner

end Code

/-- The name of the method that supplies the implementation. -/
def accessorName : String := "GetImplementation"

namespace ForwardedMethod

/-- The head of the forwarding method. -/
def header (m : ForwardedMethod) : String :=
  let head := "public " ++ m.returnType ++ " " ++ m.name ++ m.genericSuffix ++ "(" ++
    commaSeparated (m.parameters.map ForwardedParameter.declaration) ++ ")"
  if m.constraintClauses.isEmpty then head
  else head ++ " " ++ " ".intercalate m.constraintClauses

/-- The call of the implementation. -/
def call (m : ForwardedMethod) : String :=
  accessorName ++ "()." ++ m.name ++ m.genericSuffix ++ "(" ++
    commaSeparated (m.parameters.map ForwardedParameter.argument) ++ ");"

/-- The forwarding method. -/
def code (m : ForwardedMethod) : Code :=
  .block m.header [.line (if m.returnsVoid then m.call else "return " ++ m.call)]

end ForwardedMethod

/-- The members of a facade: the accessor, and the forwarding methods in order. -/
def Target.members (t : Target) : List Code :=
  .line ("private partial " ++ t.displayName ++ " " ++ accessorName ++ "();") ::
    t.methods.flatMap fun m => [.line "", m.code]

namespace Container

/-- The head of the part of the container. -/
def header (c : Container) (access : String) (t : Target) : String :=
  access ++ " partial " ++ c.keyword ++ " " ++ c.displayName ++ " : " ++ t.displayName

/-- The headers of the types around the container. -/
def outerHeaders (c : Container) : List String :=
  c.outerTypes.map fun o => "partial " ++ o.1 ++ " " ++ o.2

/-- The code of a facade in this namespace. -/
def code (c : Container) (space access : String) (t : Target) : List Code :=
  .line "#nullable enable" :: t.imports.map Code.line ++ [.line "",
    Code.within (("namespace " ++ space) :: c.outerHeaders) (.block (c.header access t) t.members)]

/-- The name under which the facade is registered. -/
def hintName (c : Container) : String := c.name ++ ".generated"

end Container

/-- The facade of a container for a target, or why there is none: a container needs a namespace and a
level of access that can be declared. -/
def emit (c : Container) (t : Target) : Outcome :=
  match c.space.filter (!·.isEmpty), c.accessibility.keyword? with
  | none, _ => .skip ⟨.noNamespace, c.name, "", c.span, c.filename⟩
  | some _, none =>
    .skip ⟨.unsupportedAccessibility, c.name, c.accessibility.title, c.span, c.filename⟩
  | some space, some access => .unit ⟨c.name, c.hintName, Code.text (c.code space access t)⟩

end Facade
