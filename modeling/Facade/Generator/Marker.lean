import Facade.Syntax.OfTree

/-!
# The marker interface

A type asks for a facade by realizing the marker interface with the interface to be forwarded. Its
source is part of every program.

* `Marker.displayName`: the text of the marker, by which it is recognised;
* `Marker.source`, `Marker.unit`: its source and declarations.
-/

namespace Facade.Marker

/-- The simple name of the marker. -/
def name : String := "IFacadeGenerator"

/-- The text of the marker without type arguments. -/
def displayName : String := "FacadeGenerator.IFacadeGenerator<T>"

/-- The name under which the source of the marker is registered. -/
def hintName : String := "IFacadeGenerator.generated"

/-- The source of the marker. -/
def source : String :=
  "#nullable enable\nnamespace FacadeGenerator\n\x7b\n" ++
  "    internal interface IFacadeGenerator<T> where T: class\n    \x7b\n    \x7d\n\x7d\n"

/-- The declarations of the marker. -/
def unit : CompilationUnit := (CompilationUnit.parse hintName source).toOption.getD default

end Facade.Marker
