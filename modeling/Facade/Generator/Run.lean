import Facade.Generator.Fingerprint
import Facade.Generator.Pass

/-!
# Generator runs

A generator runs over the sources of a program, to which the marker interface is added.

* `withMarker`: the sources with that of the marker;
* `RunResult`: what a run generates;
* `Generator.run`: a run.
-/

namespace Facade

/-- The sources of a program with that of the marker after them. -/
def withMarker (units : List CompilationUnit) : List CompilationUnit := units ++ [Marker.unit]

/-- The sources that every generator registers, by their hint names. -/
def markerSources : List (String × String) := [(Marker.hintName, Marker.source)]

/-- All candidates of some sources, in order. -/
def candidatesOf (units : List CompilationUnit) : List TypeSite :=
  (units.mapIdx CompilationUnit.candidates).flatten

/-- What a run generates; `sourceCount` counts the sources, that of the marker included. -/
structure RunResult where
  registry : Registry
  cacheHits : Nat
  sourceCount : Nat

namespace Generator

/-- A generator for runs; an incremental one uses units again. -/
def forRuns (incremental : Bool) : Generator :=
  .fresh (if incremental then some facadeFingerprint else none)

/-- A run over the sources of a program: what it generates, and the generator afterwards. -/
def run (g : Generator) (units : List CompilationUnit) (moment : Moment) :
    Except Cancelled (RunResult × Generator) := do
  let full := withMarker units
  let service := (Model.ofUnits full).service
  let (after, registry) ← g.execute service moment ((candidatesOf units).map some) .empty
  return (⟨registry, after.cacheHits - g.cacheHits, full.length⟩, after)

end Generator

end Facade
