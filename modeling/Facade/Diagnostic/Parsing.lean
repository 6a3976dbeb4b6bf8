import Facade.Diagnostic.Reporter
import Facade.Syntax.OfTree

/-!
# Reading sources

Sources that do not parse are reported and left out; the others make up the program.

* `Reporter.parseSource`: one source;
* `Reporter.parseSources`: several sources, in order.
-/

namespace Facade

/-- A source text and the name of its file. -/
structure SourceText where
  path : String
  text : String
deriving Repr, DecidableEq

namespace Reporter

/-- The tree and the declarations of a source, unless it does not parse, which is reported. -/
def parseSource (r : Reporter) (s : SourceText) : Reporter × Option (Tree × CompilationUnit) :=
  match CompilationUnit.parseWithTree s.path s.text with
  | .ok found => (r, some found)
  | .error e => (r.addSyntaxError e (some s.path), none)

/-- The declarations of the sources that parse; the others are reported. -/
def parseSources (r : Reporter) : List SourceText → Reporter × List CompilationUnit
  | [] => (r, [])
  | s :: rest =>
    let (r, found) := r.parseSource s
    let (r, units) := parseSources r rest
    (r, (found.map Prod.snd).toList ++ units)

end Reporter

end Facade
