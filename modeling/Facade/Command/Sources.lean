import Facade.Cache.Basic
import Facade.Diagnostic.Parsing
import Facade.Disk.Basic

/-!
# The sources of a run

The files a run is given, and the source files below the directories it is given, each once.

* `isSourceName`, `excludedDirectories`: what counts as a source below a directory;
* `Disk.sourcesBelow`: the sources below a directory, in order;
* `Reporter.collect`: the sources of a run; `Reporter.load`: their declarations.
-/

namespace Facade

/-- The name is that of a source; generated files are none. -/
def isSourceName (name : String) : Bool :=
  fileEnding name == ".cs" && !name.endsWith ".generated.cs"

/-- The directories whose files are no sources of a project. -/
def excludedDirectories : List String := ["bin", "obj", ".git", ".vs", Cache.directoryName]

/-- The way to an entry is that to a source. -/
def isSourceWay (way : List String) : Bool :=
  !(way.dropLast.any excludedDirectories.contains) && isSourceName (way.getLast?.getD "")

/-- The order of ways: by their names, one after the other. -/
def precedes : List String → List String → Bool
  | [], _ => true
  | _ :: _, [] => false
  | a :: as, b :: bs => if a = b then precedes as bs else decide (a ≤ b)

/-- The places of the sources below a directory, in order. -/
def Disk.sourcesBelow (d : Disk) (place : Location) : List Location :=
  (((d.below place).filter isSourceWay).mergeSort precedes).map fun way => place ++ way

namespace Reporter

/-- What is said of a path that leads nowhere. -/
def addMissing (r : Reporter) (p : Path) : Reporter :=
  r.report ⟨Catalog.unreadableSource, [("reason", "no such file or directory")], none,
    some p.text⟩

/-- The places that one path adds to the sources. -/
def collectPath (d : Disk) (base : Location) (r : Reporter) (p : Path) :
    Reporter × List Location :=
  match d.find? (p.absolute base) with
  | some (place, .directory) => (r, d.sourcesBelow place)
  | some (place, .file _) => (r, [place])
  | none => (r.addMissing p, [])

/-- The sources that paths lead to, one path after the other. -/
def collectPaths (d : Disk) (base : Location) (r : Reporter) :
    List Path → Reporter × List Location
  | [] => (r, [])
  | p :: ps =>
    let (r, found) := collectPath d base r p
    let (r, more) := collectPaths d base r ps
    (r, found ++ more)

/-- The sources of a run, each once; paths that lead nowhere are reported. -/
def collect (d : Disk) (base : Location) (r : Reporter) (paths : List Path) :
    Reporter × List Location :=
  let (r, found) := collectPaths d base r paths
  (r, found.eraseDups)

end Reporter

/-- The text of the file at a place, or why it has none. -/
def Disk.textOf (d : Disk) (place : Location) : Except String String :=
  match d.entry? place with
  | some (.file content) =>
    match Utf8.decode content with
    | .ok text => .ok (String.ofList (Text.unifyLineEnds text.toList))
    | .error f => .error f.message
  | some .directory => .error ("[Errno 21] Is a directory: " ++ Text.quote (Location.text place))
  | none => .error ("[Errno 2] No such file or directory: " ++ Text.quote (Location.text place))

namespace Reporter

/-- The tree and the declarations of the file at a place, unless it cannot be read or does not parse,
which is reported. -/
def loadFile (d : Disk) (r : Reporter) (place : Location) :
    Reporter × Option (Tree × CompilationUnit) :=
  match d.textOf place with
  | .ok text => r.parseSource ⟨Location.text place, text⟩
  | .error reason =>
    (r.report ⟨Catalog.unreadableSource, [("reason", reason)], none,
      some (Location.text place)⟩, none)

/-- The trees and declarations of files. -/
def load (d : Disk) (r : Reporter) : List Location → Reporter × List (Tree × CompilationUnit)
  | [] => (r, [])
  | place :: rest =>
    let (r, found) := loadFile d r place
    let (r, more) := load d r rest
    (r, found.toList ++ more)

end Reporter

end Facade
