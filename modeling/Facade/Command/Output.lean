import Facade.Cache.Basic
import Facade.Generator.Run

/-!
# Writing units

The units of a run are written into one directory. A unit whose file is there and whose fingerprint is
in the cache is left alone, and files of units that are no longer generated are removed.

* `OutputPlan`: where units go;
* `writeUnits`: writes them, and tells what became of each;
* `WriteReport.lines`: what is printed of it.
-/

namespace Facade

/-- Where the units of a run are written, and where its cache is. -/
structure OutputPlan where
  outDirectory : Location
  cachePath : Path
  incremental : Bool
deriving Repr, DecidableEq

/-- What became of a unit. -/
inductive UnitFate where
  | written | cached | removed
deriving Repr, DecidableEq

/-- The word for what became of a unit. -/
def UnitFate.title : UnitFate → String
  | written => "written"
  | cached => "cached"
  | removed => "removed"

/-- What became of the file of a unit. -/
structure FileFate where
  fileName : String
  fate : UnitFate
deriving Repr, DecidableEq

/-- What became of the units of a run, and of those that are no longer generated. -/
structure WriteReport where
  units : List FileFate
  stale : List FileFate
  outDirectory : Location
deriving Repr, DecidableEq

namespace OutputPlan

variable (p : OutputPlan)

/-- The cache of the plan. -/
def cache : Cache := .ofPath p.cachePath (some p.outDirectory)

/-- Where the file of a unit is. -/
def filePath (fileName : String) : Path := (Path.ofLocation p.outDirectory).child fileName

/-- Makes the directories; a cache that cannot be used begins anew. -/
def prepare : DiskAction Unit := do
  Disk.makeDirectories (.ofLocation p.outDirectory)
  let d ← get
  if p.incremental && p.cache.isValid d then p.cache.makeDirectories
  else discard p.cache.rebuild

/-- Writes a unit, unless its file is up to date. -/
def writeUnit (u : GeneratedUnit) : DiskAction FileFate := do
  let d ← get
  let path := p.filePath u.fileName
  let fingerprint := unitFingerprint u
  if p.incremental && p.cache.hasUnit d u.hintName fingerprint path then
    return ⟨u.fileName, .cached⟩
  else
    Disk.write path (Utf8.encode u.text)
    p.cache.storeFingerprint u.hintName fingerprint
    return ⟨u.fileName, .written⟩

/-- Removes what is left of a unit that is no longer generated: its file and its fingerprint. -/
def removeUnit (hintName : String) : DiskAction (Option FileFate) := do
  let d ← get
  let path := p.filePath (hintName ++ ".cs")
  if d.isThere path then
    Disk.removeFile path
    p.cache.forgetUnit hintName
    return some ⟨path.name, .removed⟩
  else
    p.cache.forgetUnit hintName
    return none

/-- The units in the cache that are not among some units. -/
def staleNames (d : Disk) (units : List GeneratedUnit) : List String :=
  (p.cache.unitNames d).filter fun n => !(units.map GeneratedUnit.hintName).contains n

/-- Writes the units of a run, and removes those that are no longer generated. -/
def writeUnits (units : List GeneratedUnit) : DiskAction WriteReport := do
  p.prepare
  let fates ← units.mapM p.writeUnit
  let d ← get
  let removed ← (p.staleNames d units).mapM p.removeUnit
  return ⟨fates, removed.filterMap id, p.outDirectory⟩

end OutputPlan

/-! ## Report -/

/-- A text filled with blanks to this width. -/
def padRight (width : Nat) (s : String) : String :=
  s ++ String.ofList (List.replicate (width - s.length) ' ')

/-- The line about a file. -/
def FileFate.line (f : FileFate) : String :=
  "  " ++ padRight 40 f.fileName ++ " [" ++ f.fate.title ++ "]"

namespace WriteReport

variable (w : WriteReport)

/-- The number of units with this fate. -/
def count (fate : UnitFate) : Nat := w.units.countP fun f => f.fate == fate

/-- The last line of a report. -/
def summary : String :=
  toString w.units.length ++ " units (" ++ toString (w.count .cached) ++ " cached, " ++
    toString (w.count .written) ++ " written) -> " ++ Location.text w.outDirectory

/-- What is printed of the units. -/
def lines : List String :=
  "Generated units:" :: (w.units ++ w.stale).map FileFate.line ++ ["", w.summary]

end WriteReport

/-- The name of the unit that is registered under a hint name: what stands before the last dot. -/
def unitName (hintName : String) : String :=
  let reversed := hintName.toList.reverse
  match reversed.dropWhile (· != '.') with
  | [] => hintName
  | _ :: before => String.ofList before.reverse

/-- The units that a run writes: those of the generator itself, and then those it generated. -/
def RunResult.outputUnits (r : RunResult) : List GeneratedUnit :=
  markerSources.map (fun s => ⟨unitName s.1, s.1, s.2⟩) ++ r.registry.units

end Facade
