import Facade.Cache.Manifest
import Facade.Disk.Basic
import Facade.Text.CharClass

/-!
# Caches

A cache keeps the fingerprint of every unit that was written, next to a manifest. It is a directory
with the manifest and one file for each unit.

* `Cache`, `Cache.manifest`: a cache, and what its manifest has to say;
* `Cache.isValid`: whether it can be used;
* `Cache.storeFingerprint`, `Cache.hasUnit`, `Cache.unitNames`: the units it knows;
* `Cache.rebuild`, `Cache.wipe`: a new start.
-/

namespace Facade

/-- A cache at the end of a path from the root, for a directory of generated files. A manifest is read
once and remembered. -/
structure Cache where
  path : Path
  outDirectory : Option Location
  remembered : Option Json

namespace Cache

/-- The name of the directory of a cache. -/
def directoryName : String := "__facadegen_cache__"

/-- The name of the file of a manifest. -/
def manifestName : String := "cache.json"

/-- The name of the directory of fingerprints. -/
def unitsName : String := "units"

/-- The ending of the names of files with fingerprints. -/
def fingerprintEnding : String := ".fingerprint"

/-- The path of the cache of a project, unless another one is given. -/
def pathFor (project : Path) (given : Option Path) : Path :=
  given.getD (project.child directoryName)

/-- The cache at the end of a path, before its manifest is read. -/
def ofPath (path : Path) (outDirectory : Option Location) : Cache := ⟨path, outDirectory, none⟩

variable (c : Cache)

/-- Where the manifest is. -/
def manifestPath : Path := c.path.child manifestName

/-- Where the fingerprints are. -/
def unitsPath : Path := c.path.child unitsName

/-- Where the fingerprint of a unit is. -/
def fingerprintPath (hintName : String) : Path := c.unitsPath.child (hintName ++ fingerprintEnding)

/-! ## The manifest -/

/-- What the manifest has to say. -/
def manifest : Manifest := ⟨version, c.outDirectory.map Location.text⟩

/-- The manifest on a disk; one that says nothing counts as none. -/
def storedManifest? (d : Disk) : Option Json :=
  ((d.textAt? c.manifestPath).bind Json.parse).filter fun j => !j.isNull

/-- The manifest that is remembered, or else the one on a disk. -/
def manifest? (d : Disk) : Option Json := c.remembered <|> c.storedManifest? d

/-- The cache can be used: it was made by this version for the same directory. -/
def isValid (d : Disk) : Bool :=
  match c.manifest? d with
  | some j => c.manifest.agrees j
  | none => false

/-- Whether the cache can be used, and the cache after its manifest was looked at. -/
def check (d : Disk) : Bool × Cache := (c.isValid d, { c with remembered := c.manifest? d })

/-- Makes the directories of the cache. -/
def makeDirectories : DiskAction Unit := Disk.makeDirectories c.unitsPath

/-- Writes the manifest; the cache remembers it. -/
def writeManifest : DiskAction Cache := do
  c.makeDirectories
  Disk.write c.manifestPath (Utf8.encode c.manifest.text)
  return { c with remembered := Json.parse c.manifest.text }

/-- Removes the cache from the disk; it remembers no manifest any more. -/
def wipe : DiskAction Cache := do
  let d ← get
  if d.isThere c.path then Disk.removeTree c.path
  return { c with remembered := none }

/-- Begins a new cache in the place of the old one. -/
def rebuild : DiskAction Cache := do
  (← c.wipe).writeManifest

/-! ## Units -/

/-- The fingerprint that is kept for a unit. -/
def fingerprint? (d : Disk) (hintName : String) : Option String :=
  (d.textAt? (c.fingerprintPath hintName)).map Text.trimBlanks

/-- The unit was written with this fingerprint, and its file at `written` is still there. -/
def hasUnit (d : Disk) (hintName fingerprint : String) (written : Path) : Bool :=
  d.isThere written && c.fingerprint? d hintName == some fingerprint

/-- Keeps the fingerprint of a unit. -/
def storeFingerprint (hintName fingerprint : String) : DiskAction Unit :=
  Disk.writeWithParents (c.fingerprintPath hintName) (Utf8.encode fingerprint)

/-- Forgets the fingerprint of a unit. -/
def forgetUnit (hintName : String) : DiskAction Unit := do
  let d ← get
  if d.isThere (c.fingerprintPath hintName) then Disk.removeFile (c.fingerprintPath hintName)

/-- The name without this ending, if it has it. -/
def withoutEnding? (ending name : String) : Option String :=
  if ending.toList.isSuffixOf name.toList then
    some (String.ofList (name.toList.take (name.length - ending.length)))
  else none

/-- The names of the units whose fingerprints are kept, in order. -/
def unitNames (d : Disk) : List String :=
  ((d.namesAt c.unitsPath).filterMap (withoutEnding? fingerprintEnding)).mergeSort
    fun a b => decide (a ≤ b)

end Cache

end Facade
