import Facade.Disk.Path
import Facade.Text.Lines
import Facade.Text.Quoted
import Facade.Text.Utf8

/-!
# Disks

A tree of files as a value, and the actions that change it. An action that cannot be done leaves the
disk as it is up to that step, and says why.

* `Entry`, `Disk`, `Disk.entry?`: files and directories by their places;
* `Disk.find?`: what a written path leads to, part by part from the root;
* `DiskFault`, `DiskAction`: actions that may fail;
* `Disk.write`, `Disk.makeDirectories`, `Disk.removeFile`, `Disk.removeTree`: the actions.
-/

namespace Facade

/-- What is at a place. -/
inductive Entry where
  | file (content : List UInt8)
  | directory
deriving Repr, DecidableEq

/-- The files and directories of a tree by their places, each place once. The root is always a
directory and is not listed. -/
structure Disk where
  entries : List (Location × Entry)
deriving Repr, DecidableEq

namespace Disk

/-- The disk with nothing on it. -/
def empty : Disk := ⟨[]⟩

variable (d : Disk)

/-- What is at a place. -/
def entry? (place : Location) : Option Entry :=
  if place = [] then some .directory
  else (d.entries.find? fun e => e.1 == place).map Prod.snd

/-- Something is at a place. -/
def isPresent (place : Location) : Bool := (d.entry? place).isSome

/-- A directory is at a place. -/
def isDirectory (place : Location) : Bool := d.entry? place == some .directory

/-- The content of the file at a place. -/
def read? (place : Location) : Option (List UInt8) :=
  match d.entry? place with
  | some (.file content) => some content
  | _ => none

/-- The text of a file, with its line ends unified. -/
def readText? (place : Location) : Option String := do
  let text ← (Utf8.decode (← d.read? place)).toOption
  return String.ofList (Text.unifyLineEnds text.toList)

/-- The names of what a directory holds. -/
def names (place : Location) : List String :=
  d.entries.filterMap fun e =>
    match Location.below? place e.1 with
    | some [name] => some name
    | _ => none

/-- The ways from a directory to everything below it. -/
def below (place : Location) : List (List String) :=
  d.entries.filterMap fun e => (Location.below? place e.1).filter fun way => !way.isEmpty

/-! ## Written paths -/

/-- The place that the parts of a path lead to from a place; every part starts from a directory. -/
def follow? (place : Location) : List String → Option Location
  | [] => some place
  | part :: rest => if d.isDirectory place then follow? (Location.step place part) rest else none

/-- The place that a path leads to from the root; there may be nothing at it. -/
def reach? (p : Path) : Option Location := d.follow? [] p.parts

/-- What a path leads to, and its place. -/
def find? (p : Path) : Option (Location × Entry) := do
  let place ← d.reach? p
  return (place, ← d.entry? place)

/-- A path leads to a file or a directory. -/
def isThere (p : Path) : Bool := (d.find? p).isSome

/-- The names of what the directory that a path leads to holds. -/
def namesAt (p : Path) : List String := ((d.reach? p).map d.names).getD []

/-- The text of the file that a path leads to. -/
def textAt? (p : Path) : Option String := (d.reach? p).bind d.readText?

/-! ## Changes -/

/-- The disk with this entry at a place. -/
def put (place : Location) (e : Entry) : Disk :=
  ⟨d.entries.filter (fun f => f.1 != place) ++ [(place, e)]⟩

/-- The disk without what is at a place. -/
def erase (place : Location) : Disk := ⟨d.entries.filter fun f => f.1 != place⟩

/-- The disk without what is at a place or below it. -/
def eraseTree (place : Location) : Disk :=
  ⟨d.entries.filter fun f => !place.isPrefixOf f.1⟩

/-- The disk without what is below a place. -/
def eraseBelow (place : Location) : Disk :=
  ⟨d.entries.filter fun f => !place.isPrefixOf f.1 || f.1 == place⟩

end Disk

/-- Why an action cannot be done. -/
inductive DiskFault where
  /-- A directory is in the way of a file. -/
  | isDirectory (path : Path)
  /-- A file is in the way of a directory. -/
  | notDirectory (path : Path)
  /-- Nothing is there. -/
  | missing (path : Path)
  /-- A directory is not named by the path that leads to it. -/
  | unnamed (path : Path)
deriving Repr, DecidableEq

/-- The fault in words. -/
def DiskFault.message : DiskFault → String
  | isDirectory p => "is a directory: " ++ Text.quote p.text
  | notDirectory p => "not a directory: " ++ Text.quote p.text
  | missing p => "no such file or directory: " ++ Text.quote p.text
  | unnamed p => "not the name of a directory: " ++ Text.quote p.text

/-- An action on a disk. -/
abbrev DiskAction := EStateM DiskFault Disk

namespace Disk

/-- Writes a file into a directory, in the place of any other file. -/
def write (p : Path) (content : List UInt8) : DiskAction Unit := fun d =>
  match d.reach? p with
  | some place =>
    if d.isDirectory place then .error (.isDirectory p) d
    else .ok () (d.put place (.file content))
  | none => .error (.missing p) d

/-- Goes from a directory to where a part of a path leads, and makes a directory if nothing is there. -/
def enter (place : Location) (part : String) : DiskAction Location := fun d =>
  let next := Location.step place part
  if d.isDirectory place then
    match d.entry? next with
    | some .directory => .ok next d
    | some (.file _) => .error (.notDirectory (.ofLocation next)) d
    | none => .ok next (d.put next .directory)
  else .error (.missing (.ofLocation place)) d

/-- Makes the directories on the way that a path goes, as far as they are not there. A part that the
next one steps back from is on the way too. -/
def makeDirectories (p : Path) : DiskAction Unit := discard (p.parts.foldlM enter [])

/-- Writes a file, and makes the directories on the way to it as far as they are not there. -/
def writeWithParents (p : Path) (content : List UInt8) : DiskAction Unit := do
  makeDirectories p.parent
  write p content

/-- Removes a file. -/
def removeFile (p : Path) : DiskAction Unit := fun d =>
  match d.find? p with
  | some (place, .file _) => .ok () (d.erase place)
  | some (_, .directory) => .error (.isDirectory p) d
  | none => .error (.missing p) d

/-- Removes a directory with everything in it. One that the path only stays at or steps back to is emptied,
but it cannot be removed itself. -/
def removeTree (p : Path) : DiskAction Unit := fun d =>
  match d.find? p with
  | some (place, .directory) =>
    if p.endsInName then .ok () (d.eraseTree place) else .error (.unnamed p) (d.eraseBelow place)
  | some (_, .file _) => .error (.notDirectory p) d
  | none => .error (.missing p) d

end Disk

end Facade
