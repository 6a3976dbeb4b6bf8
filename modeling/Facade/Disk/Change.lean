import Facade.Disk.Basic

/-!
# Changes of disks

What has to be done to turn one disk into another.

* `Change`, `Disk.changes`: the steps, in an order in which each can be done.
-/

namespace Facade

/-- A step that changes a disk. -/
inductive Change where
  | removeFile (place : Location)
  | removeDirectory (place : Location)
  | makeDirectory (place : Location)
  | writeFile (place : Location) (content : List UInt8)
deriving Repr, DecidableEq

namespace Disk

/-- The place of a file, if the entry is one. -/
def fileOf? (e : Location × Entry) : Option (Location × List UInt8) :=
  match e.2 with
  | .file content => some (e.1, content)
  | .directory => none

/-- The place of a directory, if the entry is one. -/
def directoryOf? (e : Location × Entry) : Option Location :=
  match e.2 with
  | .file _ => none
  | .directory => some e.1

/-- Places with those further up first. -/
def outermostFirst (places : List Location) : List Location :=
  places.mergeSort fun a b => decide (a.length ≤ b.length)

/-- The steps from one disk to another: files go before the directories they are in, and come after
them. -/
def changes (before after : Disk) : List Change :=
  let lostFiles := (before.entries.filterMap fileOf?).filter fun f => (after.read? f.1).isNone
  let lostDirectories :=
    (before.entries.filterMap directoryOf?).filter fun p => !after.isDirectory p
  let newDirectories :=
    (after.entries.filterMap directoryOf?).filter fun p => !before.isDirectory p
  let newFiles :=
    (after.entries.filterMap fileOf?).filter fun f => before.read? f.1 != some f.2
  lostFiles.map (fun f => .removeFile f.1) ++
    (outermostFirst lostDirectories).reverse.map Change.removeDirectory ++
    (outermostFirst newDirectories).map Change.makeDirectory ++
    newFiles.map fun f => .writeFile f.1 f.2

end Disk

end Facade
