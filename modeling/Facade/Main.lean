import Facade.Command.Run
import Facade.Disk.Change

/-!
# The program

Reads the part of the disk that a run depends on, runs the program on it, and does to the disk what the
run has changed.
-/

namespace Facade.Command

/-- How deep trees of files are followed. -/
def greatestDepth : Nat := 100

/-- Adds what is at a place and below it to a disk. -/
def readTree : Nat → Location → Disk → IO Disk
  | 0, _, d => return d
  | depth + 1, place, d => do
    let here ← IO.currentDir
    let path := here / Location.text place
    if !(← path.pathExists) then return d
    if ← path.isDir then
      let mut d := d.put place .directory
      for entry in ← path.readDir do
        d ← readTree depth (place ++ [entry.fileName]) d
      return d
    return d.put place (.file (← IO.FS.readBinFile path).data.toList)

/-- Adds what is at a place to a disk, but nothing below it. -/
def readEntry (d : Disk) (place : Location) : IO Disk := do
  let here ← IO.currentDir
  let path := here / Location.text place
  if d.isPresent place then return d
  if !(← path.pathExists) then return d
  if ← path.isDir then return d.put place .directory
  return d.put place (.file (← IO.FS.readBinFile path).data.toList)

/-- The places on the way that a path goes from the root, the last one included. -/
def stages (p : Path) : List Location :=
  (List.range (p.parts.length + 1)).map fun n => (Path.mk p.root (p.parts.take n)).locate []

/-- Adds the way that a path goes, what it leads to and what is below that to a disk. -/
def readPath (d : Disk) (p : Path) : IO Disk := do
  readTree greatestDepth (p.locate []) (← (stages p).foldlM readEntry d)

/-- Does a step to the disk. -/
def apply (c : Change) : IO Unit := do
  let here ← IO.currentDir
  match c with
  | .removeFile place => IO.FS.removeFile (here / Location.text place)
  | .removeDirectory place => IO.FS.removeDir (here / Location.text place)
  | .makeDirectory place => IO.FS.createDir (here / Location.text place)
  | .writeFile place content => IO.FS.writeBinFile (here / Location.text place) ⟨content.toArray⟩

/-- The part of the disk that a command line is about. -/
def readDisk (s : Setting) (arguments : List String) : IO Disk := do
  let d ← (stages (.ofLocation s.workingDirectory)).foldlM readEntry .empty
  match Options.parse arguments with
  | .ok (.run o) =>
    let d ← (o.sourcePaths.map (Path.absolute s.workingDirectory)).foldlM readPath d
    let plan := o.plan s d
    let d ← readPath d (.ofLocation plan.outDirectory)
    readPath d plan.cachePath
  | _ => return d

/-- Milliseconds as seconds with two decimal places. -/
def secondsText (milliseconds : Nat) : String :=
  let hundredths := milliseconds / 10
  let places := toString (hundredths % 100)
  toString (hundredths / 100) ++ "." ++ (if places.length < 2 then "0" ++ places else places)

end Facade.Command

/-- Runs the program in the working directory. -/
def main (arguments : List String) : IO UInt32 := do
  let begun ← IO.monoMsNow
  let here ← IO.currentDir
  let errors ← IO.getStderr
  let terminal : Facade.TerminalSettings :=
    ⟨← IO.getEnv "TERM", ← IO.getEnv "NO_COLOR", ← IO.getEnv "NO_UNICODE"⟩
  let setting : Facade.Setting :=
    { workingDirectory := (Facade.Path.ofString here.toString).locate []
      cacheDirectory := ← IO.getEnv "FACADEGEN_CACHE_DIR"
      styling := .automatic (← errors.isTty) terminal }
  let before ← Facade.Command.readDisk setting arguments
  let ending := Facade.run setting arguments before
  (Facade.Disk.changes before ending.disk).forM Facade.Command.apply
  let finished ← IO.monoMsNow
  IO.print (ending.printed (Facade.Command.secondsText (finished - begun)))
  errors.putStr ending.errors
  return UInt32.ofNat ending.exitCode
