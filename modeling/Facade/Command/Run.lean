import Facade.Command.Options
import Facade.Command.Output
import Facade.Command.Sources
import Facade.Diagnostic.Render

/-!
# Runs of the program

What the program does on a disk for the words of a command line.

* `Setting`, `Ending`: what a run depends on besides the disk, and what it leaves;
* `Options.generate`: reads the sources, generates the facades and writes them;
* `Options.removeCache`: removes a cache;
* `run`: a run from its command line.
-/

namespace Facade

/-- What a run depends on besides its command line and the disk. -/
structure Setting where
  workingDirectory : Location
  cacheDirectory : Option String
  styling : Styling
deriving Repr, DecidableEq

/-- What a run leaves: its exit code, what it has to say, what it printed to the stream for errors, and
the disk. `facades` counts the facades of a run that came to its end. -/
structure Ending where
  exitCode : Nat
  output : String
  facades : Option Nat
  errors : String
  disk : Disk
deriving Repr, DecidableEq

/-- What a run that took this many seconds printed. -/
def Ending.printed (e : Ending) (elapsed : String) : String :=
  match e.facades with
  | some n => e.output ++ "Generated " ++ toString n ++ " facades in " ++ elapsed ++ "s\n"
  | none => e.output

/-- Lines, each ended. -/
def endLines (lines : List String) : String := String.join (lines.map fun l => l ++ "\n")

namespace Ending

/-- A run that has one thing to say. -/
def message (line : String) (d : Disk) : Ending := ⟨0, line ++ "\n", none, "", d⟩

/-- A run that could not begin. -/
def complaint (line : String) (d : Disk) : Ending := ⟨2, "", none, line ++ "\n", d⟩

/-- A run that the disk brought to its end. -/
def failed (output : String) (fault : DiskFault) (d : Disk) : Ending :=
  ⟨1, output, none, "error: " ++ fault.message ++ "\n", d⟩

end Ending

/-- The text that is given, unless it is empty. -/
def given? (text : Option String) : Option String := text.filter fun t => !t.isEmpty

/-! ## Generation -/

namespace Options

variable (o : Options) (s : Setting)

/-- The paths of the sources. -/
def sourcePaths : List Path := o.sources.map Path.ofString

/-- The directory of the project: the first source, or what holds it. -/
def project (d : Disk) : Path :=
  match o.sourcePaths with
  | [] => .ofLocation s.workingDirectory
  | first :: _ =>
    match d.find? (first.absolute s.workingDirectory) with
    | some (_, .directory) => first
    | _ => first.parent

/-- The name of the directory of generated files in a project. -/
def outDirectoryName : String := "Generated"

/-- The directory that units are written to. -/
def outPath (d : Disk) : Path :=
  match given? o.out with
  | some p => .ofString p
  | none => (o.project s d).child outDirectoryName

/-- The directory of the cache. -/
def cachePath (d : Disk) : Path :=
  Cache.pathFor (o.project s d) ((given? (o.cacheDir <|> s.cacheDirectory)).map Path.ofString)

/-- Where units are written, and where the cache is. -/
def plan (d : Disk) : OutputPlan :=
  { outDirectory := (o.outPath s d).locate s.workingDirectory
    cachePath := (o.cachePath s d).absolute s.workingDirectory
    incremental := !o.noIncremental }

end Options

/-- The sources of a run and what was generated from them. -/
structure Generated where
  places : List Location
  trees : List Tree
  result : RunResult
  reporter : Reporter

namespace Options

variable (o : Options) (s : Setting)

/-- Reads the sources and generates the facades; none if there is no source to read, and nothing is
said of one. -/
def gather (d : Disk) : Option Generated :=
  let (r, places) := Reporter.fresh.collect d s.workingDirectory o.sourcePaths
  if places.isEmpty && !r.hasErrors then none
  else
    let (r, sources) := r.load d places
    match (Generator.forRuns !o.noIncremental).run (sources.map Prod.snd) .never with
    | .ok (result, _) =>
      let r := if o.diagnostics then r.addOutcomes result.registry else r
      some ⟨places, sources.map Prod.fst, result, r⟩
    | .error _ => none

/-- What is printed of the sources. -/
def sourceLines (g : Generated) : List String :=
  (if o.dumpTree then g.trees.map Tree.outline else []) ++
    if g.places.length > 1 then
      ["Found " ++ toString g.places.length ++ " sources (" ++ toString g.trees.length ++ " parsed)"]
    else []

/-- What is printed of units that are not written. -/
def unitLines (units : List GeneratedUnit) : List String :=
  units.flatMap fun u => ["// ---- " ++ u.fileName, u.text]

/-- Writes or prints the units of a run: what is printed of them. -/
def deliver (plan : OutputPlan) (g : Generated) : DiskAction (List String) :=
  if o.dumpUnits then return unitLines g.result.outputUnits
  else do return (← plan.writeUnits g.result.outputUnits).lines

/-- What is printed of the diagnostics of a run; the excerpts show the files as they are then. -/
def diagnosticText (d : Disk) (r : Reporter) : String :=
  r.printed s.workingDirectory
    (fun name => d.textAt? ((Path.ofString name).absolute s.workingDirectory))
    s.styling

/-- Reads the sources, generates the facades and writes them. -/
def generate (d : Disk) : Ending :=
  match o.gather s d with
  | none => .complaint "No C# sources found." d
  | some g =>
    match (o.deliver (o.plan s d) g).run d with
    | .ok lines after =>
      { exitCode := g.reporter.exitCode
        output := endLines (o.sourceLines g ++ lines)
        facades := some g.result.registry.units.length
        errors := diagnosticText s after g.reporter
        disk := after }
    | .error fault after => .failed (endLines (o.sourceLines g)) fault after

/-- Removes the cache. -/
def removeCache (d : Disk) : Ending :=
  let written := o.cachePath s d
  let path := written.absolute s.workingDirectory
  if d.isThere path then
    match (Disk.removeTree path).run d with
    | .ok () after => .message ("Removed cache: " ++ written.text) after
    | .error fault after => .failed "" fault after
  else .message "No cache found." d

/-- What is asked for, after the banner. -/
def perform (d : Disk) : Ending :=
  if o.cleanCache then o.removeCache s d
  else if o.sources.isEmpty then
    .complaint "error: at least one source file or directory is required" d
  else o.generate s d

end Options

/-! ## Runs -/

/-- The ending of a run that began with the banner. -/
def Ending.withBanner (e : Ending) : Ending := { e with output := banner ++ e.output }

/-- How the program is used. -/
def usage : String :=
  endLines ["usage: " ++ programName ++ " [options] [sources ...]", "",
    "Generate forwarding facades for C# partial types", "", "options:",
    "  -h, --help           show this text and exit",
    "  --version            show the version and exit",
    "  -o, --out DIR        output directory (default: <first source dir>/Generated)",
    "  --diagnostics        report skipped candidates and questionable facades as warnings",
    "  --dump-tree          print the tree of every source",
    "  --dump-units         print generated units instead of writing them",
    "  --no-incremental     write every unit, ignoring cached fingerprints",
    "  --clean-cache        remove the cache and exit",
    "  --cache-dir PATH     cache directory (default: " ++ Cache.directoryName ++ ")",
    "  --no-banner          do not print the version banner"]

/-- A run of the program on a disk. -/
def run (s : Setting) (arguments : List String) (d : Disk) : Ending :=
  match Options.parse arguments with
  | .error fault => .complaint (programName ++ ": error: " ++ fault.message) d
  | .ok .help => ⟨0, usage, none, "", d⟩
  | .ok (.run o) =>
    if o.version then .message versionLine d
    else if o.noBanner then o.perform s d
    else (o.perform s d).withBanner

end Facade
