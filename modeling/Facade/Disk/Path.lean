import Facade.Text.Split

/-!
# Paths

Paths as they are written, and the places in a tree of files that they lead to.

* `Location`: a place, by the names on the way to it from the root;
* `Path`: a written path without its empty and idle parts;
* `Path.absolute`: a path as it is written from the root;
* `Path.locate`: the place a path leads to from a working directory, whatever is there;
* `showFile`: how messages name a file.
-/

namespace Facade

/-- A place in a tree of files: the names on the way from the root. -/
abbrev Location := List String

namespace Location

/-- The part is no name: a single dot leads nowhere, two dots lead one step back. -/
def isDots (part : String) : Bool := part == "." || part == ".."

/-- The place that a part of a path leads to. -/
def step (place : Location) (part : String) : Location :=
  if part = "." then place else if part = ".." then place.dropLast else place ++ [part]

/-- The text of a place. -/
def text (place : Location) : String := "/" ++ "/".intercalate place

/-- The way to a place from one above it. -/
def below? (base place : Location) : Option (List String) :=
  if base.isPrefixOf place then some (place.drop base.length) else none

end Location

/-- A written path. Paths with a root lead from there, the others from a working directory. -/
structure Path where
  root : String
  parts : List String
deriving Repr, DecidableEq

namespace Path

/-- The root of a written path; two slashes at its start are kept. -/
def rootOf : List Char → String
  | '/' :: '/' :: '/' :: _ => "/"
  | '/' :: '/' :: _ => "//"
  | '/' :: _ => "/"
  | _ => ""

/-- A path as it is written: empty parts and single dots lead nowhere. -/
def ofString (s : String) : Path :=
  ⟨rootOf s.toList, (Text.split '/' s).filter fun p => p != "" && p != "."⟩

/-- The text of a path; a single dot stands for the path without parts. -/
def text (p : Path) : String :=
  if p.root.isEmpty && p.parts.isEmpty then "." else p.root ++ "/".intercalate p.parts

/-- The second path, from where the first one leads. -/
def join (p q : Path) : Path := if q.root.isEmpty then ⟨p.root, p.parts ++ q.parts⟩ else q

/-- The entry of this name where the path leads. -/
def child (p : Path) (name : String) : Path := p.join (ofString name)

/-- The path without its last part. -/
def parent (p : Path) : Path := ⟨p.root, p.parts.dropLast⟩

/-- The last part of a path. -/
def name (p : Path) : String := p.parts.getLast?.getD ""

/-- The place that a path leads to from a working directory, by its text alone. -/
def locate (base : Location) (p : Path) : Location :=
  p.parts.foldl Location.step (if p.root.isEmpty then base else [])

/-- The path of a place. -/
def ofLocation (place : Location) : Path := ⟨"/", place⟩

/-- The path from the root, for a path from a working directory. Steps back are kept: what is on the way
decides where they lead. The path of the working directory itself ends in a single dot, as it is
written. -/
def absolute (base : Location) (p : Path) : Path :=
  if p.root.isEmpty && p.parts.isEmpty then ⟨"/", base ++ ["."]⟩ else (ofLocation base).join p

/-- The last part of the path is the name of what it leads to. -/
def endsInName (p : Path) : Bool := p.parts.getLast?.any fun part => !Location.isDots part

/-- No file has this path: names of files do not hold a null character. -/
def isUnusable (p : Path) : Bool := p.parts.any fun part => part.toList.contains '\x00'

end Path

/-- How messages name a file: by the way from the working directory, or by its name alone if it lies
elsewhere or nowhere. -/
def showFile (base : Location) (filename : String) : String :=
  let p := Path.ofString filename
  if p.isUnusable then p.name
  else
    match Location.below? base (p.locate base) with
    | some parts => "./" ++ (Path.mk "" parts).text
    | none => p.name

/-- The ending of a file name: from its last dot on, unless that is the first or last character. -/
def fileEnding (name : String) : String :=
  let reversed := name.toList.reverse
  let ending := reversed.takeWhile (· != '.')
  if ending.isEmpty || reversed.length ≤ ending.length + 1 then ""
  else String.ofList ('.' :: ending.reverse)

end Facade
