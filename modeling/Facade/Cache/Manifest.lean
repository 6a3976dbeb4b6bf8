import Facade.Json.Reader
import Facade.Version

/-!
# Manifests

A cache has a manifest, which says which version of the generator wrote it and for which directory of
generated files. A cache whose manifest says something else is of no use.

* `Manifest`, `Manifest.text`: what a manifest says, and how it is written;
* `Manifest.agrees`: whether what was read says the same.
-/

namespace Facade

/-- What a cache was made for. -/
structure Manifest where
  version : String
  outDirectory : Option String
deriving Repr, DecidableEq

namespace Manifest

/-- The name of the version in a manifest. -/
def versionField : String := "generator_version"

/-- The name of the directory of generated files in a manifest. -/
def outDirectoryField : String := "out_dir"

/-- A field of a manifest as it is written. -/
def fieldText (name value : String) : String := "  " ++ Json.quote name ++ ": " ++ value

/-- A manifest as it is written. -/
def text (m : Manifest) : String :=
  let directory := match m.outDirectory with
    | some s => Json.quote s
    | none => "null"
  "\x7b\n" ++ fieldText versionField (Json.quote m.version) ++ ",\n" ++
    fieldText outDirectoryField directory ++ "\n\x7d"

/-- Whether a value says the same as the manifest; a directory that is not given is null. -/
def agrees (m : Manifest) (j : Json) : Bool :=
  let directory := (j.get? outDirectoryField).getD .null
  ((j.get? versionField).getD .null).isString m.version &&
    match m.outDirectory with
    | some s => directory.isString s
    | none => directory.isNull

end Manifest

end Facade
