/-!
# Version

The version of the generator, which fingerprints and caches depend on.
-/

namespace Facade

/-- The version of the generator. -/
def version : String := "0.3.0"

/-- The version as it is shown. -/
def shownVersion : String := version ++ " (dev)"

/-- The name of the program. -/
def programName : String := "facadegen"

/-- The line that names the program and its version. -/
def versionLine : String := programName ++ " " ++ shownVersion

/-- What the program prints before it does anything. -/
def banner : String := programName ++ " - C# facade generator • " ++ shownVersion ++ "\n\n"

end Facade
