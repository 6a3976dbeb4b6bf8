import Facade.Diagnostic.Catalog
import Facade.Generator.Outcome
import Facade.Generator.Pass
import Facade.Grammar.SyntaxError

/-!
# Diagnostics

What a run has to say of its sources, in the order in which it was said.

* `Diagnostic`, `Reporter`: messages with the file and the place they belong to;
* `Reporter.exitCode`: how a run ends;
* `Skip.finding?`, `Notice.finding`, `Reporter.addOutcomes`: what is said of candidates;
* `Reporter.addSyntaxError`: what is said of a source without a tree.
-/

namespace Facade

/-- A message about a file, and perhaps about a place in it. -/
structure Diagnostic where
  severity : Severity
  code : String
  message : String
  span : Option Span
  filename : String
deriving Repr, DecidableEq

/-- The messages so far. `source` is the text of the file that the reporter is named after, if it is
at hand. -/
structure Reporter where
  source : Option String
  filename : String
  items : List Diagnostic
deriving Repr, DecidableEq

namespace Reporter

/-- The name of what is read from no file. -/
def unnamed : String := "<input>"

/-- A reporter with nothing to say. -/
def empty (source : Option String) (filename : String) : Reporter := ⟨source, filename, []⟩

/-- A reporter for the files of a run. -/
def fresh : Reporter := empty none unnamed

variable (r : Reporter)

/-- Adds a message; one without a file name belongs to the file of the reporter. -/
def add (severity : Severity) (code message : String) (span : Option Span)
    (filename : Option String) : Reporter :=
  let file := match filename with
    | some f => if f.isEmpty then r.filename else f
    | none => r.filename
  { r with items := r.items ++ [⟨severity, code, message, span, file⟩] }

/-- Adds the message of an entry of the catalog. -/
def emit (e : CatalogEntry) (span : Option Span) (filename : Option String) (a : Arguments) :
    Except MissingField Reporter :=
  (e.text? a).map fun text => r.add e.severity e.code text span filename

/-- Some message is an error. -/
def hasErrors : Bool := r.items.any fun d => d.severity == .error

/-- Some message is a warning. -/
def hasWarnings : Bool := r.items.any fun d => d.severity == .warning

/-- How a run with these messages ends: 2 if there are errors, 1 if there are warnings only. -/
def exitCode : Nat := if r.hasErrors then 2 else if r.hasWarnings then 1 else 0

end Reporter

/-! ## Findings -/

/-- A message of the catalog with the values of its fields, about a place. -/
structure Finding where
  entry : CatalogEntry
  arguments : Arguments
  span : Option Span
  filename : Option String
deriving Repr, DecidableEq

/-- The text of a finding. -/
def Finding.text (f : Finding) : String := f.entry.template.fill f.arguments

/-- What is said of a candidate without a facade; types that ask for none are passed over. -/
def Skip.finding? (s : Skip) : Option Finding :=
  match s.reason with
  | .notAnInterface =>
    some ⟨Catalog.notAnInterface, [("container", s.container), ("target", s.detail)],
      s.span, s.filename⟩
  | .noNamespace => some ⟨Catalog.noNamespace, [("container", s.container)], s.span, s.filename⟩
  | .unsupportedAccessibility =>
    some ⟨Catalog.unsupportedAccessibility,
      [("container", s.container), ("accessibility", s.detail)], s.span, s.filename⟩
  | .noSymbol | .noMarker => none

/-- What is said of a candidate with a facade. -/
def Notice.finding (n : Notice) : Finding :=
  match n.kind with
  | .multipleMarkers =>
    ⟨Catalog.multipleMarkers,
      [("container", n.container), ("count", toString n.count), ("target", n.detail)],
      n.span, n.filename⟩
  | .notPartial => ⟨Catalog.notPartial, [("container", n.container)], n.span, n.filename⟩
  | .emptyInterface =>
    ⟨Catalog.emptyInterface, [("container", n.container), ("target", n.detail)],
      n.span, n.filename⟩

/-- What is said of a source without a tree. -/
def SyntaxError.finding (e : SyntaxError) (filename : Option String) : Finding :=
  ⟨Catalog.syntaxError, [("message", e.fault.message)],
    if e.line > 0 then some ⟨e.line, e.column, e.line, e.column⟩ else none, filename⟩

namespace Reporter

variable (r : Reporter)

/-- Adds a finding. -/
def report (f : Finding) : Reporter :=
  r.add f.entry.severity f.entry.code f.text f.span f.filename

/-- Adds what is said of a source without a tree. -/
def addSyntaxError (e : SyntaxError) (filename : Option String) : Reporter :=
  r.report (e.finding filename)

/-- Adds what is said of the candidates of a pass. -/
def addOutcomes (registry : Registry) : Reporter :=
  (registry.skips.filterMap Skip.finding? ++ registry.notices.map Notice.finding).foldl report r

end Reporter

end Facade
