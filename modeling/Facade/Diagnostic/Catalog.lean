import Facade.Text.Quoted

/-!
# The catalog of messages

Every message has a code, and a text with fields that are filled in where it is used.

* `Template`, `Template.fill`: texts with fields;
* `CatalogEntry`, `Catalog.entries`, `Catalog.find?`: the messages;
* `MissingField.message`, `internalText`: what is said of a misused entry.
-/

namespace Facade

/-- How serious a message is. -/
inductive Severity where
  | error | warning
deriving Repr, DecidableEq

/-- The word for a severity. -/
def Severity.title : Severity → String
  | error => "error"
  | warning => "warning"

/-- What a message is about. -/
inductive Category where
  | parse | reading | resolution | shape | internal
deriving Repr, DecidableEq

/-- The word for a category. -/
def Category.title : Category → String
  | parse => "parse"
  | reading => "io"
  | resolution => "resolution"
  | shape => "shape"
  | internal => "internal"

/-! ## Texts with fields -/

/-- A part of a template: text as it is, or a field by its name. -/
inductive Piece where
  | text (t : String)
  | field (name : String)
deriving Repr, DecidableEq

/-- A text with fields. -/
abbrev Template := List Piece

/-- The values of fields. -/
abbrev Arguments := List (String × String)

/-- The value of a field, if it has one. -/
def Arguments.get? (a : Arguments) (name : String) : Option String :=
  (a.find? fun e => e.1 == name).map Prod.snd

namespace Template

/-- The template as it is written, with its fields between braces. -/
def source (t : Template) : String :=
  String.join (t.map fun
    | .text s => s
    | .field n => "\x7b" ++ n ++ "\x7d")

/-- The fields of a template, in order. -/
def fields (t : Template) : List String :=
  t.filterMap fun
    | .text _ => none
    | .field n => some n

/-- The first field that has no value. -/
def missing? (t : Template) (a : Arguments) : Option String :=
  t.fields.find? fun n => (a.get? n).isNone

/-- The text with the values in place of the fields. -/
def fill (t : Template) (a : Arguments) : String :=
  String.join (t.map fun
    | .text s => s
    | .field n => (a.get? n).getD "")

end Template

/-! ## Entries -/

/-- A message of the catalog. -/
structure CatalogEntry where
  code : String
  severity : Severity
  template : Template
  category : Category
  explanation : String
deriving Repr, DecidableEq

/-- A field of an entry was given no value. -/
structure MissingField where
  name : String
  entry : CatalogEntry
deriving Repr, DecidableEq

/-- What is said of a field without a value. -/
def MissingField.message (m : MissingField) : String :=
  "missing text key '" ++ m.name ++ "' for " ++ m.entry.code ++ " (needed by: " ++
    Text.quote m.entry.template.source ++ ")"

/-- The text of an entry, if all its fields have values. -/
def CatalogEntry.text? (e : CatalogEntry) (a : Arguments) : Except MissingField String :=
  match e.template.missing? a with
  | some name => .error ⟨name, e⟩
  | none => .ok (e.template.fill a)

namespace Catalog

/-- A mistake of the generator itself. -/
def invariantViolated : CatalogEntry :=
  ⟨"FG0001", .error, [.text "internal invariant violated: ", .field "message"], .internal,
    "Generator invariant violated; this is a bug, not a problem in user code."⟩

/-- A source that has no tree. -/
def syntaxError : CatalogEntry :=
  ⟨"FG1001", .error, [.text "syntax error: ", .field "message"], .parse,
    "The source file could not be parsed; it is excluded from generation."⟩

/-- A source that cannot be read. -/
def unreadableSource : CatalogEntry :=
  ⟨"FG1002", .error, [.text "cannot read source file: ", .field "reason"], .reading,
    "The source file could not be read from disk."⟩

/-- A marker whose type argument is no interface. -/
def notAnInterface : CatalogEntry :=
  ⟨"FG2001", .warning, [.text "'", .field "container", .text "' facades '", .field "target",
    .text "', which is not an interface; nothing generated"], .resolution,
    "The marker type argument must be an interface type."⟩

/-- A container in the global namespace. -/
def noNamespace : CatalogEntry :=
  ⟨"FG2002", .warning, [.text "'", .field "container",
    .text "' is not declared inside a namespace; nothing generated"], .shape,
    "Containers in the global namespace are not supported."⟩

/-- A container whose level of access cannot be declared. -/
def unsupportedAccessibility : CatalogEntry :=
  ⟨"FG2003", .warning, [.text "'", .field "container", .text "' has unsupported accessibility '",
    .field "accessibility", .text "'; nothing generated"], .shape,
    "Only private, private protected, protected, internal and public containers are supported."⟩

/-- A container that realizes the marker more than once. -/
def multipleMarkers : CatalogEntry :=
  ⟨"FG2004", .warning, [.text "'", .field "container", .text "' realizes the facade marker ",
    .field "count", .text " times; using '", .field "target", .text "'"], .resolution,
    "Only the first marker realization in interface order is facaded."⟩

/-- A container that is not partial. -/
def notPartial : CatalogEntry :=
  ⟨"FG2005", .warning, [.text "'", .field "container",
    .text "' is not declared partial; generated code will not compile"], .shape,
    "Facade containers must be declared with the partial modifier."⟩

/-- An interface without methods. -/
def emptyInterface : CatalogEntry :=
  ⟨"FG2006", .warning, [.text "'", .field "target", .text "' declares no methods; '",
    .field "container", .text "' only gets the accessor"], .resolution,
    "The generated unit contains the accessor declaration and no forwarding methods."⟩

/-- All messages. -/
def entries : List CatalogEntry :=
  [invariantViolated, syntaxError, unreadableSource, notAnInterface, noNamespace,
    unsupportedAccessibility, multipleMarkers, notPartial, emptyInterface]

/-- The message with this code. -/
def find? (code : String) : Option CatalogEntry := entries.find? fun e => e.code == code

end Catalog

/-! ## Mistakes of the generator -/

/-- Why a mistake of the generator cannot be put in words. -/
inductive CatalogFault where
  | unknownCode (code : String)
  | missingField (m : MissingField)
deriving Repr, DecidableEq

/-- The fault in words. -/
def CatalogFault.message : CatalogFault → String
  | unknownCode code => "unknown error code: " ++ code
  | missingField m => m.message

/-- The text that names a mistake of the generator by its code. -/
def internalText (code : String) (a : Arguments) : Except CatalogFault String :=
  match Catalog.find? code with
  | none => .error (.unknownCode code)
  | some e =>
    match e.text? a with
    | .error m => .error (.missingField m)
    | .ok text => .ok (code ++ ": " ++ text)

end Facade
