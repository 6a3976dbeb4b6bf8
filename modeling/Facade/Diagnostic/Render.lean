import Facade.Diagnostic.Reporter
import Facade.Disk.Path
import Facade.Text.Lines

/-!
# Diagnostics as text

A diagnostic is shown with the line it belongs to and a mark below the column. On a terminal the parts
of it are coloured, and a frame is drawn around the line.

* `Ink`, `Segment`: text with colours;
* `Styling`, `Styling.automatic`: whether there are colours and a frame;
* `Reporter.lines`, `Reporter.format`, `Reporter.printed`: the diagnostics of a reporter.
-/

namespace Facade

/-! ## Colours -/

/-- How a piece of text looks. -/
inductive Ink where
  | bold | dim | red | yellow | cyan | gray
deriving Repr, DecidableEq

/-- A sequence that controls a terminal. -/
def controlSequence (number : String) : String := "\x1b[" ++ number ++ "m"

/-- The sequence that turns a look on. -/
def Ink.sequence : Ink → String
  | bold => controlSequence "1"
  | dim => controlSequence "2"
  | red => controlSequence "31"
  | yellow => controlSequence "33"
  | cyan => controlSequence "36"
  | gray => controlSequence "90"

/-- The sequence that turns every look off. -/
def resetSequence : String := controlSequence "0"

/-- A piece of text and how it looks. -/
structure Segment where
  inks : List Ink
  text : String
deriving Repr, DecidableEq

/-- The segment as it is written, with or without colours. -/
def Segment.written (useColor : Bool) (s : Segment) : String :=
  if useColor && !s.inks.isEmpty then
    String.join (s.inks.map Ink.sequence) ++ s.text ++ resetSequence
  else s.text

/-- A line of segments as it is written. -/
def writeLine (useColor : Bool) (segments : List Segment) : String :=
  String.join (segments.map (Segment.written useColor))

/-! ## Styling -/

/-- Whether there are colours, and characters beyond ASCII for a frame. -/
structure Styling where
  useColor : Bool
  useUnicode : Bool
deriving Repr, DecidableEq

/-- The variables that say what a terminal can do. -/
structure TerminalSettings where
  term : Option String
  noColor : Option String
  noUnicode : Option String
deriving Repr, DecidableEq

/-- The styling of a stream: plain unless it is a terminal that can do more and may. -/
def Styling.automatic (isTerminal : Bool) (s : TerminalSettings) : Styling :=
  let able := isTerminal && s.term != some "dumb"
  ⟨able && s.noColor.isNone, able && s.noUnicode.isNone⟩

/-! ## Diagnostics -/

namespace Diagnostic

variable (d : Diagnostic)

/-- The colour of a severity. -/
def ink : Ink :=
  match d.severity with
  | .error => .red
  | .warning => .yellow

/-- The message as a sentence. -/
def sentence : String := if d.message.endsWith "." then d.message else d.message ++ "."

/-- The file and the place, as they are shown. -/
def place (base : Location) : String :=
  let file := showFile base d.filename
  match d.span with
  | some s => file ++ ":" ++ toString s.line ++ ":" ++ toString s.column
  | none => file

/-- The first line of a diagnostic. -/
def headline (base : Location) : List Segment :=
  [⟨[.cyan], d.place base⟩, ⟨[], ": "⟩, ⟨[.bold, d.ink], d.severity.title⟩, ⟨[], " ["⟩,
    ⟨[.dim], d.code⟩, ⟨[], "]: " ++ d.sentence⟩]

/-- The blanks before a column. -/
def indent (span : Span) : String := String.ofList (List.replicate (span.column - 1).toNat ' ')

/-- The lines of a diagnostic about a place: `line` is the line of the source. -/
def excerpt (useUnicode : Bool) (base : Location) (span : Span) (line : String) :
    List (List Segment) :=
  if useUnicode then
    let guide := String.ofList (List.replicate ((max 1 span.column).toNat + 1) '─')
    [⟨[.gray], "  ╭──┤ "⟩ :: d.headline base,
      [⟨[.gray], "  │"⟩, ⟨[], "  " ++ line⟩],
      [⟨[.gray], "  │"⟩, ⟨[], "  "⟩, ⟨[d.ink], indent span ++ "┯"⟩],
      [⟨[.gray], "  ╰" ++ guide⟩, ⟨[d.ink], "╯"⟩]]
  else
    [d.headline base, [⟨[], "  | " ++ line⟩], [⟨[], "  ` " ++ indent span ++ "^"⟩]]

end Diagnostic

/-- The line with this number, counted from one; empty if there is none. -/
def lineAt (source : String) (number : Int) : String :=
  if number < 1 then "" else ((Text.splitLines source)[(number - 1).toNat]?).getD ""

namespace Reporter

variable (r : Reporter)

/-- The text of the file of a diagnostic. -/
def sourceOf (files : String → Option String) (d : Diagnostic) : String :=
  (if d.filename.isEmpty || d.filename == r.filename then r.source else files d.filename).getD ""

/-- The lines of one diagnostic; `base` is the working directory, and `files` the texts of files. -/
def linesOf (base : Location) (files : String → Option String) (useUnicode : Bool)
    (d : Diagnostic) : List (List Segment) :=
  match d.span with
  | none => [d.headline base]
  | some s => d.excerpt useUnicode base s (lineAt (r.sourceOf files d) s.line)

/-- The lines of all diagnostics. -/
def lines (base : Location) (files : String → Option String) (useUnicode : Bool) :
    List (List Segment) :=
  r.items.flatMap (r.linesOf base files useUnicode)

/-- All diagnostics as text. -/
def format (base : Location) (files : String → Option String) (style : Styling) : String :=
  "\n".intercalate ((r.lines base files style.useUnicode).map (writeLine style.useColor))

/-- All diagnostics as they are printed. -/
def printed (base : Location) (files : String → Option String) (style : Styling) : String :=
  let text := r.format base files style
  if text.isEmpty then "" else text ++ "\n"

end Reporter

end Facade
