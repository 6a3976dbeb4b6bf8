/-!
# Positions and spans

Where something stands in a source text. Lines are divided by the line feed alone, and columns count
characters; both start at one.

* `Position.advance`, `Position.after`: how a position moves over text;
* `Extent`: the stretch of a source between two positions, and `Extent.text`, what it covers;
* `Span`: the lines and columns of a stretch, as diagnostics show them.
-/

namespace Facade

/-- A place in a source text: characters before it, line and column. -/
structure Position where
  offset : Nat
  line : Nat
  column : Nat
deriving Repr, DecidableEq, Inhabited

namespace Position

/-- The first character of a source. -/
def start : Position := ⟨0, 1, 1⟩

/-- The place after one more character; a line feed begins the next line. -/
def advance (p : Position) (c : Char) : Position :=
  if c = '\n' then ⟨p.offset + 1, p.line + 1, 1⟩ else ⟨p.offset + 1, p.line, p.column + 1⟩

/-- The place after a stretch of text. -/
def after (p : Position) (cs : List Char) : Position := cs.foldl advance p

end Position

/-- The lines and columns a stretch of source runs over; the end column is just past the last
character. Spans that do not come from a source may hold any numbers. -/
structure Span where
  line : Int
  column : Int
  endLine : Int
  endColumn : Int
deriving Repr, DecidableEq, Inhabited

/-- A stretch of source between two positions. -/
structure Extent where
  start : Position
  stop : Position
deriving Repr, DecidableEq, Inhabited

namespace Extent

/-- The stretch from the start of the first to the end of the second. -/
def join (a b : Extent) : Extent := ⟨a.start, b.stop⟩

/-- The lines and columns of the stretch. -/
def span (e : Extent) : Span :=
  ⟨e.start.line, e.start.column, e.stop.line, e.stop.column⟩

/-- The characters of `source` that the stretch covers. -/
def text (e : Extent) (source : List Char) : String :=
  String.ofList ((source.drop e.start.offset).take (e.stop.offset - e.start.offset))

end Extent

end Facade
