import Facade.Grammar.Scan
import Facade.Grammar.Terminal
import Facade.Text.Position

/-!
# Tokens

The next token of a source depends on the terminals that may stand there: a chunk, a name, a word or
punctuation is read only where the grammar admits it.

* `Token`: a terminal, its text and where it stands;
* `matchTerminal`: the terminal a text begins with, among those admitted;
* `Cursor.next`: the next token, or the fault of a text in which no token can be read.
-/

namespace Facade

/-- A token of a source. -/
structure Token where
  terminal : Terminal
  text : String
  extent : Extent
deriving Repr, DecidableEq, Inhabited

/-- What is left of a source, and where it begins. -/
structure Cursor where
  rest : List Char
  position : Position
deriving Repr, DecidableEq, Inhabited

namespace Cursor

open Scan

/-- The cursor at the beginning of a source. -/
def ofSource (source : List Char) : Cursor := ⟨source, .start⟩

/-- The cursor after a split of its text. -/
def past (c : Cursor) (s : Split) : Cursor := ⟨s.2, c.position.after s.1⟩

/-- The token a cursor reads by taking the first part of a split. -/
def token (c : Cursor) (t : Terminal) (s : Split) : Token :=
  ⟨t, String.ofList s.1, ⟨c.position, (c.past s).position⟩⟩

end Cursor

namespace Scan

/-- The chunks, in the order they are tried. -/
def chunkTerminals : List (Terminal × Chunk) := [
  (.parameterChunk, .inDefault), (.expressionChunk, .inExpression), (.bodyChunk, .inBody),
  (.attributeChunk, .inAttribute), (.argumentChunk, .inArguments)]

/-- The chunk a text begins with, among those admitted. -/
def matchChunk (admitted : TerminalSet) (cs : List Char) : Option (Terminal × Split) :=
  chunkTerminals.findSome? fun e =>
    if e.1 ∈ admitted then (scanChunk e.2 cs).map fun s => (e.1, s) else none

/-- A name stands for a word where that word is admitted, and for itself elsewhere. -/
def classifyName (admitted : TerminalSet) (name : List Char) : Terminal :=
  match Terminal.ofWord? (String.ofList name) with
  | some w => if w ∈ admitted then w else .name
  | none => .name

/-- Where names are admitted a word is read as a name first, and where operators are, so is the
punctuation that is also an operator. -/
def isReadByItself (admitted : TerminalSet) (t : Terminal) : Bool :=
  !(t.isWord && admitted.contains .name) &&
    !(t.isOperatorPunctuation && admitted.contains .operatorSymbol)

/-- The terminals of one spelling that a text begins with, the longest first. -/
def matchSpelled (admitted : TerminalSet) (cs : List Char) : Option (Terminal × Split) :=
  Terminal.spelled.findSome? fun e =>
    if e.1 ∈ admitted && isReadByItself admitted e.1 then
      (scanExact e.2.toList cs).map fun s => (e.1, s)
    else none

/-- An operator becomes the punctuation it is spelled like, where that is admitted. -/
def classifyOperator (admitted : TerminalSet) (symbol : List Char) : Terminal :=
  match Terminal.punctuation.find? fun e =>
      e.1.isOperatorPunctuation && e.1 ∈ admitted && e.2.toList == symbol with
  | some e => e.1
  | none => .operatorSymbol

/-- The operator a text begins with, where operators are admitted. -/
def matchOperator (admitted : TerminalSet) (cs : List Char) : Option (Terminal × Split) :=
  if .operatorSymbol ∈ admitted then
    (scanOperator cs).map fun s => (classifyOperator admitted s.1, s)
  else none

/-- The name a text begins with, where names are admitted. -/
def matchName (admitted : TerminalSet) (cs : List Char) : Option (Terminal × Split) :=
  if .name ∈ admitted then (scanName cs).map fun s => (classifyName admitted s.1, s) else none

/-- The terminal a text begins with, other than a chunk. -/
def matchTerminal (admitted : TerminalSet) (cs : List Char) : Option (Terminal × Split) :=
  matchName admitted cs <|> matchOperator admitted cs <|> matchSpelled admitted cs

/-- The terminals that count as expected where no token can be read: words that would be read as
names, and punctuation that would be read as operators, do not. -/
def readableAlone (admitted : TerminalSet) : TerminalSet :=
  admitted.filter fun t => isReadByItself admitted t && t != .endOfInput

end Scan

/-- What the reading of a token ends with. -/
inductive Reading where
  /-- A token, and the cursor after it. -/
  | token (t : Token) (after : Cursor)
  /-- Nothing but ignored text is left. -/
  | atEnd
  /-- No admitted token stands at the cursor. -/
  | stuck (c : Cursor)
deriving Repr, DecidableEq

namespace Cursor

open Scan

/-- The next token after at most as many stretches of ignored text as `bound` is long. An admitted chunk
is read before ignored text, all other tokens after it. -/
def nextWithin (admitted : TerminalSet) : (bound : List Char) → Cursor → Reading
  | [], c => if c.rest.isEmpty then .atEnd else .stuck c
  | _ :: bound, c =>
    if c.rest.isEmpty then .atEnd
    else
      match matchChunk admitted c.rest with
      | some (t, s) => .token (c.token t s) (c.past s)
      | none =>
        match scanIgnored c.rest with
        | some s => nextWithin admitted bound (c.past s)
        | none =>
          match matchTerminal admitted c.rest with
          | some (t, s) => .token (c.token t s) (c.past s)
          | none => .stuck c

/-- The next token of a source. Ignored text is never empty, so what is left of the source bounds the
stretches of it. -/
def next (admitted : TerminalSet) (c : Cursor) : Reading := nextWithin admitted c.rest c

/-- The token that stands at the cursor if every terminal is admitted. -/
def anyToken? (c : Cursor) : Option Token :=
  match next .univ c with
  | .token t _ => some t
  | _ => none

end Cursor

end Facade
