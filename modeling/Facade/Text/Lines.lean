/-!
# Lines

How text divides into lines, and how line ends are unified when a file is read.

* `isLineEnd`, `splitLines`: division at every line boundary, a carriage return and line feed together
  being one;
* `unifyLineEnds`: every line end becomes a line feed.
-/

namespace Facade.Text

/-- The characters that end a line by themselves. -/
def isLineEnd (c : Char) : Bool :=
  let n := c.toNat
  (0xA ≤ n && n ≤ 0xD) || (0x1C ≤ n && n ≤ 0x1E) || n == 0x85 || n == 0x2028 || n == 0x2029

/-- The lines of a text, each without its end; `current` holds the open line, last character first.
A text that ends with a line end has no further, empty line. -/
def splitLinesFrom (current : List Char) : List Char → List String
  | [] => if current.isEmpty then [] else [String.ofList current.reverse]
  | '\r' :: '\n' :: rest => String.ofList current.reverse :: splitLinesFrom [] rest
  | c :: rest =>
    if isLineEnd c then String.ofList current.reverse :: splitLinesFrom [] rest
    else splitLinesFrom (c :: current) rest

/-- The lines of a text, without their ends. -/
def splitLines (s : String) : List String := splitLinesFrom [] s.toList

/-- Every carriage return, alone or before a line feed, becomes a line feed. -/
def unifyLineEnds : List Char → List Char
  | [] => []
  | '\r' :: '\n' :: rest => '\n' :: unifyLineEnds rest
  | '\r' :: rest => '\n' :: unifyLineEnds rest
  | c :: rest => c :: unifyLineEnds rest

end Facade.Text
