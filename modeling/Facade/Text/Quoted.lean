import Facade.Text.HiddenRanges

/-!
# Quoted texts

How messages show a text between quotes, so that every character of it can be seen.

* `isHidden`: the characters that show nothing by themselves;
* `escape`: what stands for a character between quotes;
* `quote`: a text between quotes.
-/

namespace Facade.Text

/-- A character that shows nothing by itself: a control, a separator other than the blank, or one
without a glyph. -/
def isHidden (c : Char) : Bool :=
  let n := c.toNat
  n < 0x20 || (0x7F ≤ n && hiddenRanges.any fun r => r.1 ≤ n && n ≤ r.2)

/-- A number in hexadecimal digits, filled with zeros to this width. -/
def hexDigits (width n : Nat) : String :=
  let digits := Nat.toDigits 16 n
  String.ofList (List.replicate (width - digits.length) '0' ++ digits)

/-- What stands for a character between these quotes: hidden characters by their numbers. -/
def escape (mark c : Char) : String :=
  if c = mark || c = '\\' then "\\" ++ c.toString
  else if c = '\n' then "\\n"
  else if c = '\r' then "\\r"
  else if c = '\t' then "\\t"
  else if !isHidden c then c.toString
  else if c.toNat < 0x100 then "\\x" ++ hexDigits 2 c.toNat
  else if c.toNat < 0x10000 then "\\u" ++ hexDigits 4 c.toNat
  else "\\U" ++ hexDigits 8 c.toNat

/-- The quotes of a text: single ones, or double ones around a text that has single ones only. -/
def quoteMark (s : String) : Char :=
  if s.toList.contains '\'' && !s.toList.contains '"' then '"' else '\''

/-- A text between quotes. -/
def quote (s : String) : String :=
  let mark := quoteMark s
  mark.toString ++ String.join (s.toList.map (escape mark)) ++ mark.toString

end Facade.Text
