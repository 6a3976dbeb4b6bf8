import Facade.Text.WordRanges

/-!
# Character classes

The classes of characters that names, numbers and white space are made of, over all of Unicode.

* `isWord`: letters, numbers and the underscore;
* `isDecimalDigit`: the digits of every script;
* `isNameStart`: the word characters that may open a name;
* `isBlank`: white space.
-/

namespace Facade.Text

/-- A letter, a number or the underscore. -/
def isWord (c : Char) : Bool :=
  if c.toNat < 128 then c.isAlphanum || c == '_'
  else wordRanges.any fun r => r.1 ≤ c.toNat && c.toNat ≤ r.2

/-- A decimal digit of any script. -/
def isDecimalDigit (c : Char) : Bool :=
  if c.toNat < 128 then c.isDigit
  else digitZeros.any fun z => z ≤ c.toNat && c.toNat ≤ z + 9

/-- A word character that is no decimal digit: what a name may begin with. -/
def isNameStart (c : Char) : Bool := isWord c && !isDecimalDigit c

/-- White space: the separators and the control characters that divide lines and fields. -/
def isBlank (c : Char) : Bool :=
  let n := c.toNat
  (0x9 ≤ n && n ≤ 0xD) || (0x1C ≤ n && n ≤ 0x20) || n == 0x85 || n == 0xA0 || n == 0x1680 ||
    (0x2000 ≤ n && n ≤ 0x200A) || n == 0x2028 || n == 0x2029 || n == 0x202F || n == 0x205F ||
    n == 0x3000

/-- The text without the white space at both of its ends. -/
def trimBlanks (s : String) : String :=
  String.ofList (((s.toList.dropWhile isBlank).reverse.dropWhile isBlank).reverse)

end Facade.Text
