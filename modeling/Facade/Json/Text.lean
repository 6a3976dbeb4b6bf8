import Facade.Text.Quoted

/-!
# JSON strings

Strings as they are written between quotes, with characters beyond ASCII as escaped code units. What is
between quotes is a sequence of code units, and not always a text: halves of surrogate pairs may stand
by themselves.

* `Json.codeUnits`: the code units of a text;
* `Json.escape`, `Json.quote`: writing a text;
* `Json.readString`: reading a string.
-/

namespace Facade.Json

/-! ## Code units -/

/-- The code units of a character: one, or a surrogate pair. -/
def unitsOf (c : Char) : List Nat :=
  if c.toNat < 0x10000 then [c.toNat]
  else [0xD800 + (c.toNat - 0x10000) / 0x400, 0xDC00 + (c.toNat - 0x10000) % 0x400]

/-- The code units of a text. -/
def codeUnits (s : String) : List Nat := s.toList.flatMap unitsOf

/-! ## Writing -/

/-- A code unit by its number. -/
def unitEscape (n : Nat) : List Char := '\\' :: 'u' :: (Text.hexDigits 4 n).toList

/-- What stands for a character: itself if it can be seen and is in ASCII. -/
def escape (c : Char) : List Char :=
  if c = '"' then ['\\', '"']
  else if c = '\\' then ['\\', '\\']
  else if c = '\n' then ['\\', 'n']
  else if c = '\r' then ['\\', 'r']
  else if c = '\t' then ['\\', 't']
  else if c.toNat = 0x08 then ['\\', 'b']
  else if c.toNat = 0x0C then ['\\', 'f']
  else if 0x20 ≤ c.toNat && c.toNat ≤ 0x7E then [c]
  else (unitsOf c).flatMap unitEscape

/-- A string between quotes. -/
def quote (s : String) : String :=
  String.ofList ('"' :: s.toList.flatMap escape ++ ['"'])

/-! ## Reading -/

/-- The value of a hexadecimal digit. -/
def hexValue? (c : Char) : Option Nat :=
  if '0' ≤ c && c ≤ '9' then some (c.toNat - '0'.toNat)
  else if 'a' ≤ c && c ≤ 'f' then some (c.toNat - 'a'.toNat + 10)
  else if 'A' ≤ c && c ≤ 'F' then some (c.toNat - 'A'.toNat + 10)
  else none

/-- The value of four hexadecimal digits. -/
def hexNumber? (a b c d : Char) : Option Nat := do
  return (((← hexValue? a) * 16 + (← hexValue? b)) * 16 + (← hexValue? c)) * 16 + (← hexValue? d)

/-- The code unit that a letter after a backslash stands for. -/
def unescape? (c : Char) : Option Nat :=
  match c with
  | '"' | '\\' | '/' => some c.toNat
  | 'n' => some 0x0A
  | 'r' => some 0x0D
  | 't' => some 0x09
  | 'b' => some 0x08
  | 'f' => some 0x0C
  | _ => none

/-- The code units of a string up to its closing quote, and what follows. Control characters have to
be escaped. -/
def readString : List Char → Option (List Nat × List Char)
  | [] => none
  | '"' :: rest => some ([], rest)
  | '\\' :: 'u' :: a :: b :: c :: d :: rest => do
    let n ← hexNumber? a b c d
    let (ns, rest) ← readString rest
    return (n :: ns, rest)
  | '\\' :: e :: rest => do
    let n ← unescape? e
    let (ns, rest) ← readString rest
    return (n :: ns, rest)
  | c :: rest =>
    if c.toNat < 0x20 then none
    else do
      let (ns, rest) ← readString rest
      return (unitsOf c ++ ns, rest)

end Facade.Json
