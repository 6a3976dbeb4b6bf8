/-!
# Reading UTF-8

Bytes as text, and why some bytes are none.

* `Utf8.next`: the first character of some bytes, or what is wrong with them;
* `Utf8.Fault`, `Utf8.Fault.message`: a fault with the place of its bytes;
* `Utf8.decode`: bytes as text; `Utf8.encode`: text as bytes.
-/

namespace Facade.Utf8

/-- Why bytes at some place are no character. -/
inductive Cause where
  /-- No character begins with the byte. -/
  | invalidStart
  /-- A byte that continues no character where one has to. -/
  | invalidContinuation
  /-- The bytes end within a character. -/
  | unexpectedEnd
deriving Repr, DecidableEq

/-- The wording of a cause. -/
def Cause.title : Cause → String
  | invalidStart => "invalid start byte"
  | invalidContinuation => "invalid continuation byte"
  | unexpectedEnd => "unexpected end of data"

/-- What bytes begin with: a character of this many bytes, or this many bytes at fault. -/
inductive Step where
  | char (c : Char) (size : Nat)
  | fault (cause : Cause) (size : Nat)
deriving Repr, DecidableEq

/-- The byte may continue a character. -/
def isContinuation (b : UInt8) : Bool := 0x80 ≤ b && b ≤ 0xBF

/-- The bytes that may follow this first byte of a character of three or four bytes: not those of a
character that is written in fewer bytes, of a surrogate, or of one beyond the last. -/
def isSecond (first b : UInt8) : Bool :=
  if first = 0xE0 then 0xA0 ≤ b && b ≤ 0xBF
  else if first = 0xED then 0x80 ≤ b && b ≤ 0x9F
  else if first = 0xF0 then 0x90 ≤ b && b ≤ 0xBF
  else if first = 0xF4 then 0x80 ≤ b && b ≤ 0x8F
  else isContinuation b

/-- The last six bits of a byte. -/
def low (b : UInt8) : Nat := b.toNat % 64

/-- What bytes begin with, given the first of them and the rest. -/
def next (a : UInt8) (rest : List UInt8) : Step :=
  if a < 0x80 then .char (Char.ofNat a.toNat) 1
  else if a < 0xC2 then .fault .invalidStart 1
  else if a < 0xE0 then
    match rest with
    | [] => .fault .unexpectedEnd 1
    | b :: _ =>
      if isContinuation b then .char (Char.ofNat (a.toNat % 32 * 64 + low b)) 2
      else .fault .invalidContinuation 1
  else if a < 0xF0 then
    match rest with
    | [] => .fault .unexpectedEnd 1
    | [b] => if isSecond a b then .fault .unexpectedEnd 2 else .fault .invalidContinuation 1
    | b :: c :: _ =>
      if !isSecond a b then .fault .invalidContinuation 1
      else if !isContinuation c then .fault .invalidContinuation 2
      else .char (Char.ofNat ((a.toNat % 16 * 64 + low b) * 64 + low c)) 3
  else if a < 0xF5 then
    match rest with
    | [] => .fault .unexpectedEnd 1
    | [b] => if isSecond a b then .fault .unexpectedEnd 2 else .fault .invalidContinuation 1
    | [b, c] =>
      if !isSecond a b then .fault .invalidContinuation 1
      else if !isContinuation c then .fault .invalidContinuation 2
      else .fault .unexpectedEnd 3
    | b :: c :: d :: _ =>
      if !isSecond a b then .fault .invalidContinuation 1
      else if !isContinuation c then .fault .invalidContinuation 2
      else if !isContinuation d then .fault .invalidContinuation 3
      else .char (Char.ofNat (((a.toNat % 8 * 64 + low b) * 64 + low c) * 64 + low d)) 4
  else .fault .invalidStart 1

/-- Bytes that are no text: the first of them, its place, how many they are and why. -/
structure Fault where
  byte : UInt8
  position : Nat
  size : Nat
  cause : Cause
deriving Repr, DecidableEq

/-- A byte in two hexadecimal digits. -/
def hexByte (b : UInt8) : String :=
  String.ofList [Nat.digitChar (b.toNat / 16), Nat.digitChar (b.toNat % 16)]

/-- The fault in words; the bytes of a fault of several are given by their places. -/
def Fault.message (f : Fault) : String :=
  let place :=
    if f.size = 1 then
      "byte 0x" ++ hexByte f.byte ++ " in position " ++ toString f.position
    else
      "bytes in position " ++ toString f.position ++ "-" ++ toString (f.position + f.size - 1)
  "'utf-8' codec can't decode " ++ place ++ ": " ++ f.cause.title

/-- The characters of bytes that begin at this place; `skip` bytes belong to what was read before. -/
def decodeFrom : (position skip : Nat) → List UInt8 → Except Fault (List Char)
  | _, _, [] => .ok []
  | position, skip + 1, _ :: rest => decodeFrom (position + 1) skip rest
  | position, 0, a :: rest =>
    match next a rest with
    | .char c size => do return c :: (← decodeFrom (position + 1) (size - 1) rest)
    | .fault cause size => .error ⟨a, position, size, cause⟩

/-- Bytes as text, or the first fault in them. -/
def decode (bytes : List UInt8) : Except Fault String := (decodeFrom 0 0 bytes).map String.ofList

/-- Text as bytes. -/
def encode (s : String) : List UInt8 := s.toUTF8.data.toList

end Facade.Utf8
