/-!
# Terminals

The kinds of tokens that declarations are written with. Most terminals have one spelling; names,
operators and the opaque chunks do not.

* `Terminal`, `Terminal.spelling?`, `Terminal.isWord`: the terminals and how they are written;
* `Terminal.isNamed`: the terminals whose text a tree keeps;
* `Terminal.spelled`: the terminals with one spelling, the longest first;
* `TerminalSet`: finite sets of terminals.
-/

namespace Facade

/-- The kinds of tokens. `Kw` marks the words that stand for themselves. -/
inductive Terminal where
  -- Words
  | abstractKw | asyncKw | baseKw | boolKw | byteKw | charKw | classKw | constKw | decimalKw
  | defaultKw | delegateKw | doubleKw | enumKw | eventKw | explicitKw | externKw | fileKw | fixedKw
  | floatKw | globalKw | implicitKw | inKw | intKw | interfaceKw | internalKw | longKw | namespaceKw
  | newKw | objectKw | operatorKw | outKw | overrideKw | paramsKw | partialKw | privateKw
  | protectedKw | publicKw | readonlyKw | recordKw | refKw | requiredKw | sbyteKw | scopedKw
  | sealedKw | shortKw | staticKw | stringKw | structKw | thisKw | uintKw | ulongKw | unsafeKw
  | ushortKw | usingKw | virtualKw | voidKw | volatileKw | whereKw
  -- Punctuation
  | arrow | doubleColon | colon | comma | dot | equals | leftBrace | leftBracket | leftParen
  | less | greater | question | rightBrace | rightBracket | rightParen | semicolon | star | tilde
  -- Terminals with many spellings
  | name | operatorSymbol
  | parameterChunk | expressionChunk | bodyChunk | attributeChunk | argumentChunk
  -- What follows the last token
  | endOfInput
deriving Repr, DecidableEq, Inhabited

namespace Terminal

/-- The words with their spellings, the longest first. -/
def words : List (Terminal × String) := [
  (interfaceKw, "interface"), (namespaceKw, "namespace"), (protectedKw, "protected"),
  (abstractKw, "abstract"), (delegateKw, "delegate"), (explicitKw, "explicit"),
  (implicitKw, "implicit"), (internalKw, "internal"), (operatorKw, "operator"),
  (overrideKw, "override"), (readonlyKw, "readonly"), (requiredKw, "required"),
  (volatileKw, "volatile"), (decimalKw, "decimal"), (defaultKw, "default"), (partialKw, "partial"),
  (privateKw, "private"), (virtualKw, "virtual"), (doubleKw, "double"), (externKw, "extern"),
  (globalKw, "global"), (objectKw, "object"), (paramsKw, "params"), (publicKw, "public"),
  (recordKw, "record"), (scopedKw, "scoped"), (sealedKw, "sealed"), (staticKw, "static"),
  (stringKw, "string"), (structKw, "struct"), (unsafeKw, "unsafe"), (ushortKw, "ushort"),
  (asyncKw, "async"), (classKw, "class"), (constKw, "const"), (eventKw, "event"),
  (fixedKw, "fixed"), (floatKw, "float"), (sbyteKw, "sbyte"), (shortKw, "short"),
  (ulongKw, "ulong"), (usingKw, "using"), (whereKw, "where"), (baseKw, "base"), (boolKw, "bool"),
  (byteKw, "byte"), (charKw, "char"), (enumKw, "enum"), (fileKw, "file"), (longKw, "long"),
  (thisKw, "this"), (uintKw, "uint"), (voidKw, "void"), (intKw, "int"), (newKw, "new"),
  (outKw, "out"), (refKw, "ref"), (inKw, "in")]

/-- The punctuation with its spellings, the longest first. -/
def punctuation : List (Terminal × String) := [
  (arrow, "=>"), (doubleColon, "::"), (colon, ":"), (comma, ","), (dot, "."), (equals, "="),
  (leftBrace, "\x7b"), (leftBracket, "["), (leftParen, "("), (less, "<"), (greater, ">"),
  (question, "?"), (rightBrace, "\x7d"), (rightBracket, "]"), (rightParen, ")"), (semicolon, ";"),
  (star, "*"), (tilde, "~")]

/-- The terminals with one spelling. -/
def spelled : List (Terminal × String) := words ++ punctuation

/-- The spelling of a terminal that has only one. -/
def spelling? (t : Terminal) : Option String :=
  (spelled.find? fun e => e.1 == t).map Prod.snd

/-- The terminal that a word stands for, if it is one of the words. -/
def ofWord? (word : String) : Option Terminal :=
  (words.find? fun e => e.2 == word).map Prod.fst

/-- The terminal stands for a word. -/
def isWord (t : Terminal) : Bool := words.any fun e => e.1 == t

/-- The punctuation that is also an operator. -/
def isOperatorPunctuation (t : Terminal) : Bool :=
  t == less || t == greater || t == star || t == tilde

/-- The terminals with many spellings: a tree keeps their text. -/
def isNamed : Terminal → Bool
  | name | operatorSymbol | parameterChunk | expressionChunk | bodyChunk | attributeChunk
  | argumentChunk => true
  | _ => false

/-- Every terminal. -/
def all : List Terminal :=
  spelled.map Prod.fst ++ [name, operatorSymbol, parameterChunk, expressionChunk, bodyChunk,
    attributeChunk, argumentChunk, endOfInput]

end Terminal

/-- A finite set of terminals, held as the bits of a number. -/
structure TerminalSet where
  bits : Nat
deriving Repr, DecidableEq, Inhabited

namespace TerminalSet

/-- The set with no terminal. -/
def empty : TerminalSet := ⟨0⟩

instance : EmptyCollection TerminalSet := ⟨empty⟩

/-- The set of one terminal. -/
def single (t : Terminal) : TerminalSet := ⟨1 <<< t.ctorIdx⟩

/-- The terminals of either set. -/
def union (a b : TerminalSet) : TerminalSet := ⟨a.bits ||| b.bits⟩

instance : Union TerminalSet := ⟨union⟩

/-- The terminals of a list. -/
def ofList (ts : List Terminal) : TerminalSet :=
  ts.foldr (fun t s => single t ∪ s) ∅

/-- Whether a terminal is in the set. -/
def contains (s : TerminalSet) (t : Terminal) : Bool := s.bits.testBit t.ctorIdx

instance : Membership Terminal TerminalSet := ⟨fun s t => s.contains t = true⟩

instance (t : Terminal) (s : TerminalSet) : Decidable (t ∈ s) :=
  inferInstanceAs (Decidable (s.contains t = true))

/-- The terminals of the set. -/
def toList (s : TerminalSet) : List Terminal := Terminal.all.filter s.contains

/-- The number of terminals in the set. -/
def size (s : TerminalSet) : Nat := s.toList.length

/-- The terminals of the set that satisfy a condition. -/
def filter (s : TerminalSet) (keep : Terminal → Bool) : TerminalSet :=
  ofList (s.toList.filter keep)

/-- Every terminal. -/
def univ : TerminalSet := ofList Terminal.all

theorem contains_union (a b : TerminalSet) (t : Terminal) :
    (a ∪ b).contains t = (a.contains t || b.contains t) :=
  Nat.testBit_or a.bits b.bits t.ctorIdx

theorem mem_union {a b : TerminalSet} {t : Terminal} : t ∈ a ∪ b ↔ t ∈ a ∨ t ∈ b := by
  change (a ∪ b).contains t = true ↔ a.contains t = true ∨ b.contains t = true
  rw [contains_union, Bool.or_eq_true]

end TerminalSet

end Facade
