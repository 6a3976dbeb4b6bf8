import Facade.Text.CharClass

/-!
# Scanning

What a piece of source text begins with. Every scanner gives the characters it takes and the
characters that remain, which together are the text it was given.

* `scanName`, `scanOperator`: names and operator symbols;
* `scanIgnored`: white space, comments, directives and attributes of the whole program;
* `Chunk`, `scanChunk`: opaque stretches, which step over literals and comments.
-/

namespace Facade.Scan

open Facade.Text

/-- The characters taken from the front of a text, and the rest of it. -/
abbrev Split := List Char × List Char

/-- More characters taken before those of a split. -/
def prepend (taken : List Char) (s : Split) : Split := (taken ++ s.1, s.2)

/-- Takes the characters of `expected`, if the text begins with them. -/
def scanExact : List Char → List Char → Option Split
  | [], cs => some ([], cs)
  | _ :: _, [] => none
  | e :: es, c :: cs => if e = c then (scanExact es cs).map (prepend [c]) else none

/-- Takes the longest stretch of characters that satisfy `p`. -/
def scanWhile (p : Char → Bool) (cs : List Char) : Split := (cs.takeWhile p, cs.dropWhile p)

/-! ## Names and operators -/

/-- A name without its mark: a letter or underscore, then word characters. -/
def scanPlainName : List Char → Option Split
  | c :: cs => if isNameStart c then some (prepend [c] (scanWhile isWord cs)) else none
  | [] => none

/-- A name, perhaps marked by an at sign. -/
def scanName : List Char → Option Split
  | '@' :: cs => (scanPlainName cs).map (prepend ['@'])
  | cs => scanPlainName cs

/-- The operators of several characters, in the order they are tried. -/
def longOperators : List String := ["++", "--", "<<", ">>>", ">>", "==", "!=", ">=", "<="]

/-- The operators that are words; no word character may follow them. -/
def wordOperators : List String := ["true", "false"]

/-- The operators of one character. -/
def isShortOperator (c : Char) : Bool := "-+!~*/%&|^<>".toList.contains c

/-- Takes a word that ends here. -/
def scanWholeWord (word : String) (cs : List Char) : Option Split :=
  (scanExact word.toList cs).filter fun s => !(s.2.head?.any isWord)

/-- An operator that can be declared. -/
def scanOperator (cs : List Char) : Option Split :=
  (longOperators.findSome? fun o => scanExact o.toList cs) <|>
  (wordOperators.findSome? fun o => scanWholeWord o cs) <|>
  match cs with
  | c :: rest => if isShortOperator c then some ([c], rest) else none
  | [] => none

/-! ## Text between the tokens -/

/-- The white space that may stand between tokens. -/
def isLayout (c : Char) : Bool :=
  c == ' ' || c == '\t' || c == '\x0c' || c == '\r' || c == '\n'

/-- Up to the end of a block comment whose opening has been taken. -/
def scanCommentEnd : List Char → Option Split
  | '*' :: '/' :: rest => some (['*', '/'], rest)
  | c :: rest => (scanCommentEnd rest).map (prepend [c])
  | [] => none

/-- An attribute of the whole program: `assembly` or `module` opens it. -/
def scanProgramAttribute : List Char → Option Split
  | '[' :: cs => do
    let blank := scanWhile isBlank cs
    let target ← scanExact "assembly".toList blank.2 <|> scanExact "module".toList blank.2
    let gap := scanWhile isBlank target.2
    let colon ← scanExact [':'] gap.2
    let body := scanWhile (· != ']') colon.2
    let close ← scanExact [']'] body.2
    some ('[' :: (blank.1 ++ target.1 ++ gap.1 ++ colon.1 ++ body.1 ++ close.1), close.2)
  | _ => none

/-- Text that separates tokens and is no token itself. -/
def scanIgnored : List Char → Option Split
  | '/' :: '/' :: cs => some (prepend ['/', '/'] (scanWhile (· != '\n') cs))
  | '/' :: '*' :: cs => (scanCommentEnd cs).map (prepend ['/', '*'])
  | '#' :: cs => some (prepend ['#'] (scanWhile (· != '\n') cs))
  | '[' :: cs => scanProgramAttribute ('[' :: cs)
  | c :: cs => if isLayout c then some (prepend [c] (scanWhile isLayout cs)) else none
  | [] => none

/-! ## Opaque chunks -/

/-- The places where text is taken as it stands. -/
inductive Chunk where
  | inDefault | inExpression | inBody | inAttribute | inArguments
deriving Repr, DecidableEq

namespace Chunk

/-- The brackets and separators that end a chunk. -/
def stops (k : Chunk) (c : Char) : Bool :=
  match k with
  | inDefault => c == '(' || c == ')' || c == '\x7b' || c == '\x7d' || c == '[' || c == ']' ||
      c == ',' || c == ';'
  | inExpression => c == '\x7b' || c == '\x7d' || c == ';'
  | inBody => c == '\x7b' || c == '\x7d'
  | inAttribute => c == '[' || c == ']'
  | inArguments => c == '(' || c == ')'

/-- A quote that opens no closed literal belongs to the chunk. -/
def takesLoneQuote : Chunk → Bool
  | inExpression | inBody => true
  | inDefault | inAttribute | inArguments => false

end Chunk

/-- Up to the closing quote of a literal of one line; a backslash takes the next character along. -/
def scanLiteralEnd (quote : Char) : List Char → Option Split
  | [] => none
  | ['\\'] => none
  | '\\' :: c :: rest =>
    if c = '\n' then none else (scanLiteralEnd quote rest).map (prepend ['\\', c])
  | c :: rest =>
    if c = quote then some ([c], rest)
    else if c = '\n' then none
    else (scanLiteralEnd quote rest).map (prepend [c])

/-- Up to the closing quote of a verbatim literal, in which a quote is written twice. If none closes
it, the last doubled quote is taken apart and its first half closes the literal. -/
def scanVerbatimEnd : List Char → Option Split
  | [] => none
  | '"' :: '"' :: rest =>
    match scanVerbatimEnd rest with
    | some s => some (prepend ['"', '"'] s)
    | none => some (['"'], '"' :: rest)
  | '"' :: rest => some (['"'], rest)
  | c :: rest => (scanVerbatimEnd rest).map (prepend [c])

/-- One item of a chunk: a literal, a comment or a single character. -/
def scanItem (k : Chunk) : List Char → Option Split
  | '/' :: '/' :: cs => some (prepend ['/', '/'] (scanWhile (· != '\n') cs))
  | '/' :: '*' :: cs => (scanCommentEnd cs).map (prepend ['/', '*'])
  | '@' :: '"' :: cs => (scanVerbatimEnd cs).map (prepend ['@', '"'])
  | c :: cs =>
    if c = '"' ∨ c = '\'' then
      match scanLiteralEnd c cs with
      | some s => some (prepend [c] s)
      | none => if k.takesLoneQuote then some ([c], cs) else none
    else if k.stops c then none
    else some ([c], cs)
  | [] => none

/-- At most as many items as `bound` is long, as many as there are. -/
def scanItems (k : Chunk) : (bound : List Char) → List Char → Split
  | [], cs => ([], cs)
  | _ :: bound, cs =>
    match scanItem k cs with
    | some s => prepend s.1 (scanItems k bound s.2)
    | none => ([], cs)

/-- A chunk: one or more items, the first of which is no white space. -/
def scanChunk (k : Chunk) (cs : List Char) : Option Split :=
  if cs.head?.any isBlank then none
  else
    let s := scanItems k cs cs
    if s.1.isEmpty then none else some s

end Facade.Scan
