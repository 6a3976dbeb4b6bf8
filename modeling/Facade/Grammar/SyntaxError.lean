import Facade.Grammar.Terminal
import Facade.Text.Position
import Facade.Text.Quoted

/-!
# Syntax errors

Why a source has no tree, and how that is said.

* `SyntaxFault`, `SyntaxError`: what was found and where;
* `SyntaxFault.message`: the wording, with a hint where a brace or semicolon may be missing.
-/

namespace Facade

/-- What stands in the way of a tree. -/
inductive SyntaxFault where
  /-- A token where only others may stand. -/
  | unexpectedToken (text : String) (expected : TerminalSet)
  /-- A character that begins no token. -/
  | unexpectedCharacter (c : Char)
  /-- The source ends too early. -/
  | unexpectedEnd
  /-- The phrases nest deeper than the bound of the parser, which grows with the source. -/
  | tooDeep
  /-- The tree of the source is not made as the grammar says. -/
  | malformedTree
deriving Repr, DecidableEq

/-- A fault and where it was found. -/
structure SyntaxError where
  fault : SyntaxFault
  line : Nat
  column : Nat
deriving Repr, DecidableEq

namespace SyntaxFault

/-- The fault in words. Where few terminals may stand and a closing brace or a semicolon is one of
them, it is asked for. -/
def message : SyntaxFault → String
  | unexpectedEnd => "unexpected end of file"
  | unexpectedCharacter c => "unexpected character " ++ Text.quote c.toString
  | tooDeep => "nesting too deep"
  | malformedTree => "malformed tree"
  | unexpectedToken text expected =>
    let found := "unexpected '" ++ text ++ "'"
    if .rightBrace ∈ expected && expected.size ≤ 3 then found ++ "; missing '\x7d'?"
    else if .semicolon ∈ expected && expected.size ≤ 3 then found ++ "; missing ';'?"
    else found

end SyntaxFault

end Facade
