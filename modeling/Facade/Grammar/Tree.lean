import Facade.Grammar.Pattern
import Facade.Grammar.Token

/-!
# Parse trees

The phrases of a source with their parts. A tree keeps the tokens that have many spellings, and all
tokens of the phrases that are told apart by them.

* `Tree`, `Tree.extent?`: trees, and the source they cover, dropped tokens included;
* `Rule.node`: the tree of a phrase from all its parts;
* `Tree.outline`: a tree as indented text.
-/

namespace Facade

/-- A token, or a phrase with the parts it keeps and the source it covers. -/
inductive Tree where
  | leaf (t : Token)
  | node (rule : Rule) (children : List Tree) (extent : Option Extent)
deriving Inhabited

namespace Tree

/-- The source a tree covers; a source without tokens has none. -/
def extent? : Tree → Option Extent
  | leaf t => some t.extent
  | node _ _ e => e

/-- Whether a phrase keeps this part of it. -/
def isKept (r : Rule) : Tree → Bool
  | leaf t => t.terminal.isNamed || r.keepsTokens
  | node .. => true

/-- The source that a list of parts covers, from the first to the last. -/
def cover (parts : List Tree) : Option Extent := do
  let first ← parts.head?
  let last ← parts.getLast?
  return (← first.extent?).join (← last.extent?)

end Tree

/-- The tree of a phrase, given all its parts in order. -/
def Rule.node (r : Rule) (parts : List Tree) : Tree :=
  .node r (parts.filter (Tree.isKept r)) (Tree.cover parts)

namespace Tree

/-- Two blanks for each level. -/
def indent (level : Nat) : String := String.ofList (List.replicate (2 * level) ' ')

mutual

/-- A tree as text, one part a line; a phrase whose only part is a token shows it on its own
line. -/
def outlineAt (level : Nat) : Tree → String
  | leaf t => indent level ++ t.text ++ "\n"
  | node r [leaf t] _ => indent level ++ r.title ++ "\t" ++ t.text ++ "\n"
  | node r children _ => indent level ++ r.title ++ "\n" ++ outlineAll (level + 1) children

/-- The parts of a phrase as text. -/
def outlineAll (level : Nat) : List Tree → String
  | [] => ""
  | t :: ts => outlineAt level t ++ outlineAll level ts

end

/-- A tree as indented text. -/
def outline (t : Tree) : String := outlineAt 0 t

end Tree

end Facade
