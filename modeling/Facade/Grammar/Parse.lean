import Facade.Grammar.SyntaxError
import Facade.Grammar.Tree

/-!
# Parsing

A source is read from left to right with one token of lookahead. Each token is read knowing the
terminals that may stand at its place, and each phrase that ends is checked against what may stand
after it there.

* `Parser`: the lookahead, the cursor behind it and the token before;
* `Pattern.parse`: reads a pattern and gives its parts;
* `Tree.parse`: the tree of a source.
-/

namespace Facade

/-- The state of a parse: the token that comes next (none at the end of the source), the cursor
behind it, and the place of the last token read. -/
structure Parser where
  lookahead : Option Token
  cursor : Cursor
  last : Position
deriving Repr, DecidableEq

namespace Parser

/-- The terminal that comes next. -/
def terminal (s : Parser) : Terminal :=
  match s.lookahead with
  | some t => t.terminal
  | none => .endOfInput

/-- The error at the token that comes next. -/
def unexpected (s : Parser) (expected : TerminalSet) : SyntaxError :=
  match s.lookahead with
  | some t => ⟨.unexpectedToken t.text expected, t.extent.start.line, t.extent.start.column⟩
  | none => ⟨.unexpectedEnd, s.last.line, s.last.column⟩

/-- The next terminal must be one of `expected`. -/
def check (s : Parser) (expected : TerminalSet) : Except SyntaxError Unit :=
  if s.terminal ∈ expected then .ok () else .error (s.unexpected expected)

/-- The error at a place where no token can be read: what stands there if every terminal is
admitted, or else the character. -/
def stuck (c : Cursor) (admitted : TerminalSet) : SyntaxError :=
  match c.anyToken?, c.rest with
  | some t, _ => ⟨.unexpectedToken t.text (Scan.readableAlone admitted),
      t.extent.start.line, t.extent.start.column⟩
  | none, ch :: _ => ⟨.unexpectedCharacter ch, c.position.line, c.position.column⟩
  | none, [] => ⟨.unexpectedEnd, c.position.line, c.position.column⟩

/-- Reads the next token of a source; it must be one of `admitted`. -/
def read (c : Cursor) (last : Position) (admitted : TerminalSet) : Except SyntaxError Parser :=
  match c.next admitted with
  | .token t after => .ok ⟨some t, after, t.extent.start⟩
  | .atEnd => do
    let s : Parser := ⟨none, ⟨[], c.position⟩, last⟩
    s.check admitted
    return s
  | .stuck c => .error (stuck c admitted)

/-- Takes the token that comes next. -/
def take (s : Parser) (expected : Terminal) (admitted : TerminalSet) :
    Except SyntaxError (Token × Parser) :=
  match s.lookahead with
  | some t =>
    if t.terminal = expected then do return (t, ← read s.cursor s.last admitted)
    else .error (s.unexpected (.single expected))
  | none => .error (s.unexpected (.single expected))

end Parser

namespace Pattern

/-- Reads a pattern after which one of `after` must come. `parts` are the parts of the phrase so
far, the last one first; those of the pattern are put before them. -/
def parse : Nat → Pattern → TerminalSet → List Tree → Parser →
    Except SyntaxError (List Tree × Parser)
  | 0, _, _, _, s => .error ⟨.tooDeep, s.last.line, s.last.column⟩
  | fuel + 1, p, after, parts, s =>
    match p with
    | token t => do
      let (found, s) ← s.take t after
      return (.leaf found :: parts, s)
    | rule r => do
      let (inner, s) ← parse fuel r.body r.follow [] s
      s.check after
      return (r.node inner.reverse :: parts, s)
    | seq p q => do
      let (parts, s) ← parse fuel p (q.admits after) parts s
      parse fuel q after parts s
    | alt p q =>
      if s.terminal ∈ p.first then parse fuel p after parts s else parse fuel q after parts s
    | opt p => if s.terminal ∈ p.first then parse fuel p after parts s else .ok (parts, s)
    | plus repeated p => do
      let (parts, s) ← parse fuel p repeated parts s
      s.check (p.first ∪ after)
      if s.terminal ∈ p.first then parse fuel (plus repeated p) after parts s
      else return (parts, s)
    | resume r n p => do
      let (inner, s) ← parse fuel p r.follow (parts.take n) s
      s.check after
      return (r.node inner.reverse :: parts.drop n, s)

end Pattern

namespace Tree

/-- A bound for the nesting of the phrases of a source of this length. -/
def nestingBound (length : Nat) : Nat := 100 * (length + 2)

/-- The tree of a source. -/
def parse (source : List Char) : Except SyntaxError Tree := do
  let expected := Rule.source.body.admits Rule.source.follow
  let s ← Parser.read (Cursor.ofSource source) .start expected
  let (parts, _) ← Pattern.parse (nestingBound source.length) Rule.source.body Rule.source.follow
    [] s
  return Rule.source.node parts.reverse

end Tree

end Facade
