import Facade.Syntax.OfTree

/-!
# Sources by their characters

The declarations of a source are read off its characters. A source that is written out is best taken
apart into them at once, piece by piece, before anything is computed from it.

* `CompilationUnit.ofCharacters`, **`CompilationUnit.parse_eq_ofCharacters`**: what characters declare;
* `toList_append_eq`: the characters of a text that is put together;
* `CompilationUnit.any_of_ofCharacters`: a property of what comes of a source.
-/

namespace Facade

/-- The declarations of a source with these characters; `path` names it. -/
def CompilationUnit.ofCharacters (path : String) (characters : List Char) :
    Except SyntaxError CompilationUnit := do
  let tree ← Tree.parse characters
  match CompilationUnit.ofTree? characters path tree with
  | some unit => return unit
  | none => throw ⟨.malformedTree, 1, 1⟩

theorem toList_append_eq {a b : String} {xs ys : List Char} (ha : a.toList = xs) (hb : b.toList = ys) :
    (a ++ b).toList = xs ++ ys := by
  rw [String.toList_append, ha, hb]

namespace CompilationUnit

variable {path source : String} {characters : List Char}

/-- **A source declares what its characters declare.** -/
theorem parse_eq_ofCharacters (h : source.toList = characters) :
    parse path source = ofCharacters path characters := by
  subst h
  unfold parse parseWithTree ofCharacters
  cases Tree.parse source.toList with
  | error e => rfl
  | ok tree =>
    simp only [bind, Except.bind]
    cases ofTree? source.toList path tree <;> rfl

theorem any_of_ofCharacters {α : Type} {f : CompilationUnit → Option α} {p : α → Bool}
    (h : source.toList = characters)
    (hp : ((ofCharacters path characters).toOption >>= f).any p = true) :
    ((parse path source).toOption >>= f).any p = true := by
  rwa [parse_eq_ofCharacters h]

end CompilationUnit

end Facade
