/-!
# Division at a mark

Texts as the pieces between the occurrences of one character.

* `split`: the pieces of a text.
-/

namespace Facade.Text

/-- The pieces between the marks; `current` holds the open piece, last character first. -/
def splitFrom (mark : Char) (current : List Char) : List Char → List String
  | [] => [String.ofList current.reverse]
  | c :: rest =>
    if c = mark then String.ofList current.reverse :: splitFrom mark [] rest
    else splitFrom mark (c :: current) rest

/-- The pieces of a text between the occurrences of a mark, of which there is at least one. -/
def split (mark : Char) (s : String) : List String := splitFrom mark [] s.toList

end Facade.Text
