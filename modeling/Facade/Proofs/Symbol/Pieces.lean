import Facade.Proofs.Symbol.Mentioned

/-!
# Texts with places for type parameters

The text of a type as pieces: plain text, and the names of type parameters. Some of these the symbol
mentions, and a substitution puts the text of a type there; others stand in the text only.

* `TextPiece`, `TextPiece.render`: pieces, and their text;
* `Program.pieces`, **`Program.display_substitute`**: the text of a type with types put in.
-/

namespace Facade

/-- A piece of the text of a type: plain text, the place of a type parameter that the symbol mentions, or
the name of a type parameter that only the text has. -/
inductive TextPiece where
  | text (s : String)
  | place (q : TypeParameter)
  | name (q : TypeParameter)
deriving DecidableEq

namespace TextPiece

/-! ## Pieces -/

section

variable (placed named : TypeParameter → String)

/-- The text of a piece, given what is shown at places and for names. -/
def shown : TextPiece → String
  | text s => s
  | place q => placed q
  | name q => named q

/-- The text of pieces. -/
def render (xs : List TextPiece) : String := String.join (xs.map (shown placed named))

@[simp] theorem render_nil : render placed named [] = "" := rfl

@[simp] theorem render_cons (x : TextPiece) (xs : List TextPiece) :
    render placed named (x :: xs) = shown placed named x ++ render placed named xs := by
  rw [render, List.map_cons, String.join_cons, render]

@[simp] theorem render_append (xs ys : List TextPiece) :
    render placed named (xs ++ ys) = render placed named xs ++ render placed named ys := by
  rw [render, List.map_append, String.join_append, render, render]

theorem render_append_text (xs : List TextPiece) (s : String) :
    render placed named (xs ++ [.text s]) = render placed named xs ++ s := by
  simp [shown]

end

variable {placed named : TypeParameter → String}

@[simp] theorem shown_text (s : String) : shown placed named (.text s) = s := rfl

@[simp] theorem shown_place (q : TypeParameter) : shown placed named (.place q) = placed q := rfl

@[simp] theorem shown_name (q : TypeParameter) : shown placed named (.name q) = named q := rfl

theorem render_congr {named' : TypeParameter → String} {xs : List TextPiece}
    (h : ∀ q, .name q ∈ xs → named q = named' q) :
    render placed named xs = render placed named' xs := by
  refine congrArg String.join (List.map_congr_left fun x hx => ?_)
  cases x with
  | name q => exact h q hx
  | _ => rfl

/-- Pieces with a text between them. -/
def divided (separator : String) (items : List (List TextPiece)) : List TextPiece :=
  [.text separator].intercalate items

@[simp] theorem render_divided (separator : String) (items : List (List TextPiece)) :
    render placed named (divided separator items) =
      separator.intercalate (items.map (render placed named)) := by
  induction items with
  | nil => rfl
  | cons x items ih =>
    cases items with
    | nil => simp [divided]
    | cons y items =>
      rw [divided, List.intercalate_cons_cons, ← divided, render_append, render_append, ih]
      simp [String.intercalate_cons_cons]

/-- The pieces of a name with type arguments. -/
def withArguments (name : List TextPiece) (arguments : List (List TextPiece)) : List TextPiece :=
  if arguments.isEmpty then name
  else name ++ [.text "<"] ++ divided ", " arguments ++ [.text ">"]

@[simp] theorem render_withArguments (name : List TextPiece) (arguments : List (List TextPiece)) :
    render placed named (withArguments name arguments) =
      Facade.withArguments (render placed named name) (arguments.map (render placed named)) := by
  unfold withArguments Facade.withArguments
  cases arguments with
  | nil => rfl
  | cons a as => simp [commaSeparated, String.append_assoc]

/-- The pieces of a tuple element. -/
def withElementName (type : List TextPiece) (name : Option String) : List TextPiece :=
  match name with
  | some n => if n.isEmpty then type else type ++ [.text (" " ++ n)]
  | none => type

@[simp] theorem render_withElementName (type : List TextPiece) (name : Option String) :
    render placed named (withElementName type name) =
      Facade.withElementName (render placed named type) name := by
  unfold withElementName Facade.withElementName
  cases name with
  | none => rfl
  | some n => by_cases hn : n.isEmpty <;> simp [hn, String.append_assoc]

end TextPiece

/-! ## Symbols -/

namespace Program

variable (p : Program)

/-- The pieces of the name of a declared type without its own type parameters. Those of the types around
it are there by name. -/
def qualifiedPieces : DefinitionKey → List TextPiece
  | .topLevel s n _ => [.text (qualify s n)]
  | .nested o n _ =>
    TextPiece.withArguments (qualifiedPieces o) ((p.typeParameters o).map fun q => [.name q]) ++
      [.text ("." ++ n)]

mutual

/-- The pieces of the text of a type. -/
def pieces : TypeSymbol → List TextPiece
  | .special k => [.text k]
  | .parameter q => [.place q]
  | .unresolved n as => TextPiece.withArguments [.text n] (piecesAll as)
  | .array e r => pieces e ++ [.text (arrayBrackets r)]
  | .nullable e => pieces e ++ [.text "?"]
  | .pointer e => pieces e ++ [.text "*"]
  | .tuple es => [.text "("] ++ TextPiece.divided ", " (piecesOfElements es) ++ [.text ")"]
  | .definition k =>
    TextPiece.withArguments (p.qualifiedPieces k) ((p.typeParameters k).map fun q => [.name q])
  | .constructed k as =>
    p.qualifiedPieces k ++ [.text "<"] ++ TextPiece.divided ", " (piecesAll as) ++ [.text ">"]

/-- The pieces of types. -/
def piecesAll : List TypeSymbol → List (List TextPiece)
  | [] => []
  | t :: ts => pieces t :: piecesAll ts

/-- The pieces of tuple elements. -/
def piecesOfElements : List (TypeSymbol × Option String) → List (List TextPiece)
  | [] => []
  | (t, n) :: es => TextPiece.withElementName (pieces t) n :: piecesOfElements es

end

theorem piecesAll_eq_map (ts : List TypeSymbol) : p.piecesAll ts = ts.map p.pieces := by
  induction ts with
  | nil => rfl
  | cons t ts ih => rw [piecesAll, ih, List.map_cons]

theorem piecesOfElements_eq_map (es : List (TypeSymbol × Option String)) :
    p.piecesOfElements es = es.map fun e => TextPiece.withElementName (p.pieces e.1) e.2 := by
  induction es with
  | nil => rfl
  | cons e es ih => rw [piecesOfElements, ih, List.map_cons]

variable {p}

@[simp] theorem render_qualifiedPieces (placed : TypeParameter → String) (k : DefinitionKey) :
    TextPiece.render placed TypeParameter.name (p.qualifiedPieces k) = p.qualifiedName k := by
  induction k with
  | topLevel => simp [qualifiedPieces, qualifiedName]
  | nested o n a ih =>
    simp [qualifiedPieces, qualifiedName, ih, Function.comp_def, String.append_assoc]

/-- **The text of a type with types put in**: at the places of type parameters stand the texts of their
types, and all other names stay. -/
theorem display_substitute (σ : Substitution) (t : TypeSymbol) :
    p.display (t.substitute σ) =
      TextPiece.render (fun q => p.display (σ.apply q)) TypeParameter.name (p.pieces t) := by
  induction t using TypeSymbol.induct_all with
  | special | parameter => simp [TypeSymbol.substitute, pieces, display]
  | array _ _ ih | nullable _ ih | pointer _ ih =>
    simp [TypeSymbol.substitute, pieces, display, ih]
  | definition k =>
    simp [TypeSymbol.substitute, pieces, display, definitionText, Function.comp_def]
  | unresolved n as ih =>
    have htexts : as.map (fun a => p.display (a.substitute σ)) = as.map fun a =>
        TextPiece.render (fun q => p.display (σ.apply q)) TypeParameter.name (p.pieces a) :=
      List.map_congr_left ih
    simp [TypeSymbol.substitute, TypeSymbol.substituteAll_eq_map, pieces, display,
      displayAll_eq_map, piecesAll_eq_map, Function.comp_def, htexts]
  | constructed k as ih =>
    have htexts : as.map (fun a => p.display (a.substitute σ)) = as.map fun a =>
        TextPiece.render (fun q => p.display (σ.apply q)) TypeParameter.name (p.pieces a) :=
      List.map_congr_left ih
    simp [TypeSymbol.substitute, TypeSymbol.substituteAll_eq_map, pieces, display,
      displayAll_eq_map, piecesAll_eq_map, Function.comp_def, htexts, commaSeparated,
      String.append_assoc]
  | tuple es ih =>
    have htexts : es.map (fun e => withElementName (p.display (e.1.substitute σ)) e.2) =
        es.map fun e => withElementName (TextPiece.render (fun q => p.display (σ.apply q))
          TypeParameter.name (p.pieces e.1)) e.2 :=
      List.map_congr_left fun e he => congrArg (withElementName · e.2) (ih e he)
    simp [TypeSymbol.substitute, TypeSymbol.substituteElements_eq_map, pieces, display,
      displayElements_eq_map, piecesOfElements_eq_map, Function.comp_def, htexts, commaSeparated,
      String.append_assoc]

end Program

end Facade
