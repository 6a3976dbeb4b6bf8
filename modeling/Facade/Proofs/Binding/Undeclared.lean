import Facade.Proofs.Binding.Merging
import Facade.Proofs.Binding.OuterArguments
import Facade.Proofs.Symbol.Pieces

/-!
# Type parameters in the names of undeclared types

A type that the program does not declare is carried as it is written, but for the type arguments of the
last part of its name. So a type parameter further out is text, and stays when a type is put in its
place; so do the type parameters in the qualified names of declared types.

* `TypeSyntax.writtenPieces`, `Model.pieces`: the pieces of a written type, as it is written and as it is
  displayed;
* **`Model.display_resolve_substitute`**: the text of a resolved type with types put in;
* `MethodDeclaration.types`, `TypeSite.writtenMethods`: the types that a declaration writes;
* **`Model.display_types_of_constructed`**: the texts in the methods of a constructed interface;
* `display_types_of_last`: a type parameter on the last part of a name;
* `not_display_types_of_outer`: one on the part before it.
-/

namespace Facade

/-- Induction on a written type, from the types that it is made of. -/
@[elab_as_elim] theorem TypeSyntax.induct_all {motive : TypeSyntax → Prop}
    (predefined : ∀ k, motive (.predefined k))
    (named : ∀ isGlobal parts, (∀ q ∈ parts, ∀ a ∈ NamePart.arguments q, motive a) →
      motive (.named isGlobal parts))
    (array : ∀ e rank, motive e → motive (.array e rank))
    (nullable : ∀ e, motive e → motive (.nullable e))
    (pointer : ∀ e, motive e → motive (.pointer e))
    (tuple : ∀ es, (∀ e ∈ es, motive (Prod.fst e)) → motive (.tuple es))
    (t : TypeSyntax) : motive t :=
  @TypeSyntax.rec motive (fun q => ∀ a ∈ q.arguments, motive a)
    (fun parts => ∀ q ∈ parts, ∀ a ∈ NamePart.arguments q, motive a)
    (fun es => ∀ e ∈ es, motive (Prod.fst e)) (fun ts => ∀ t ∈ ts, motive t) (fun e => motive e.1)
    predefined named array nullable pointer tuple (fun _ _ has => has)
    (fun _ hq => absurd hq List.not_mem_nil)
    (fun _ _ hq hqs => List.forall_mem_cons.mpr ⟨hq, hqs⟩) (fun _ he => absurd he List.not_mem_nil)
    (fun _ _ he hes => List.forall_mem_cons.mpr ⟨he, hes⟩) (fun _ ht => absurd ht List.not_mem_nil)
    (fun _ _ ht hts => List.forall_mem_cons.mpr ⟨ht, hts⟩) (fun _ _ ht => ht) t

/-! ## Written types -/

/-- The piece of a simple name, which may be that of a type parameter. -/
def TextPiece.ofName (n : String) : Option TypeParameter → TextPiece
  | some q => .name q
  | none => .text n

mutual

/-- The pieces of a written type as it is written, given the type parameters that simple names mean. -/
def TypeSyntax.writtenPieces (parameter? : String → Option TypeParameter) :
    TypeSyntax → List TextPiece
  | .predefined k => [.text k]
  | .named isGlobal parts =>
    [.text (if isGlobal then "global::" else "")] ++
      TextPiece.divided "." (NamePart.writtenPieces parameter? (!isGlobal) parts)
  | .array e r => e.writtenPieces parameter? ++ [.text (arrayBrackets r)]
  | .nullable e => e.writtenPieces parameter? ++ [.text "?"]
  | .pointer e => e.writtenPieces parameter? ++ [.text "*"]
  | .tuple es =>
    [.text "("] ++ TextPiece.divided ", " (TypeSyntax.writtenPiecesOfElements parameter? es) ++
      [.text ")"]

/-- The pieces of the parts of a name; only the first can be a simple name. -/
def NamePart.writtenPieces (parameter? : String → Option TypeParameter) :
    Bool → List NamePart → List (List TextPiece)
  | _, [] => []
  | isFirst, .mk n as :: ps =>
    TextPiece.withArguments
        [.ofName n (if isFirst && as.isEmpty then parameter? n else none)]
        (TypeSyntax.writtenPiecesAll parameter? as) ::
      NamePart.writtenPieces parameter? false ps

/-- The pieces of written types. -/
def TypeSyntax.writtenPiecesAll (parameter? : String → Option TypeParameter) :
    List TypeSyntax → List (List TextPiece)
  | [] => []
  | t :: ts => t.writtenPieces parameter? :: TypeSyntax.writtenPiecesAll parameter? ts

/-- The pieces of tuple elements. -/
def TypeSyntax.writtenPiecesOfElements (parameter? : String → Option TypeParameter) :
    List (TypeSyntax × Option String) → List (List TextPiece)
  | [] => []
  | (t, n) :: es =>
    TextPiece.withElementName (t.writtenPieces parameter?) n ::
      TypeSyntax.writtenPiecesOfElements parameter? es

end

section

variable {parameter? : String → Option TypeParameter} {placed : TypeParameter → String}

theorem TypeSyntax.writtenPiecesAll_eq_map (ts : List TypeSyntax) :
    writtenPiecesAll parameter? ts = ts.map (writtenPieces parameter?) := by
  induction ts with
  | nil => rfl
  | cons t ts ih => rw [writtenPiecesAll, ih, List.map_cons]

theorem TypeSyntax.writtenPiecesOfElements_eq_map (es : List (TypeSyntax × Option String)) :
    writtenPiecesOfElements parameter? es =
      es.map fun e => TextPiece.withElementName (e.1.writtenPieces parameter?) e.2 := by
  induction es with
  | nil => rfl
  | cons e es ih => rw [writtenPiecesOfElements, ih, List.map_cons]

variable (hparameter : ∀ n, ∀ q ∈ parameter? n, q.name = n)

include hparameter

theorem NamePart.render_writtenPieces (isFirst : Bool) (parts : List NamePart)
    (h : ∀ q ∈ parts, ∀ a ∈ NamePart.arguments q,
      TextPiece.render placed TypeParameter.name (a.writtenPieces parameter?) = a.text) :
    (NamePart.writtenPieces parameter? isFirst parts).map
      (TextPiece.render placed TypeParameter.name) = parts.map NamePart.text := by
  have hname : ∀ n (b : Bool), TextPiece.shown placed TypeParameter.name
      (.ofName n (if b then parameter? n else none)) = n := by
    intro n b
    cases hfound : (if b then parameter? n else none) with
    | none => rfl
    | some q =>
      refine hparameter n q ?_
      split_ifs at hfound
      exact hfound
  induction parts generalizing isFirst with
  | nil => rfl
  | cons q parts ih =>
    obtain ⟨n, as⟩ := q
    have harguments : as.map (fun a => TextPiece.render placed TypeParameter.name
        (a.writtenPieces parameter?)) = as.map TypeSyntax.text :=
      List.map_congr_left (h _ List.mem_cons_self)
    rw [NamePart.writtenPieces, List.map_cons, ih false fun q hq => h q (List.mem_cons_of_mem _ hq),
      List.map_cons, NamePart.text, TypeSyntax.texts_eq_map, TextPiece.render_withArguments,
      TypeSyntax.writtenPiecesAll_eq_map, List.map_map]
    simp only [TextPiece.render_cons, TextPiece.render_nil, hname, String.append_empty]
    rw [Function.comp_def, harguments]

theorem TypeSyntax.render_writtenPieces (t : TypeSyntax) :
    TextPiece.render placed TypeParameter.name (t.writtenPieces parameter?) = t.text := by
  induction t using TypeSyntax.induct_all with
  | predefined => simp [writtenPieces, text]
  | named isGlobal parts ih =>
    simp [writtenPieces, text, NamePart.render_writtenPieces hparameter _ _ ih,
      NamePart.texts_eq_map]
  | array _ _ ih | nullable _ ih | pointer _ ih => simp [writtenPieces, text, ih]
  | tuple es ih =>
    have htexts : es.map (fun e => withElementName (TextPiece.render placed TypeParameter.name
        (e.1.writtenPieces parameter?)) e.2) = es.map fun e => withElementName e.1.text e.2 :=
      List.map_congr_left fun e he => congrArg (withElementName · e.2) (ih e he)
    simp [writtenPieces, text, writtenPiecesOfElements_eq_map, elementTexts_eq_map,
      Function.comp_def, htexts, commaSeparated, String.append_assoc]

end

/-! ## Displayed types -/

mutual

/-- The pieces of a written type as it is displayed, given those of dotted names from the pieces of the
type arguments of their last parts. -/
def TypeSyntax.piecesWith (named : Bool → List NamePart → List (List TextPiece) → List TextPiece) :
    TypeSyntax → List TextPiece
  | .predefined k => [.text k]
  | .named isGlobal parts => named isGlobal parts (NamePart.lastPieces named parts)
  | .array e r => e.piecesWith named ++ [.text (arrayBrackets r)]
  | .nullable e => e.piecesWith named ++ [.text "?"]
  | .pointer e => e.piecesWith named ++ [.text "*"]
  | .tuple es =>
    [.text "("] ++ TextPiece.divided ", " (TypeSyntax.piecesWithOfElements named es) ++ [.text ")"]

/-- The pieces of the type arguments of the last part of a name. -/
def NamePart.lastPieces (named : Bool → List NamePart → List (List TextPiece) → List TextPiece) :
    List NamePart → List (List TextPiece)
  | [] => []
  | .mk _ as :: ps =>
    if ps.isEmpty then TypeSyntax.piecesWithAll named as else NamePart.lastPieces named ps

/-- The pieces of written types as they are displayed. -/
def TypeSyntax.piecesWithAll
    (named : Bool → List NamePart → List (List TextPiece) → List TextPiece) :
    List TypeSyntax → List (List TextPiece)
  | [] => []
  | t :: ts => t.piecesWith named :: TypeSyntax.piecesWithAll named ts

/-- The pieces of tuple elements as they are displayed. -/
def TypeSyntax.piecesWithOfElements
    (named : Bool → List NamePart → List (List TextPiece) → List TextPiece) :
    List (TypeSyntax × Option String) → List (List TextPiece)
  | [] => []
  | (t, n) :: es =>
    TextPiece.withElementName (t.piecesWith named) n :: TypeSyntax.piecesWithOfElements named es

end

/-- The pieces of a name that leads to no declared type: it is carried as it is written, but for the type
arguments of its last part. -/
def NamePart.undeclaredPieces (parameter? : String → Option TypeParameter) (isGlobal : Bool)
    (parts : List NamePart) (arguments : List (List TextPiece)) : List TextPiece :=
  match parts.getLast? with
  | none => []
  | some last =>
    TextPiece.withArguments
      ([.text (if isGlobal then "global::" else "")] ++ TextPiece.divided "."
        (NamePart.writtenPieces parameter? (!isGlobal) parts.dropLast ++ [[.text last.name]]))
      arguments

/-- The type parameter that a simple name means. -/
def Environment.parameter? (e : Environment) (s : Scope) (n : String) : Option TypeParameter :=
  match e.lookup s n 0 with
  | some (.parameter q) => some q
  | _ => none

namespace Model

/-- The pieces of a dotted name as it is displayed. -/
def namedPieces (m : Model) (s : Scope) (isGlobal : Bool) (parts : List NamePart)
    (arguments : List (List TextPiece)) : List TextPiece :=
  match m.environment.leadsTo? s (.named isGlobal parts) with
  | none => NamePart.undeclaredPieces (m.environment.parameter? s) isGlobal parts arguments
  | some (.constructed k as) =>
    -- an alias can have type arguments, though none are written
    if arguments.isEmpty then m.program.pieces (.constructed k as)
    else TextPiece.withArguments (m.program.qualifiedPieces k) arguments
  | some t => m.program.pieces t

/-- The pieces of the text of a written type as it is displayed. -/
def pieces (m : Model) (s : Scope) (t : TypeSyntax) : List TextPiece := t.piecesWith (m.namedPieces s)

end Model

section

variable {named : Bool → List NamePart → List (List TextPiece) → List TextPiece}

theorem TypeSyntax.piecesWithAll_eq_map (ts : List TypeSyntax) :
    piecesWithAll named ts = ts.map (piecesWith named) := by
  induction ts with
  | nil => rfl
  | cons t ts ih => rw [piecesWithAll, ih, List.map_cons]

theorem TypeSyntax.piecesWithOfElements_eq_map (es : List (TypeSyntax × Option String)) :
    piecesWithOfElements named es =
      es.map fun e => TextPiece.withElementName (e.1.piecesWith named) e.2 := by
  induction es with
  | nil => rfl
  | cons e es ih => rw [piecesWithOfElements, ih, List.map_cons]

theorem NamePart.lastPieces_append (outer : List NamePart) (last : NamePart) :
    NamePart.lastPieces named (outer ++ [last]) =
      last.arguments.map (TypeSyntax.piecesWith named) := by
  induction outer with
  | nil =>
    obtain ⟨n, as⟩ := last
    simp [NamePart.lastPieces, TypeSyntax.piecesWithAll_eq_map, NamePart.arguments]
  | cons q outer ih =>
    obtain ⟨n, as⟩ := q
    simpa [NamePart.lastPieces] using ih

end

namespace Environment

variable {e : Environment} {s : Scope}

theorem name_of_parameter? (n : String) : ∀ q ∈ e.parameter? s n, q.name = n := by
  intro q hq
  unfold parameter? at hq
  split at hq
  · next q' hlookup =>
    obtain rfl := Option.some.inj hq
    have hdenotes : Denotes (fun q => q.name = n) 0 (.parameter q') :=
      denotes_of_lookup hlookup fun _ _ _ hname _ => hname
    cases hdenotes ⟨n, [], n⟩ rfl (fun _ ha => absurd ha List.not_mem_nil) with
    | parameter hname => exact hname
  · cases hq

theorem leadsTo?_of_arguments {isGlobal : Bool} {outer : List NamePart} {last : NamePart}
    (harguments : last.arguments ≠ []) {t : TypeSymbol}
    (h : e.leadsTo? s (.named isGlobal (outer ++ [last])) = some t) :
    ∃ k, t = .constructed k (last.arguments.map (e.resolve s)) := by
  have hconstruct : ∀ k : DefinitionKey, k.construct (last.arguments.map (e.resolve s)) =
      .constructed k (last.arguments.map (e.resolve s)) := by
    intro k
    rw [DefinitionKey.construct, if_neg (by simpa using harguments)]
  have hparts : NamePart.resolveAll (e.named s) (outer ++ [last]) =
      NamePart.resolveAll (e.named s) outer ++
        [⟨last.name, last.arguments.map (e.resolve s), last.text⟩] := by
    rw [resolveParts_eq_map, resolveParts_eq_map, List.map_append]
    rfl
  rw [leadsTo?, hparts] at h
  by_cases houter : outer = []
  · subst houter
    simp only [NamePart.resolveAll, List.nil_append, Declarations.found?, List.head?_cons,
      List.tail_cons, Option.bind_eq_bind, Option.bind_some] at h
    split at h
    · next start hstart =>
      obtain ⟨k, rfl⟩ : ∃ k, start = .definition k := by
        split_ifs at hstart
        · obtain ⟨k, -, rfl⟩ := Option.map_eq_some_iff.mp hstart
          exact ⟨k, rfl⟩
        · rcases exists_of_lookup hstart with ⟨-, k, -, rfl⟩ | ⟨harity, -⟩
          · exact ⟨k, rfl⟩
          · exact absurd (List.map_eq_nil_iff.mp (List.length_eq_zero_iff.mp harity)) harguments
      exact ⟨k, (Option.some.inj h).symm.trans (hconstruct k)⟩
    · obtain ⟨⟨k, i⟩, hk, -⟩ := Option.bind_eq_some_iff.mp h
      obtain ⟨hi, hlt, -⟩ := Declarations.longestQualified_eq_some.mp hk
      rw [List.length_singleton] at hlt
      omega
  · obtain ⟨k, rfl⟩ := Declarations.exists_of_found?_append
      (by simpa [resolveParts_eq_map] using houter) h
    exact ⟨k, hconstruct k⟩

end Environment

namespace Model

variable {m : Model} {s : Scope}

theorem render_undeclaredPieces (placed : TypeParameter → String) (isGlobal : Bool)
    (outer : List NamePart) (last : NamePart) (arguments : List (List TextPiece)) :
    TextPiece.render placed TypeParameter.name
        (NamePart.undeclaredPieces (m.environment.parameter? s) isGlobal (outer ++ [last]) arguments) =
      withArguments ((if isGlobal then "global::" else "") ++
          ".".intercalate (outer.map NamePart.text ++ [last.name]))
        (arguments.map (TextPiece.render placed TypeParameter.name)) := by
  have houter : (NamePart.writtenPieces (m.environment.parameter? s) (!isGlobal) outer).map
      (TextPiece.render placed TypeParameter.name) = outer.map NamePart.text :=
    NamePart.render_writtenPieces Environment.name_of_parameter? _ outer fun q _ a _ =>
      TypeSyntax.render_writtenPieces Environment.name_of_parameter? a
  simp [NamePart.undeclaredPieces, houter]

/-- **The text of a resolved type with types put in.** -/
theorem display_resolve_substitute (σ : Substitution) (t : TypeSyntax) :
    m.program.display ((m.environment.resolve s t).substitute σ) =
      TextPiece.render (fun q => m.program.display (σ.apply q)) TypeParameter.name (m.pieces s t) := by
  induction t using TypeSyntax.induct_all with
  | predefined => rfl
  | array _ _ ih | nullable _ ih | pointer _ ih =>
    rw [pieces, TypeSyntax.piecesWith, ← pieces, TextPiece.render_append_text, ← ih]
    rfl
  | tuple es ih =>
    have htexts : es.map (fun e => withElementName (m.program.display
        ((m.environment.resolve s e.1).substitute σ)) e.2) = es.map fun e => withElementName
        (TextPiece.render (fun q => m.program.display (σ.apply q)) TypeParameter.name
          (m.pieces s e.1)) e.2 :=
      List.map_congr_left fun e he => congrArg (withElementName · e.2) (ih e he)
    rw [Environment.resolve_eq, TypeSyntax.resolveWith, resolveElements_eq_map,
      TypeSymbol.substitute, TypeSymbol.substituteElements_eq_map, List.map_map, Program.display,
      Program.displayElements_eq_map, List.map_map, pieces, TypeSyntax.piecesWith,
      TypeSyntax.piecesWithOfElements_eq_map, TextPiece.render_append_text, TextPiece.render_append,
      TextPiece.render_divided, List.map_map, commaSeparated]
    simp only [Function.comp_def, TextPiece.render_withElementName]
    exact congrArg (fun texts => "(" ++ ", ".intercalate texts ++ ")") htexts
  | named isGlobal parts ih =>
    rcases List.eq_nil_or_concat' parts with rfl | ⟨outer, last, rfl⟩
    · rfl
    have hlast : last.arguments.map (fun a => m.program.display
        ((m.environment.resolve s a).substitute σ)) = last.arguments.map fun a =>
        TextPiece.render (fun q => m.program.display (σ.apply q)) TypeParameter.name
          (m.pieces s a) :=
      List.map_congr_left (ih last (by simp))
    rw [pieces, TypeSyntax.piecesWith, NamePart.lastPieces_append, namedPieces,
      Environment.resolve_named]
    cases hleads : m.environment.leadsTo? s (.named isGlobal (outer ++ [last])) with
    | none =>
      rw [Option.getD_none, render_undeclaredPieces, unresolvedName, resolveParts_eq_map]
      simp only [List.map_append, List.map_singleton, List.getLast?_concat, List.dropLast_concat,
        List.map_map, TypeSymbol.substitute, TypeSymbol.substituteAll_eq_map, Program.display,
        Program.displayAll_eq_map]
      refine congrArg₂ withArguments ?_ hlast
      cases isGlobal <;> simp [Function.comp_def]
    | some u =>
      rw [Option.getD_some]
      by_cases harguments : last.arguments = []
      · rw [Program.display_substitute, harguments]
        cases u <;> rfl
      · obtain ⟨k, rfl⟩ := Environment.leadsTo?_of_arguments harguments hleads
        rw [TypeSymbol.substitute, TypeSymbol.substituteAll_eq_map, Program.display,
          Program.displayAll_eq_map, List.map_map, List.map_map]
        dsimp only
        rw [if_neg (by simpa using harguments), TextPiece.render_withArguments,
          Program.render_qualifiedPieces, withArguments, if_neg (by simpa using harguments),
          List.map_map]
        exact congrArg (fun texts => m.program.qualifiedName k ++ "<" ++ commaSeparated texts ++ ">")
          hlast

end Model

/-! ## Signatures -/

/-- The type that a written constraint names. -/
def ConstraintSyntax.type? : ConstraintSyntax → Option TypeSyntax
  | special _ => none
  | type t => some t

/-- The types that a method declaration writes: of what it returns, of its parameters, and those that its
constraints name. -/
def MethodDeclaration.types (w : MethodDeclaration) : List TypeSyntax :=
  w.returnType :: w.parameters.map ParameterSyntax.type ++
    w.constraints.flatMap fun c => c.constraints.filterMap ConstraintSyntax.type?

/-- The method declarations in a type declaration. -/
def TypeSite.writtenMethods (site : TypeSite) : List MethodDeclaration :=
  site.declaration.members.filterMap fun
    | .method w => some w
    | _ => none

namespace Environment

variable (e : Environment)

/-- The method of an interface that a declaration of it declares. -/
def declaredMethod (k : DefinitionKey) (site : TypeSite) (w : MethodDeclaration) : MethodSymbol :=
  e.bindMethod k .interfaceKind (e.declarations.scopeAt site) w

/-- Where the types of its signature are resolved. -/
def signatureScope (k : DefinitionKey) (site : TypeSite) (w : MethodDeclaration) : Scope :=
  { e.declarations.scopeAt site with
    methodParameters := (e.declaredMethod k site w).typeParameters }

theorem types_declaredMethod (k : DefinitionKey) (site : TypeSite) (w : MethodDeclaration) :
    (e.declaredMethod k site w).types = w.types.map (e.resolve (e.signatureScope k site w)) := by
  have hconstraints (cs : List ConstraintSyntax) :
      (cs.map (e.bindConstraint (e.signatureScope k site w))).filterMap ConstraintSymbol.type? =
        (cs.filterMap ConstraintSyntax.type?).map (e.resolve (e.signatureScope k site w)) := by
    rw [List.filterMap_map, List.map_filterMap]
    refine List.filterMap_congr fun c _ => ?_
    cases c <;> rfl
  have hclauses : (e.declaredMethod k site w).constraintClauses.flatMap
        (fun c => c.constraints.filterMap ConstraintSymbol.type?) =
      (w.constraints.flatMap fun c => c.constraints.filterMap ConstraintSyntax.type?).map
        (e.resolve (e.signatureScope k site w)) := by
    rw [List.map_flatMap]
    simp only [← hconstraints]
    exact List.flatMap_map ..
  have hparameters : (e.declaredMethod k site w).parameters.map ParameterSymbol.type =
      (w.parameters.map ParameterSyntax.type).map (e.resolve (e.signatureScope k site w)) := by
    rw [List.map_map]
    exact List.map_map ..
  rw [MethodSymbol.types, hclauses, hparameters, MethodDeclaration.types, List.map_append,
    List.map_cons]
  rfl

theorem methodsAt_eq_map (k : DefinitionKey) (site : TypeSite) :
    e.methodsAt k .interfaceKind site = site.writtenMethods.map (e.declaredMethod k site) := by
  rw [methodsAt, TypeSite.writtenMethods, List.map_filterMap]
  refine List.filterMap_congr fun member _ => ?_
  cases member <;> rfl

end Environment

/-! ## Constructed interfaces -/

section

variable {units : List CompilationUnit}

/-- **The texts in the methods of a constructed interface.** Its methods are those that its declarations
write, with the type arguments put in. The text of each type in them is that of the written type, with
the texts of the type arguments at the places of its type parameters. Where a type parameter of the
interface is only a name in the text it stays; if none is, all of them are displayed as their type
arguments. -/
theorem Model.display_types_of_constructed {d : Definition}
    (hd : d ∈ (Model.ofUnits units).program.definitions) (hkind : d.kind = .interfaceKind)
    (as : List TypeSymbol) :
    let m := Model.ofUnits units
    let σ : Substitution := (m.program.typeParameters d.key).zip as
    let argument := fun q => m.program.display (σ.apply q)
    (m.program.methods (.constructed d.key as) = d.sites.flatMap fun site =>
      site.writtenMethods.map fun w => (m.environment.declaredMethod d.key site w).substitute σ) ∧
    ∀ site ∈ d.sites, ∀ w ∈ site.writtenMethods,
      let s := m.environment.signatureScope d.key site w
      ((m.environment.declaredMethod d.key site w).substitute σ).types =
        w.types.map (fun t => (m.environment.resolve s t).substitute σ) ∧
      ∀ t ∈ w.types,
        m.program.display ((m.environment.resolve s t).substitute σ) =
          TextPiece.render argument TypeParameter.name (m.pieces s t) ∧
        ((∀ q ∈ m.program.typeParameters d.key, .name q ∉ m.pieces s t) →
          m.program.display ((m.environment.resolve s t).substitute σ) =
            TextPiece.render argument argument (m.pieces s t)) := by
  intro m σ argument
  constructor
  case left =>
    rw [Program.methods_constructed (Model.definition?_of_mem hd), Model.methods_of_mem hd hkind,
      List.map_flatMap]
    refine List.flatMap_congr fun site _ => ?_
    rw [Environment.methodsAt_eq_map, List.map_map]
    rfl
  case right =>
    intro site _ w _ s
    refine ⟨?_, fun t _ => ⟨Model.display_resolve_substitute σ t, fun hnames => ?_⟩⟩
    · rw [MethodSymbol.types_substitute, Environment.types_declaredMethod, List.map_map]
      rfl
    · rw [Model.display_resolve_substitute]
      refine TextPiece.render_congr fun q hq => ?_
      have hother : q ∉ m.program.typeParameters d.key := fun hmem => hnames q hmem hq
      change q.name = m.program.display (Substitution.apply _ q)
      rw [Substitution.apply_zip_of_not_mem hother]
      rfl

end

section Example

/-- An interface that mentions its type parameter on the last part of an undeclared name. -/
def lastPartSource : String := "namespace N \x7b interface D<T> \x7b Foo.Bar<T> M(); \x7d \x7d"

/-- The interface. -/
def undeclaredInterface : DefinitionKey := .topLevel (some "N") "D" 1

/-- **On the last part of a name the type argument is put in.** -/
theorem display_types_of_last : ∃ (u : CompilationUnit) (d : Definition) (site : TypeSite)
    (w : MethodDeclaration) (t : TypeSyntax),
    d ∈ (Model.ofUnits [u]).program.definitions ∧ site ∈ d.sites ∧ w ∈ site.writtenMethods ∧
    t ∈ w.types ∧ t.text = "Foo.Bar<T>" ∧
    (Model.ofUnits [u]).program.display (((Model.ofUnits [u]).environment.resolve
        ((Model.ofUnits [u]).environment.signatureScope d.key site w) t).substitute
      (((Model.ofUnits [u]).program.typeParameters d.key).zip [.special "int"])) =
      "Foo.Bar<int>" := by
  have hprogram : (firstDeclared? lastPartSource).any
      (fun (x : CompilationUnit × Declared) =>
        let m := Model.ofUnits [x.1]
        let σ : Substitution := (m.program.typeParameters undeclaredInterface).zip [.special "int"]
        let argument := fun q => m.program.display (σ.apply q)
        decide (∃ d ∈ m.program.definitions, d.key = undeclaredInterface ∧ d.kind = .interfaceKind ∧
          ∃ site ∈ d.sites, ∃ w ∈ site.writtenMethods, ∃ t ∈ w.types, t.text = "Foo.Bar<T>" ∧
            (∀ q ∈ m.program.typeParameters undeclaredInterface,
              .name q ∉ m.pieces (m.environment.signatureScope undeclaredInterface site w) t) ∧
            TextPiece.render argument argument
              (m.pieces (m.environment.signatureScope undeclaredInterface site w) t) =
              "Foo.Bar<int>")) = true := by
    decide +kernel
  obtain ⟨⟨u, declared⟩, -, hfacts⟩ := (Option.any_eq_true _ _).mp hprogram
  obtain ⟨d, hd, hkey, hkind, site, hsite, w, hw, t, ht, htext, hnames, hrender⟩ :=
    of_decide_eq_true hfacts
  have hshown := ((((Model.display_types_of_constructed hd hkind [.special "int"]).2 site hsite w
    hw).2 t ht).2 (hkey ▸ hnames))
  rw [← hkey] at hrender
  exact ⟨u, d, site, w, t, hd, hsite, hw, ht, htext, hshown.trans hrender⟩

/-- An interface that mentions its type parameter on an outer part of an undeclared name. -/
def outerPartSource : String := "namespace N \x7b interface D<T> \x7b Foo<T>.Bar M(); \x7d \x7d"

/-- **On an outer part of a name the type parameter stays.** -/
theorem not_display_types_of_outer :
    ¬ ∀ units : List CompilationUnit,
      (∀ u ∈ units, ∃ path source, CompilationUnit.parse path source = .ok u) →
      ∀ d ∈ (Model.ofUnits units).program.definitions, d.kind = .interfaceKind →
      ∀ as : List TypeSymbol, as.length = d.key.arity →
      ∀ site ∈ d.sites, ∀ w ∈ site.writtenMethods, ∀ t ∈ w.types,
        let m := Model.ofUnits units
        let σ : Substitution := (m.program.typeParameters d.key).zip as
        let s := m.environment.signatureScope d.key site w
        let argument := fun q => m.program.display (σ.apply q)
        m.program.display ((m.environment.resolve s t).substitute σ) =
          TextPiece.render argument argument (m.pieces s t) := by
  intro h
  have hprogram : (firstDeclared? outerPartSource).any
      (fun (x : CompilationUnit × Declared) =>
        let m := Model.ofUnits [x.1]
        decide (∃ d ∈ m.program.definitions, d.kind = .interfaceKind ∧ d.key.arity = 1 ∧
          ∃ site ∈ d.sites, ∃ w ∈ site.writtenMethods, ∃ t ∈ w.types,
            let σ : Substitution := (m.program.typeParameters d.key).zip [.special "int"]
            let s := m.environment.signatureScope d.key site w
            let argument := fun q => m.program.display (σ.apply q)
            m.program.display ((m.environment.resolve s t).substitute σ) ≠
              TextPiece.render argument argument (m.pieces s t))) = true := by
    decide +kernel
  obtain ⟨⟨u, declared⟩, hx, hfacts⟩ := (Option.any_eq_true _ _).mp hprogram
  obtain ⟨d, hd, hkind, harity, site, hsite, w, hw, t, ht, hne⟩ := of_decide_eq_true hfacts
  exact hne (h [u] (of_firstDeclared hx).1 d hd hkind [.special "int"] harity.symm site hsite w hw t
    ht)

end Example

end Facade
