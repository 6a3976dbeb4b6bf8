import Facade.Proofs.Binding.Directives
import Facade.Proofs.Binding.OuterArguments

/-!
# Remembered aliases

A program can keep the meanings of its aliases in mind. Then types are resolved in turn, and what one
resolution remembers is at hand for the next. The target of an alias is resolved by the same rules as any
other written type, but with the aliases of its place passed over, so it asks for no other alias.

* `Recalling`, `TypeSyntax.resolveBy`, `Environment.aliasBy`: resolution with a memory;
* `Declarations.Remembers`, `Declarations.Gives`: what a memory may hold, and what comes of it;
* `Declarations.searchBy_gives`, `Declarations.searchBy_gives_plain`: simple names, with aliases and without;
* **`Environment.aliasBy_gives`**: the meaning of an alias does not depend on the memory;
* **`Environment.answers_of_history`**: neither does any other answer, whatever was asked before;
* `NameQuery.answer_type_placedAt`: these answers are those of the model.
-/

namespace Facade

/-! ## Resolution with a memory -/

/-- The meanings of aliases that have been asked for, the latest first. -/
abbrev AliasMemory := List (DirectiveId × TypeSymbol)

/-- The meaning of an alias, if it has been asked for. -/
def AliasMemory.recall? (memory : AliasMemory) (id : DirectiveId) : Option TypeSymbol :=
  (memory.find? fun m => m.1 == id).map Prod.snd

/-- What looks into the memory and adds to it. It comes to nothing where aliases are resolved within
aliases more deeply than it may go. -/
abbrev Recalling := StateT AliasMemory Option

/-- A part of a dotted name; its type arguments are resolved when the part is found. -/
structure PendingPart where
  name : String
  arity : Nat
  text : String
  arguments : Recalling (List TypeSymbol)

mutual

/-- The meaning of a written type, given the meaning of dotted names. -/
def TypeSyntax.resolveBy (named : Bool → List PendingPart → Recalling TypeSymbol) :
    TypeSyntax → Recalling TypeSymbol
  | .predefined k => return .special k
  | .named isGlobal parts => named isGlobal (NamePart.pendingAll named parts)
  | .array e r => return .array (← e.resolveBy named) r
  | .nullable e => return .nullable (← e.resolveBy named)
  | .pointer e => return .pointer (← e.resolveBy named)
  | .tuple es => return .tuple (← TypeSyntax.resolveElementsBy named es)

/-- The parts of a dotted name. -/
def NamePart.pendingAll (named : Bool → List PendingPart → Recalling TypeSymbol) :
    List NamePart → List PendingPart
  | [] => []
  | .mk name arguments :: ps =>
    ⟨name, arguments.length, withArguments name (TypeSyntax.texts arguments),
      TypeSyntax.resolveAllBy named arguments⟩ :: NamePart.pendingAll named ps

/-- The meanings of written types, one after the other. -/
def TypeSyntax.resolveAllBy (named : Bool → List PendingPart → Recalling TypeSymbol) :
    List TypeSyntax → Recalling (List TypeSymbol)
  | [] => return []
  | t :: ts => return (← t.resolveBy named) :: (← TypeSyntax.resolveAllBy named ts)

/-- The meanings of tuple elements, one after the other. -/
def TypeSyntax.resolveElementsBy (named : Bool → List PendingPart → Recalling TypeSymbol) :
    List (TypeSyntax × Option String) → Recalling (List (TypeSymbol × Option String))
  | [] => return []
  | (t, n) :: es => return (← t.resolveBy named, n) :: (← TypeSyntax.resolveElementsBy named es)

end

namespace PendingPart

/-- A type found for a part of a name, with the type arguments of that part. -/
def construct (p : PendingPart) : TypeSymbol → Recalling TypeSymbol
  | .definition k => return k.construct (← p.arguments)
  | t => return t

/-- The part without its type arguments, of which only the number is known. -/
def outline (p : PendingPart) : ResolvedPart := ⟨p.name, List.replicate p.arity default, p.text⟩

/-- The type that a name stands for when its parts lead to no declared type. Only the type arguments of
the last part are resolved. -/
def unresolved (isGlobal : Bool) (parts : List PendingPart) : Recalling TypeSymbol :=
  match parts.getLast? with
  | none => return .unresolved "" []
  | some last => do
    let name := ".".intercalate (parts.dropLast.map PendingPart.text ++ [last.name])
    return .unresolved (if isGlobal then "global::" ++ name else name) (← last.arguments)

end PendingPart

namespace Declarations

variable (d : Declarations)

/-- Follows the parts of a name from a type through its nested types. -/
def descendBy : TypeSymbol → List PendingPart → Recalling (Option TypeSymbol)
  | current, [] => return some current
  | current, p :: ps =>
    match current.key?.bind fun k => d.type? (.nested k p.name p.arity) with
    | none => return none
    | some nested => do descendBy (← p.construct (.definition nested)) ps

/-- What the first part of a dotted name means by itself. -/
def startBy (simple : String → Nat → Recalling (Option TypeSymbol)) (isGlobal : Bool)
    (head : PendingPart) : Recalling (Option TypeSymbol) :=
  if isGlobal then return (d.type? (.topLevel none head.name head.arity)).map TypeSymbol.definition
  else simple head.name head.arity

/-- What a name that begins with a namespace leads to. -/
def qualifiedBy (spaces : List (Option String)) (parts : List PendingPart) :
    Recalling (Option TypeSymbol) :=
  let found := do
    let (k, i) ← d.longestQualified spaces (parts.map PendingPart.outline)
    let part ← parts[i]?
    return (k, part, parts.drop (i + 1))
  match found with
  | none => return none
  | some (k, part, rest) => do d.descendBy (← part.construct (.definition k)) rest

/-- What a dotted name leads to, given the meaning of simple names and the namespaces around. -/
def foundBy (simple : String → Nat → Recalling (Option TypeSymbol)) (spaces : List (Option String))
    (isGlobal : Bool) : List PendingPart → Recalling (Option TypeSymbol)
  | [] => return none
  | head :: rest => do
    match ← d.startBy simple isGlobal head with
    | some t => d.descendBy (← head.construct t) rest
    | none => d.qualifiedBy (if isGlobal then [none] else spaces) (head :: rest)

/-- The meaning of a dotted name. -/
def nameBy (simple : String → Nat → Recalling (Option TypeSymbol)) (spaces : List (Option String))
    (isGlobal : Bool) (parts : List PendingPart) : Recalling TypeSymbol := do
  match ← d.foundBy simple spaces isGlobal parts with
  | some t => return t
  | none => PendingPart.unresolved isGlobal parts

/-- The first using directive of a place that declares an alias of this name. -/
def aliasDirective? (p : DeclarationId) (name : String) : Option DirectiveId :=
  (d.directivesAt p).find? fun id => (d.aliasAt? id).any fun a => a.name == name

/-- The meaning of a name at the levels of some places, given the meaning of aliases; `usesAliases` says
whether these are looked at. -/
def searchBy (aliasOf : DirectiveId → Recalling TypeSymbol) (usesAliases : Bool) (name : String)
    (arity : Nat) : List DeclarationId → Recalling (Option TypeSymbol)
  | [] => return none
  | p :: ps =>
    match d.levelAt? p with
    | none => searchBy aliasOf usesAliases name arity ps
    | some l =>
      match d.inLevel l.plain name arity with
      | some k => return some (.definition k)
      | none =>
        match if usesAliases ∧ arity = 0 then d.aliasDirective? p name else none with
        | some id => return some (← aliasOf id)
        | none =>
          match d.inImports l.plain name arity with
          | some k => return some (.definition k)
          | none => searchBy aliasOf usesAliases name arity ps

end Declarations

/-- The places where the names of one site are looked for: type parameters and types around it, and its
place with those further out, whose aliases may be passed over. -/
structure PlacedScope where
  methodParameters : List TypeParameter
  containing : List DefinitionKey
  place : DeclarationId
  usesAliases : Bool

/-- The scope of the target of a using directive. -/
def DirectiveId.scope (id : DirectiveId) : PlacedScope := ⟨[], [], id.place, false⟩

namespace Environment

variable (e : Environment)

/-- The meaning of a simple name, given the meaning of aliases. -/
def lookupBy (aliasOf : DirectiveId → Recalling TypeSymbol) (s : PlacedScope) (name : String)
    (arity : Nat) : Recalling (Option TypeSymbol) :=
  match parameterNamed? s.methodParameters name arity <|>
      s.containing.findSome? (e.lookupContaining name arity) with
  | some t => return some t
  | none => e.declarations.searchBy aliasOf s.usesAliases name arity s.place.outwards

/-- The meaning of a written type, given the meaning of aliases. -/
def resolveBy (aliasOf : DirectiveId → Recalling TypeSymbol) (s : PlacedScope) (t : TypeSyntax) :
    Recalling TypeSymbol :=
  t.resolveBy (e.declarations.nameBy (e.lookupBy aliasOf s)
    ((s.place.outwards.filterMap e.declarations.levelAt?).flatMap fun l => l.plain.spaces))

/-- The meaning of an alias: as it is remembered, or else that of its target, which is remembered from
then on. Within the target aliases may be resolved one level less deeply. -/
def aliasBy : Nat → DirectiveId → Recalling TypeSymbol
  | 0, _ => fun _ => none
  | depth + 1, id => do
    match (← get).recall? id with
    | some t => return t
    | none =>
      let a ← e.declarations.aliasAt? id
      let t ← e.resolveBy (aliasBy depth) id.scope a.target
      modify ((id, t) :: ·)
      return t

end Environment

/-! ## What a memory may hold -/

namespace Declarations

variable (d : Declarations)

/-- **A memory holds the meanings of aliases** of the program. -/
def Remembers (memory : AliasMemory) : Prop :=
  ∀ m ∈ memory, ∃ a, d.aliasAt? m.1 = some a ∧ m.2 = d.resolveAlias a

/-- **The answer does not depend on the memory**, which still holds the meanings of aliases afterwards. -/
def Gives {α : Type} (x : Recalling α) (a : α) : Prop :=
  ∀ memory, d.Remembers memory → ∃ memory', x.run memory = some (a, memory') ∧ d.Remembers memory'

variable {d} {α β : Type}

theorem remembers_nil : d.Remembers [] := fun _ hm => absurd hm List.not_mem_nil

theorem Gives.pure (a : α) : d.Gives (pure a) a := fun memory hm => ⟨memory, rfl, hm⟩

theorem Gives.bind {x : Recalling α} {a : α} {f : α → Recalling β} {b : β} (hx : d.Gives x a)
    (hf : d.Gives (f a) b) : d.Gives (x >>= f) b := by
  intro memory hm
  obtain ⟨memory', hrun, hm'⟩ := hx memory hm
  obtain ⟨memory'', hrun', hm''⟩ := hf memory' hm'
  exact ⟨memory'', by rw [StateT.run_bind, hrun]; exact hrun', hm''⟩

theorem Gives.map {x : Recalling α} {a : α} (hx : d.Gives x a) (f : α → β) :
    d.Gives (return f (← x)) (f a) := hx.bind (.pure _)

end Declarations

/-- A part whose type arguments are still to be resolved gives a resolved one. -/
structure PendingPart.Gives (d : Declarations) (p : PendingPart) (q : ResolvedPart) : Prop where
  name : p.name = q.name
  arity : p.arity = q.arity
  text : p.text = q.text
  arguments : d.Gives p.arguments q.arguments

/-- The parts of a name, one by one. -/
abbrev PendingPart.GivesAll (d : Declarations) : List PendingPart → List ResolvedPart → Prop :=
  List.Forall₂ (PendingPart.Gives d)

/-- Dotted names have the meanings that they have without a memory. -/
def Declarations.NamesGive (d : Declarations) (namedBy : Bool → List PendingPart → Recalling TypeSymbol)
    (named : Bool → List ResolvedPart → TypeSymbol) : Prop :=
  ∀ isGlobal ps qs, PendingPart.GivesAll d ps qs → d.Gives (namedBy isGlobal ps) (named isGlobal qs)

variable {d : Declarations}

/-! ## Written types -/

section

variable {namedBy : Bool → List PendingPart → Recalling TypeSymbol}
  {named : Bool → List ResolvedPart → TypeSymbol}

mutual

/-- **A written type has the meaning that it has without a memory** if dotted names have. -/
theorem TypeSyntax.resolveBy_gives (hnamed : d.NamesGive namedBy named) : (t : TypeSyntax) →
    d.Gives (t.resolveBy namedBy) (t.resolveWith named)
  | .predefined _ => .pure _
  | .named isGlobal parts => hnamed isGlobal _ _ (NamePart.pendingAll_gives hnamed parts)
  | .array e _ => (TypeSyntax.resolveBy_gives hnamed e).map _
  | .nullable e => (TypeSyntax.resolveBy_gives hnamed e).map _
  | .pointer e => (TypeSyntax.resolveBy_gives hnamed e).map _
  | .tuple es => (TypeSyntax.resolveElementsBy_gives hnamed es).map _

theorem NamePart.pendingAll_gives (hnamed : d.NamesGive namedBy named) : (ps : List NamePart) →
    PendingPart.GivesAll d (NamePart.pendingAll namedBy ps) (NamePart.resolveAll named ps)
  | [] => .nil
  | .mk name arguments :: ps => by
    refine .cons ⟨rfl, ?_, rfl, TypeSyntax.resolveAllBy_gives hnamed arguments⟩
      (NamePart.pendingAll_gives hnamed ps)
    rw [ResolvedPart.arity, resolveAll_eq_map, List.length_map]

theorem TypeSyntax.resolveAllBy_gives (hnamed : d.NamesGive namedBy named) : (ts : List TypeSyntax) →
    d.Gives (TypeSyntax.resolveAllBy namedBy ts) (TypeSyntax.resolveAll named ts)
  | [] => .pure _
  | t :: ts => (TypeSyntax.resolveBy_gives hnamed t).bind
      ((TypeSyntax.resolveAllBy_gives hnamed ts).map _)

theorem TypeSyntax.resolveElementsBy_gives (hnamed : d.NamesGive namedBy named) :
    (es : List (TypeSyntax × Option String)) →
    d.Gives (TypeSyntax.resolveElementsBy namedBy es) (TypeSyntax.resolveElements named es)
  | [] => .pure _
  | (t, _) :: es => (TypeSyntax.resolveBy_gives hnamed t).bind
      ((TypeSyntax.resolveElementsBy_gives hnamed es).map _)

end

end

/-! ## Dotted names -/

section

variable {p : PendingPart} {q : ResolvedPart} {ps : List PendingPart} {qs : List ResolvedPart}

theorem PendingPart.Gives.construct (h : p.Gives d q) (t : TypeSymbol) :
    d.Gives (p.construct t) (q.construct t) := by
  cases t with
  | definition k => exact h.arguments.map _
  | _ => exact .pure _

theorem PendingPart.GivesAll.shape (h : GivesAll d ps qs) :
    (ps.map outline).map ResolvedPart.shape = qs.map ResolvedPart.shape := by
  rw [List.map_map]
  refine map_eq_of_forall₂ (fun p q hpq => ?_) h
  simp [outline, ResolvedPart.shape, hpq.name, hpq.arity, ResolvedPart.arity]

theorem PendingPart.GivesAll.text (h : GivesAll d ps qs) :
    ps.map PendingPart.text = qs.map ResolvedPart.text :=
  map_eq_of_forall₂ (fun _ _ hpq => hpq.text) h

theorem PendingPart.GivesAll.getLast? (h : GivesAll d ps qs) :
    Option.Rel (PendingPart.Gives d) ps.getLast? qs.getLast? := by
  induction h with
  | nil => exact .none
  | cons hpq h ih =>
    cases h with
    | nil => exact .some hpq
    | cons _ _ => exact ih

theorem PendingPart.GivesAll.getElem? (h : GivesAll d ps qs) (i : Nat) :
    Option.Rel (PendingPart.Gives d) ps[i]? qs[i]? := by
  induction h generalizing i with
  | nil => exact .none
  | cons hpq _ ih =>
    cases i with
    | zero => exact .some hpq
    | succ i => exact ih i

theorem PendingPart.GivesAll.unresolved (h : GivesAll d ps qs) (isGlobal : Bool) :
    d.Gives (PendingPart.unresolved isGlobal ps) (unresolvedName isGlobal qs) := by
  have htexts : ps.dropLast.map PendingPart.text = qs.dropLast.map ResolvedPart.text := by
    rw [List.map_dropLast, List.map_dropLast, h.text]
  unfold PendingPart.unresolved unresolvedName
  rcases both_of_rel h.getLast? with ⟨hp, hq⟩ | ⟨p, q, hp, hq, hpq⟩
  · rw [hp, hq]
    exact .pure _
  · rw [hp, hq]
    simp only [htexts, hpq.name]
    exact hpq.arguments.map _

namespace Declarations

theorem descendBy_gives (h : PendingPart.GivesAll d ps qs) (t : TypeSymbol) :
    d.Gives (d.descendBy t ps) (d.descend t qs) := by
  induction h generalizing t with
  | nil => exact .pure _
  | @cons p q ps qs hpq h ih =>
    rw [descendBy, descend, List.foldlM_cons, step, ← hpq.name, ← hpq.arity]
    cases hkey : t.key? with
    | none => exact .pure _
    | some k =>
      simp only [Option.bind_some, Option.bind_eq_bind]
      cases d.type? (.nested k p.name p.arity) with
      | none => exact .pure _
      | some nested => exact (hpq.construct (.definition nested)).bind (ih _)

theorem qualifiedBy_gives (h : PendingPart.GivesAll d ps qs) (spaces : List (Option String)) :
    d.Gives (d.qualifiedBy spaces ps) (do
      let (k, i) ← d.longestQualified spaces qs
      let part ← qs[i]?
      d.descend (k.construct part.arguments) (qs.drop (i + 1))) := by
  unfold qualifiedBy
  rw [longestQualified_congr h.shape]
  cases d.longestQualified spaces qs with
  | none => exact .pure _
  | some found =>
    obtain ⟨k, i⟩ := found
    simp only [Option.bind_eq_bind, Option.bind_some]
    rcases both_of_rel (h.getElem? i) with ⟨hp, hq⟩ | ⟨p, q, hp, hq, hpq⟩
    · rw [hp, hq]
      exact .pure _
    · rw [hp, hq]
      exact (hpq.construct (.definition k)).bind (descendBy_gives (List.forall₂_drop _ h) _)

variable {simpleBy : String → Nat → Recalling (Option TypeSymbol)}
  {simple : String → Nat → Option TypeSymbol} (hsimple : ∀ n a, d.Gives (simpleBy n a) (simple n a))

include hsimple

theorem foundBy_gives (h : PendingPart.GivesAll d ps qs) (spaces : List (Option String))
    (isGlobal : Bool) :
    d.Gives (d.foundBy simpleBy spaces isGlobal ps) (d.found? simple spaces isGlobal qs) := by
  cases h with
  | nil => exact .pure _
  | @cons head head' rest rest' hhead hrest =>
    have hstart : d.Gives (d.startBy simpleBy isGlobal head)
        (if isGlobal then (d.type? (.topLevel none head'.name head'.arity)).map TypeSymbol.definition
          else simple head'.name head'.arity) := by
      rw [startBy, hhead.name, hhead.arity]
      cases isGlobal with
      | true => exact .pure _
      | false => exact hsimple _ _
    rw [foundBy, found?, List.head?_cons, Option.bind_eq_bind, Option.bind_some]
    dsimp only
    generalize (if isGlobal then (d.type? (.topLevel none head'.name head'.arity)).map
      TypeSymbol.definition else simple head'.name head'.arity) = start at hstart ⊢
    refine hstart.bind ?_
    cases start with
    | some t => exact (hhead.construct t).bind (descendBy_gives hrest _)
    | none => exact qualifiedBy_gives (.cons hhead hrest) _

/-- **A dotted name has the meaning that it has without a memory** if simple names have. -/
theorem nameBy_gives (spaces : List (Option String)) :
    d.NamesGive (d.nameBy simpleBy spaces) (d.resolveName simple spaces) := by
  intro isGlobal ps qs h
  rw [resolveName_eq]
  refine (foundBy_gives hsimple h spaces isGlobal).bind ?_
  cases d.found? simple spaces isGlobal qs with
  | some t => exact .pure _
  | none => exact h.unresolved isGlobal

end Declarations

end

/-! ## Simple names -/

namespace Declarations

variable {aliasOf : DirectiveId → Recalling TypeSymbol}

theorem find?_aliases {p : DeclarationId} {l : Level} (h : d.levelAt? p = some l) (name : String) :
    l.aliases.find? (fun a => a.name == name) = (d.aliasDirective? p name).bind d.aliasAt? := by
  rw [aliases_eq h, List.find?_filterMap, aliasDirective?]

theorem exists_of_aliasDirective? {p : DeclarationId} {name : String} {id : DirectiveId}
    (h : d.aliasDirective? p name = some id) : ∃ a, d.aliasAt? id = some a := by
  have hany := List.find?_some h
  obtain ⟨a, ha, -⟩ := (Option.any_eq_true _ _).mp hany
  exact ⟨a, ha⟩

/-- **At levels whose aliases are passed over no alias is asked for**, and a name has the meaning that it
has without a memory. -/
theorem searchBy_gives_plain (name : String) (arity : Nat) (ps : List DeclarationId) :
    d.Gives (d.searchBy aliasOf false name arity ps)
      (d.lookupPlain ((ps.filterMap d.levelAt?).map Level.plain) name arity) := by
  induction ps with
  | nil => exact .pure _
  | cons p ps ih =>
    rw [searchBy]
    cases hlevel : d.levelAt? p with
    | none => rwa [List.filterMap_cons_none hlevel]
    | some l =>
      rw [List.filterMap_cons_some hlevel, List.map_cons, lookupPlain_cons, declared?, declared?]
      simp only [Bool.false_eq_true, false_and, if_false, inLevel, inImports]
      cases d.inSpaces l.plain.spaces name arity with
      | some k => exact .pure _
      | none =>
        cases d.inSpaces (l.plain.imports.map some) name arity with
        | some k => exact .pure _
        | none => exact ih

/-- **A name has the meaning that it has without a memory** if aliases have. -/
theorem searchBy_gives
    (haliases : ∀ id a, d.aliasAt? id = some a → d.Gives (aliasOf id) (d.resolveAlias a))
    (name : String) (arity : Nat) (ps : List DeclarationId) :
    d.Gives (d.searchBy aliasOf true name arity ps)
      ((ps.filterMap d.levelAt?).findSome? fun l => d.lookupLevel l name arity) := by
  induction ps with
  | nil => exact .pure _
  | cons p ps ih =>
    rw [searchBy]
    cases hlevel : d.levelAt? p with
    | none => rwa [List.filterMap_cons_none hlevel]
    | some l =>
      rw [List.filterMap_cons_some hlevel, lookupLevel_cons, declared?, directed?, declared?, aliasNamed?,
        find?_aliases hlevel]
      simp only [true_and, inLevel, inImports]
      cases d.inSpaces l.plain.spaces name arity with
      | some k => exact .pure _
      | none =>
        cases hdirective : (if arity = 0 then d.aliasDirective? p name else none) with
        | some id =>
          obtain ⟨harity, hid⟩ := (Option.ite_none_right_eq_some).mp hdirective
          obtain ⟨a, ha⟩ := exists_of_aliasDirective? hid
          rw [if_pos harity, hid, Option.bind_some, ha]
          exact (haliases id a ha).map some
        | none =>
          have hnone : (if arity = 0 then ((d.aliasDirective? p name).bind d.aliasAt?).map d.resolveAlias
              else none) = none := by
            split_ifs at hdirective ⊢
            · rw [hdirective]
              rfl
            · rfl
          rw [hnone]
          cases d.inSpaces (l.plain.imports.map some) name arity with
          | some k => exact .pure _
          | none => exact ih

end Declarations

/-- The scope at the place of a placed one, with the aliases there. -/
def Declarations.scopeOf? (d : Declarations) (s : PlacedScope) : Option Scope :=
  (d.siteAt? s.place).map fun site => ⟨s.methodParameters, s.containing, d.levelsAt site⟩

namespace Environment

variable {e : Environment} {aliasOf : DirectiveId → Recalling TypeSymbol}

/-- The meanings of aliases do not depend on the memory. -/
def KnowsAliases (e : Environment) (aliasOf : DirectiveId → Recalling TypeSymbol) : Prop :=
  ∀ id a, e.declarations.aliasAt? id = some a →
    e.declarations.Gives (aliasOf id) (e.declarations.resolveAlias a)

theorem lookupBy_gives (haliases : e.KnowsAliases aliasOf) {s : PlacedScope} {scope : Scope}
    (hs : s.usesAliases = true) (hscope : e.declarations.scopeOf? s = some scope) (name : String)
    (arity : Nat) : e.declarations.Gives (e.lookupBy aliasOf s name arity) (e.lookup scope name arity) := by
  obtain ⟨site, hsite, rfl⟩ := Option.map_eq_some_iff.mp hscope
  rw [lookupBy, lookup, hs, Declarations.levelsAt_eq hsite]
  cases parameterNamed? s.methodParameters name arity with
  | some t => exact .pure _
  | none =>
    cases s.containing.findSome? (e.lookupContaining name arity) with
    | some t => exact .pure _
    | none => exact Declarations.searchBy_gives haliases name arity _

/-- **A written type has the meaning that it has without a memory** if aliases have. -/
theorem resolveBy_gives (haliases : e.KnowsAliases aliasOf) {s : PlacedScope} {scope : Scope}
    (hs : s.usesAliases = true) (hscope : e.declarations.scopeOf? s = some scope) (t : TypeSyntax) :
    e.declarations.Gives (e.resolveBy aliasOf s t) (e.resolve scope t) := by
  have hlookup := lookupBy_gives haliases hs hscope
  obtain ⟨site, hsite, rfl⟩ := Option.map_eq_some_iff.mp hscope
  rw [Declarations.levelsAt_eq hsite] at hlookup
  rw [resolveBy, resolve, Declarations.levelsAt_eq hsite]
  exact TypeSyntax.resolveBy_gives (Declarations.nameBy_gives hlookup _) t

/-- **The target of an alias asks for no alias.** -/
theorem resolveBy_gives_target {id : DirectiveId} {a : Alias} (h : e.declarations.aliasAt? id = some a) :
    e.declarations.Gives (e.resolveBy aliasOf id.scope a.target) (e.declarations.resolveAlias a) := by
  obtain ⟨site, hsite, hhome⟩ := Declarations.home_of_aliasAt? h
  rw [Declarations.levelsAt_eq hsite] at hhome
  have hspaces : a.home.flatMap NamespaceLevel.spaces =
      (id.place.outwards.filterMap e.declarations.levelAt?).flatMap fun l => l.plain.spaces := by
    rw [hhome, List.flatMap_map]
  have hlookup : ∀ name arity, e.declarations.Gives (e.lookupBy aliasOf id.scope name arity)
      (e.declarations.lookupPlain a.home name arity) := by
    intro name arity
    rw [hhome]
    have hnone : parameterNamed? [] name arity = none := by simp [parameterNamed?]
    rw [lookupBy, DirectiveId.scope, hnone]
    -- nothing is assumed of `aliasOf`: with aliases passed over it is never called
    exact Declarations.searchBy_gives_plain name arity id.place.outwards
  rw [resolveBy, Declarations.resolveAlias, Declarations.resolvePlain, hspaces]
  exact TypeSyntax.resolveBy_gives (Declarations.nameBy_gives hlookup _) a.target

/-- **The meaning of an alias does not depend on the memory**, and it is found without looking for an
alias within an alias. -/
theorem aliasBy_gives (depth : Nat) : e.KnowsAliases (e.aliasBy (depth + 1)) := by
  intro id a h memory hm
  rw [aliasBy]
  cases hrecall : memory.recall? id with
  | some t =>
    -- the memory holds the meaning of the alias of this directive, and a directive has one alias
    obtain ⟨m, hfind, rfl⟩ := Option.map_eq_some_iff.mp hrecall
    obtain ⟨a', ha', hm'⟩ := hm m (List.mem_of_find?_eq_some hfind)
    have hid : m.1 = id := by simpa using List.find?_some hfind
    obtain rfl : a' = a := Option.some.inj (ha'.symm.trans (hid ▸ h))
    exact ⟨memory, by simp [hrecall, hm'], hm⟩
  | none =>
    have htarget : e.declarations.Gives (e.resolveBy (e.aliasBy depth) id.scope a.target)
        (e.declarations.resolveAlias a) := resolveBy_gives_target h
    obtain ⟨memory', hrun, hm'⟩ := htarget memory hm
    refine ⟨(id, e.declarations.resolveAlias a) :: memory', ?_, fun m hmem => ?_⟩
    · simp [hrecall, h, hrun]
    · rcases List.mem_cons.mp hmem with rfl | hmem
      · exact ⟨a, h, rfl⟩
      · exact hm' m hmem

end Environment

/-! ## Histories -/

/-- What can be asked of a program whose sources are bound. -/
inductive NameQuery where
  /-- What an alias stands for. -/
  | directive (id : DirectiveId)
  /-- What a simple name means at a place. -/
  | name (s : PlacedScope) (name : String) (arity : Nat)
  /-- What a written type means at a place. -/
  | type (s : PlacedScope) (t : TypeSyntax)

namespace NameQuery

variable (e : Environment)

/-- The question is about an alias of the program, or about one of its places. -/
def IsPosed : NameQuery → Prop
  | directive id => e.declarations.aliasAt? id ≠ none
  | name s _ _ | type s _ => s.usesAliases = true ∧ e.declarations.siteAt? s.place ≠ none

/-- The answer of a program that remembers aliases, with aliases within aliases down to some depth. -/
def answerBy (depth : Nat) : NameQuery → Recalling (Option TypeSymbol)
  | directive id => return some (← e.aliasBy depth id)
  | name s n a => e.lookupBy (e.aliasBy depth) s n a
  | type s t => return some (← e.resolveBy (e.aliasBy depth) s t)

/-- The answer of a program that remembers nothing. -/
def answer : NameQuery → Option TypeSymbol
  | directive id => (e.declarations.aliasAt? id).map e.declarations.resolveAlias
  | name s n a => (e.declarations.scopeOf? s).bind fun scope => e.lookup scope n a
  | type s t => (e.declarations.scopeOf? s).map fun scope => e.resolve scope t

variable {e}

/-- **One answer does not depend on the memory.** -/
theorem answerBy_gives {q : NameQuery} (h : q.IsPosed e) (depth : Nat) :
    e.declarations.Gives (q.answerBy e (depth + 1)) (q.answer e) := by
  have hscope : ∀ {s : PlacedScope}, e.declarations.siteAt? s.place ≠ none →
      ∃ scope, e.declarations.scopeOf? s = some scope := by
    intro s hs
    obtain ⟨site, hsite⟩ := Option.ne_none_iff_exists'.mp hs
    exact ⟨_, by rw [Declarations.scopeOf?, hsite]; rfl⟩
  cases q with
  | directive id =>
    obtain ⟨a, ha⟩ := Option.ne_none_iff_exists'.mp h
    rw [answer, ha]
    exact (Environment.aliasBy_gives depth id a ha).map some
  | name s n arity =>
    obtain ⟨scope, hs⟩ := hscope h.2
    rw [answer, hs]
    exact Environment.lookupBy_gives (Environment.aliasBy_gives depth) h.1 hs n arity
  | type s t =>
    obtain ⟨scope, hs⟩ := hscope h.2
    rw [answer, hs]
    exact (Environment.resolveBy_gives (Environment.aliasBy_gives depth) h.1 hs t).map some

end NameQuery

/-- **Answers do not depend on what was asked before**: a program that remembers aliases answers all
questions as if it remembered nothing. -/
theorem Environment.answers_of_history {e : Environment} {history : List NameQuery}
    (h : ∀ q ∈ history, q.IsPosed e) (depth : Nat) :
    e.declarations.Gives (history.mapM (NameQuery.answerBy e (depth + 1)))
      (history.map (NameQuery.answer e)) := by
  induction history with
  | nil => exact .pure _
  | cons q history ih =>
    rw [List.mapM_cons, List.map_cons]
    exact (NameQuery.answerBy_gives (h q List.mem_cons_self) depth).bind
      ((ih fun q' hq' => h q' (List.mem_cons_of_mem _ hq')).map _)

/-- The scope of what a type declaration says, at its place. -/
def Declarations.placedAt (d : Declarations) (t : TypeSite) : PlacedScope :=
  ⟨[], ((d.keyOf? t.id).map DefinitionKey.withOuter).getD [], t.place, true⟩

/-- **At a type declaration** types have the meanings that they have in the model. -/
theorem NameQuery.answer_type_placedAt {units : List CompilationUnit} {d : Declared}
    (hd : d ∈ (Declarations.ofUnits units).declared) (t : TypeSyntax) :
    let e := Environment.ofUnits units
    (NameQuery.type (e.declarations.placedAt d.site) t).IsPosed e ∧
      (NameQuery.type (e.declarations.placedAt d.site) t).answer e =
        some ((Model.ofUnits units).resolveAt d.site t) := by
  intro e
  obtain ⟨s, hs, hlevels⟩ := Declarations.siteAt?_place hd
  have hscope : e.declarations.scopeOf? (e.declarations.placedAt d.site) =
      some (e.declarations.scopeAt d.site) := by
    change ((Declarations.ofUnits units).siteAt? d.site.place).map _ = _
    rw [hs, Option.map_some]
    exact congrArg (fun levels => some (Scope.mk _ _ levels)) hlevels
  refine ⟨⟨rfl, ?_⟩, by rw [answer, hscope]; rfl⟩
  change (Declarations.ofUnits units).siteAt? d.site.place ≠ none
  rw [hs]
  exact Option.some_ne_none _

end Facade
