import Facade.Proofs.Binding.Agreement

/-!
# Dotted and nested namespaces

A namespace declaration with a dotted name can be written as declarations one in the other. The types
declared are the same, and what is written means the same, as long as no using directive gives another
meaning to a name that only a namespace of the outer declarations declares: in the one form the search
comes to these namespaces before the using directives, in the other after them.

* `dottedPrefixes_append`: the beginnings of a dotted name;
* `NamespaceMember.within`, `NamespaceHead.Unfolds`, `NamespaceMember.Unfolds`: namespaces written
  one in the other;
* `Declarations.Uncontested`: no using directive competes with the outer namespaces;
* `Declarations.LevelsAlike`: levels at which names have the same meanings;
* **`Model.unfold_invariant`**: dotted namespaces equal nested ones where no name is contested;
* **`not_unfold_invariant`**: elsewhere they need not.
-/

namespace Facade

open Text

/-! ## Dotted names -/

/-- **The beginnings of a dotted name** are those of its first part, and those of the rest after the
first part. -/
theorem dottedPrefixes_append (a b : String) : dottedPrefixes (a ++ "." ++ b) =
    dottedPrefixes a ++ (dottedPrefixes b).map fun n => a ++ "." ++ n := by
  have hsplit : split '.' (a ++ "." ++ b) = split '.' a ++ split '.' b := split_append '.' a b
  simp only [dottedPrefixes, hsplit, List.length_append, List.range_add, List.map_append,
    List.map_map]
  congr 1
  · refine List.map_congr_left fun k hk => ?_
    rw [List.take_append_of_le_length (List.mem_range.mp hk)]
  · refine List.map_congr_left fun k _ => ?_
    have hne : (split '.' b).take (k + 1) ≠ [] := by simp [split_ne_nil]
    rw [Function.comp_apply, Nat.add_assoc, List.take_length_add_append,
      String.intercalate_append_of_ne_nil (split_ne_nil '.' a) hne, intercalate_split]
    rfl

theorem qualify_some {s : String} (hs : s ≠ "") (n : String) :
    qualify (some s) n = s ++ "." ++ n := by simp [qualify, hs]

theorem qualify_append (outer : Option String) {a : String} (ha : a ≠ "") (n : String) :
    qualify outer (a ++ "." ++ n) = qualify (some (qualify outer a)) n := by
  cases outer with
  | none => exact (qualify_some ha n).symm
  | some s =>
    by_cases hs : s = ""
    · subst hs
      exact (qualify_some ha n).symm
    · have hjoined : s ++ "." ++ a ≠ "" := by simp
      rw [qualify_some hs, qualify_some hs, qualify_some hjoined]
      simp only [String.append_assoc]

theorem qualify_ne_empty (outer : Option String) {a : String} (ha : a ≠ "") :
    qualify outer a ≠ "" := by
  cases outer with
  | none => exact ha
  | some s =>
    by_cases hs : s = ""
    · subst hs
      exact ha
    · rw [qualify_some hs]
      simp

/-! ## Unfolding -/

/-- A namespace declaration with a dotted name as the declarations `outers`, of which each holds but the
next, and `inner`, which holds what the one did. -/
structure NamespaceHead.Unfolds (head : NamespaceHead) (outers : List NamespaceHead)
    (inner : NamespaceHead) : Prop where
  name : head.name = ".".intercalate (outers.map NamespaceHead.name ++ [inner.name])
  named : ∀ o ∈ outers, o.name ≠ ""
  bare : ∀ o ∈ outers, o.usings = []
  usings : inner.usings = head.usings

/-- A member in namespaces that stand one in the other. -/
def NamespaceMember.within (m : NamespaceMember) : List NamespaceHead → NamespaceMember
  | [] => m
  | head :: heads => .space head [m.within heads]

/-- What may be unfolded: given the namespaces around a declaration, the declaration and the innermost
one that takes its place. -/
abbrev Unfolding := List NamespaceHead → NamespaceHead → NamespaceHead → Prop

mutual

/-- A member of namespaces in which some declarations, at any depth, are unfolded; the others are
unfolded into themselves. -/
inductive NamespaceMember.Unfolds (may : Unfolding) :
    List NamespaceHead → NamespaceMember → NamespaceMember → Prop
  | type (around : List NamespaceHead) (d : TypeDeclaration) : Unfolds may around (.type d) (.type d)
  | space {around : List NamespaceHead} {head : NamespaceHead} {outers : List NamespaceHead}
      {inner : NamespaceHead} {members members' : List NamespaceMember}
      (hhead : head.Unfolds outers inner) (hmay : may around head inner)
      (hmembers : NamespaceMember.UnfoldsAll may (around ++ [head]) members members') :
      Unfolds may around (.space head members)
        (NamespaceMember.within (.space inner members') outers)

/-- Members of namespaces in which some declarations are unfolded. -/
inductive NamespaceMember.UnfoldsAll (may : Unfolding) :
    List NamespaceHead → List NamespaceMember → List NamespaceMember → Prop
  | nil (around : List NamespaceHead) : UnfoldsAll may around [] []
  | cons {around : List NamespaceHead} {m m' : NamespaceMember} {ms ms' : List NamespaceMember}
      (h : NamespaceMember.Unfolds may around m m') (hms : UnfoldsAll may around ms ms') :
      UnfoldsAll may around (m :: ms) (m' :: ms')

end

/-- A source in which some namespace declarations are unfolded. -/
structure CompilationUnit.Unfolds (may : Unfolding) (u u' : CompilationUnit) : Prop where
  usings : u.usings = u'.usings
  members : NamespaceMember.UnfoldsAll may [] u.members u'.members

/-- Sources in which some namespace declarations are unfolded; `may` says for the source of each number
what may be. -/
structure UnfoldsTo (may : Nat → Unfolding) (units units' : List CompilationUnit) : Prop where
  length : units.length = units'.length
  unit : ∀ (i : Nat) (h : i < units.length) (h' : i < units'.length),
    units[i].Unfolds (may i) units'[i]

/-! ## The namespaces of a declaration -/

/-- The full name of the innermost of some namespaces. -/
def nameWithin (outer : Option String) (heads : List NamespaceHead) : Option String :=
  heads.foldl (fun o h => some (qualify o h.name)) outer

theorem nameWithin_append (outer : Option String) (xs ys : List NamespaceHead) :
    nameWithin outer (xs ++ ys) = nameWithin (nameWithin outer xs) ys := List.foldl_append

namespace NamespaceHead.Unfolds

variable {head inner o : NamespaceHead} {outers : List NamespaceHead}

theorem name_nil (h : head.Unfolds [] inner) : head.name = inner.name := by
  rw [h.name]
  simp

theorem exists_rest (h : head.Unfolds (o :: outers) inner) : ∃ rest : NamespaceHead,
    rest.Unfolds outers inner ∧ head.name = o.name ++ "." ++ rest.name ∧ o.name ≠ "" ∧
      o.usings = [] := by
  refine ⟨{ inner with name := ".".intercalate (outers.map NamespaceHead.name ++ [inner.name]) },
    ⟨rfl, fun o ho => h.named o (List.mem_cons_of_mem _ ho),
      fun o ho => h.bare o (List.mem_cons_of_mem _ ho), rfl⟩, ?_,
    h.named o List.mem_cons_self, h.bare o List.mem_cons_self⟩
  obtain ⟨first, rest, hnames⟩ := List.exists_cons_of_ne_nil
    (List.concat_ne_nil inner.name (outers.map NamespaceHead.name))
  rw [h.name, List.map_cons, List.cons_append, hnames, String.intercalate_cons_cons]

theorem nameWithin_eq (h : head.Unfolds outers inner) (outer : Option String) :
    nameWithin outer (outers ++ [inner]) = some (qualify outer head.name) := by
  induction outers generalizing head outer with
  | nil => rw [h.name_nil]; rfl
  | cons o outers ih =>
    obtain ⟨rest, hrest, hname, hne, -⟩ := h.exists_rest
    rw [List.cons_append, hname, qualify_append outer hne]
    exact ih hrest _

end NamespaceHead.Unfolds

namespace Declarations

/-- The level of a namespace declaration, given the name and the levels of what is around it. -/
def levelOf (outer : Option String) (around : List Level) (head : NamespaceHead) : Level :=
  let plain := namespaceLevel outer head
  ⟨plain, aliasesOf head.usings (plain :: around.map Level.plain)⟩

theorem levelsWithin_append (outer : Option String) (around : List Level)
    (xs ys : List NamespaceHead) : levelsWithin outer around (xs ++ ys) =
      levelsWithin (nameWithin outer xs) (levelsWithin outer around xs) ys := by
  induction xs generalizing outer around with
  | nil => rfl
  | cons x xs ih => exact ih _ _

theorem levelsWithin_concat (outer : Option String) (around : List Level)
    (heads : List NamespaceHead) (head : NamespaceHead) :
    levelsWithin outer around (heads ++ [head]) =
      levelOf (nameWithin outer heads) (levelsWithin outer around heads) head ::
        levelsWithin outer around heads := levelsWithin_append outer around heads [head]

/-- Levels that have nothing but namespaces. -/
def Bare (ls : List Level) : Prop := ∀ l ∈ ls, l.plain.imports = [] ∧ l.aliases = []

theorem levelsWithin_bare {outers : List NamespaceHead} (h : ∀ o ∈ outers, o.usings = [])
    (outer : Option String) : ∃ bare, Bare bare ∧
      ∀ around, levelsWithin outer around outers = bare ++ around := by
  induction outers generalizing outer with
  | nil => exact ⟨[], fun _ hl => absurd hl List.not_mem_nil, fun _ => rfl⟩
  | cons o outers ih =>
    obtain ⟨bare, hbare, heq⟩ :=
      ih (fun o ho => h o (List.mem_cons_of_mem _ ho)) (some (qualify outer o.name))
    have ho := h o List.mem_cons_self
    refine ⟨bare ++ [levelOf outer [] o], fun l hl => ?_, fun around => ?_⟩
    · rcases List.mem_append.mp hl with hl | hl
      · exact hbare l hl
      · rw [List.mem_singleton.mp hl]
        simp [levelOf, namespaceLevel, ho, importsOf, aliasesOf]
    · have hlevel : levelOf outer around o = levelOf outer [] o := by
        simp [levelOf, ho, aliasesOf]
      rw [List.append_assoc, ← hlevel]
      exact heq _

/-- **Unfolding keeps the namespaces of a declaration**: those of the inner declaration come first, and
then those of the outer ones. -/
theorem spaces_unfold {head inner : NamespaceHead} {outers : List NamespaceHead}
    (h : head.Unfolds outers inner) (outer : Option String) :
    (namespaceLevel outer head).spaces = (namespaceLevel (nameWithin outer outers) inner).spaces ++
      (levelsWithin outer [] outers).flatMap fun l => l.plain.spaces := by
  induction outers generalizing head outer with
  | nil =>
    rw [namespaceLevel, h.name_nil]
    exact (List.append_nil _).symm
  | cons o outers ih =>
    obtain ⟨rest, hrest, hname, hne, hbare⟩ := h.exists_rest
    obtain ⟨bare, -, heq⟩ := levelsWithin_bare hrest.bare (some (qualify outer o.name))
    have hlevels : levelsWithin outer [] (o :: outers) =
        levelsWithin (some (qualify outer o.name)) [] outers ++ [levelOf outer [] o] := by
      rw [heq, List.append_nil]
      exact heq _
    have hspaces : (namespaceLevel outer head).spaces =
        (namespaceLevel (some (qualify outer o.name)) rest).spaces ++
          (namespaceLevel outer o).spaces := by
      simp only [namespaceLevel, hname, dottedPrefixes_append, List.reverse_append, List.map_append,
        ← List.map_reverse, List.map_map, Function.comp_def, qualify_append outer hne]
    rw [hspaces, ih hrest, hlevels, List.flatMap_append, ← List.append_assoc]
    simp [levelOf, nameWithin]

/-! ## Lookup at levels -/

variable {d : Declarations}

/-- The type of this name in the first of some namespaces that has one, as a symbol. -/
def declared? (d : Declarations) (spaces : List (Option String)) (n : String) (a : Nat) :
    Option TypeSymbol :=
  (d.inSpaces spaces n a).map .definition

/-- The alias of this name at a level. -/
def aliasNamed? (l : Level) (n : String) : Option Alias := l.aliases.find? fun a => a.name == n

/-- What the using directives of a level give a name as its meaning. -/
def directed? (d : Declarations) (l : Level) (n : String) (a : Nat) : Option TypeSymbol :=
  (if a = 0 then (aliasNamed? l n).map d.resolveAlias else none) <|>
    d.declared? (l.plain.imports.map some) n a

theorem declared?_append (xs ys : List (Option String)) (n : String) (a : Nat) :
    d.declared? (xs ++ ys) n a = (d.declared? xs n a <|> d.declared? ys n a) := by
  simp only [declared?, inSpaces, List.findSome?_append]
  cases xs.findSome? fun s => d.type? (.topLevel s n a) <;> rfl

theorem inSpaces_eq_some {spaces : List (Option String)} {n : String} {a : Nat} {k : DefinitionKey}
    (h : d.inSpaces spaces n a = some k) : k ∈ d.keys ∧ k.name = n ∧ k.arity = a := by
  obtain ⟨s, -, hs⟩ := List.exists_of_findSome?_eq_some h
  unfold type? at hs
  split_ifs at hs with hk
  obtain rfl := Option.some.inj hs
  exact ⟨hk, rfl, rfl⟩

/-- At a level a name means a type of its namespaces, or else what the using directives say. -/
theorem lookupLevel_cons (l : Level) (ls : List Level) (n : String) (a : Nat) :
    ((l :: ls).findSome? fun l => d.lookupLevel l n a) = (d.declared? l.plain.spaces n a <|>
      d.directed? l n a <|> ls.findSome? fun l => d.lookupLevel l n a) := by
  have hlevel : d.lookupLevel l n a = (d.declared? l.plain.spaces n a <|> d.directed? l n a) := rfl
  rw [List.findSome?_cons, hlevel]
  cases d.declared? l.plain.spaces n a with
  | some t => rfl
  | none => cases d.directed? l n a <;> rfl

theorem lookupPlain_cons (l : NamespaceLevel) (ls : List NamespaceLevel) (n : String) (a : Nat) :
    d.lookupPlain (l :: ls) n a = (d.declared? l.spaces n a <|>
      d.declared? (l.imports.map some) n a <|> d.lookupPlain ls n a) := by
  rw [lookupPlain, lookupPlain, List.findSome?_cons, declared?, declared?, inLevel, inImports]
  cases d.inSpaces l.spaces n a with
  | some k => rfl
  | none => cases d.inSpaces (l.imports.map some) n a <;> rfl

section

variable {bare : List Level} (hbare : Bare bare) (ls : List Level) (n : String) (a : Nat)

include hbare

theorem lookupLevel_bare : ((bare ++ ls).findSome? fun l => d.lookupLevel l n a) =
    (d.declared? (bare.flatMap fun l => l.plain.spaces) n a <|>
      ls.findSome? fun l => d.lookupLevel l n a) := by
  induction bare with
  | nil => rfl
  | cons l bare ih =>
    have hnone : d.directed? l n a = none := by
      obtain ⟨himports, haliases⟩ := hbare l List.mem_cons_self
      simp [directed?, aliasNamed?, himports, haliases, declared?, inSpaces]
    rw [List.cons_append, lookupLevel_cons, hnone, ih fun l hl => hbare l (List.mem_cons_of_mem _ hl),
      List.flatMap_cons, declared?_append]
    cases d.declared? l.plain.spaces n a <;> rfl

theorem lookupPlain_bare : d.lookupPlain ((bare ++ ls).map Level.plain) n a =
    (d.declared? (bare.flatMap fun l => l.plain.spaces) n a <|>
      d.lookupPlain (ls.map Level.plain) n a) := by
  induction bare with
  | nil => rfl
  | cons l bare ih =>
    have hnone : d.declared? (l.plain.imports.map some) n a = none := by
      rw [(hbare l List.mem_cons_self).1]
      rfl
    rw [List.cons_append, List.map_cons, lookupPlain_cons, hnone,
      ih fun l hl => hbare l (List.mem_cons_of_mem _ hl), List.flatMap_cons, declared?_append]
    cases d.declared? l.plain.spaces n a <;> rfl

end

/-! ## Names that are not contested -/

/-- **No using directive of a level competes with its outer namespaces**: where a name means nothing in
the first `own` namespaces of the level, but a type in the others, no alias and no imported namespace
gives it another meaning. -/
def Uncontested (d : Declarations) (l : Level) (own : Nat) : Prop :=
  ∀ k ∈ d.keys, d.inSpaces (l.plain.spaces.take own) k.name k.arity = none →
    d.inSpaces (l.plain.spaces.drop own) k.name k.arity = some k →
      (∀ k' ∈ d.inImports l.plain k.name k.arity, k' = k) ∧
      (k.arity = 0 → ∀ a ∈ aliasNamed? l k.name, d.resolveAlias a = .definition k)

instance (d : Declarations) (l : Level) (own : Nat) : Decidable (d.Uncontested l own) :=
  inferInstanceAs (Decidable (∀ k ∈ d.keys,
    d.inSpaces (l.plain.spaces.take own) k.name k.arity = none →
      d.inSpaces (l.plain.spaces.drop own) k.name k.arity = some k →
        (∀ k' ∈ d.inImports l.plain k.name k.arity, k' = k) ∧
        (k.arity = 0 → ∀ a ∈ aliasNamed? l k.name, d.resolveAlias a = .definition k)))

section

variable {l : Level} {own : Nat} (h : d.Uncontested l own) {n : String} {a : Nat}
  (hown : d.declared? (l.plain.spaces.take own) n a = none) {s : TypeSymbol}
  (hs : s ∈ d.declared? (l.plain.spaces.drop own) n a)

include h hown hs

theorem Uncontested.imports_agree : ∀ t ∈ d.declared? (l.plain.imports.map some) n a, t = s := by
  obtain ⟨k, hk, rfl⟩ := Option.map_eq_some_iff.mp hs
  obtain ⟨hmem, rfl, rfl⟩ := inSpaces_eq_some hk
  intro t ht
  obtain ⟨k', hk', rfl⟩ := Option.map_eq_some_iff.mp ht
  rw [(h k hmem (Option.map_eq_none_iff.mp hown) hk).1 k' hk']

theorem Uncontested.directed_agree : ∀ t ∈ d.directed? l n a, t = s := by
  intro t ht
  unfold directed? at ht
  cases halias : (if a = 0 then (aliasNamed? l n).map d.resolveAlias else none) with
  | none =>
    rw [halias] at ht
    exact h.imports_agree hown hs t ht
  | some t' =>
    rw [halias] at ht
    obtain rfl : t' = t := Option.some.inj ht
    obtain ⟨k, hk, rfl⟩ := Option.map_eq_some_iff.mp hs
    obtain ⟨hmem, rfl, rfl⟩ := inSpaces_eq_some hk
    split_ifs at halias with ha
    obtain ⟨al, hal, rfl⟩ := Option.map_eq_some_iff.mp halias
    exact (h k hmem (Option.map_eq_none_iff.mp hown) hk).2 ha al hal

end

/-! ## Unfolding one declaration -/

/-- Levels at which names have the same meanings, with aliases and without. -/
structure LevelsAlike (d : Declarations) (ls ls' : List Level) : Prop where
  lookup : ∀ n a, (ls.findSome? fun l => d.lookupLevel l n a) =
    ls'.findSome? fun l => d.lookupLevel l n a
  plain : d.lookupPlain (ls.map Level.plain) = d.lookupPlain (ls'.map Level.plain)
  spaces : (ls.flatMap fun l => l.plain.spaces) = ls'.flatMap fun l => l.plain.spaces

theorem LevelsAlike.refl (ls : List Level) : d.LevelsAlike ls ls := ⟨fun _ _ => rfl, rfl, rfl⟩

/-- What stands in the second place may as well stand in the third if it agrees with what stands
there. -/
theorem orElse_swap {α : Type} {x y z : Option α} (h : x = none → ∀ s ∈ y, ∀ t ∈ z, t = s)
    (rest : Option α) : ((x <|> y) <|> z <|> rest) = (x <|> z <|> y <|> rest) := by
  cases x with
  | some _ => rfl
  | none =>
    cases y with
    | none => cases z <;> rfl
    | some s =>
      cases z with
      | none => rfl
      | some t => rw [h rfl s rfl t rfl]; rfl

theorem map_resolveAlias_aliasesOf (us : List UsingDirective) {home home' : List NamespaceLevel}
    (hplain : d.lookupPlain home = d.lookupPlain home')
    (hspaces : home.flatMap NamespaceLevel.spaces = home'.flatMap NamespaceLevel.spaces) (n : String) :
    ((aliasesOf us home).find? fun a => a.name == n).map d.resolveAlias =
      ((aliasesOf us home').find? fun a => a.name == n).map d.resolveAlias := by
  have hhome : aliasesOf us home' = (aliasesOf us home).map fun a => { a with home := home' } := by
    rw [aliasesOf, aliasesOf, List.map_filterMap]
    congr 1
    funext u
    cases u.target <;> rfl
  have hsame : ∀ a ∈ aliasesOf us home, d.resolveAlias { a with home := home' } = d.resolveAlias a := by
    intro a ha
    obtain ⟨u, -, hu⟩ := List.mem_filterMap.mp ha
    have hahome : a.home = home := by
      split at hu <;> cases hu
      rfl
    rw [resolveAlias, resolveAlias, resolvePlain, resolvePlain, hahome, hplain, hspaces]
  rw [hhome, List.find?_map, Option.map_map]
  cases hfind : (aliasesOf us home).find? fun a => a.name == n with
  | none => simp [Function.comp_def, hfind]
  | some a =>
    simp [Function.comp_def, hfind, hsame a (List.mem_of_find?_eq_some hfind)]

/-- **A level may be taken apart**: what its last namespaces declare may be looked for after its using
directives, where these do not compete. -/
theorem LevelsAlike.apart {ls ls' bare : List Level} {l l' : Level}
    (h : d.LevelsAlike ls ls') (hbare : Bare bare) (us : List UsingDirective)
    (hspaces : l.plain.spaces = l'.plain.spaces ++ bare.flatMap fun l => l.plain.spaces)
    (himports : l'.plain.imports = l.plain.imports)
    (hl : l.aliases = aliasesOf us ((l :: ls).map Level.plain))
    (hl' : l'.aliases = aliasesOf us ((l' :: (bare ++ ls')).map Level.plain))
    (hok : d.Uncontested l l'.plain.spaces.length) :
    d.LevelsAlike (l :: ls) (l' :: (bare ++ ls')) := by
  have hown : l.plain.spaces.take l'.plain.spaces.length = l'.plain.spaces := by
    rw [hspaces, List.take_left]
  have hothers : l.plain.spaces.drop l'.plain.spaces.length =
      bare.flatMap fun l => l.plain.spaces := by rw [hspaces, List.drop_left]
  have hall : ((l :: ls).flatMap fun l => l.plain.spaces) =
      (l' :: (bare ++ ls')).flatMap fun l => l.plain.spaces := by
    rw [List.flatMap_cons, List.flatMap_cons, List.flatMap_append, hspaces, h.spaces,
      List.append_assoc]
  have hplain : d.lookupPlain ((l :: ls).map Level.plain) =
      d.lookupPlain ((l' :: (bare ++ ls')).map Level.plain) := by
    funext n a
    rw [List.map_cons, List.map_cons, lookupPlain_cons, lookupPlain_cons, lookupPlain_bare hbare,
      h.plain, himports, hspaces, declared?_append]
    refine orElse_swap (fun hnone s hs => ?_) _
    exact hok.imports_agree (by rwa [hown]) (by rwa [hothers])
  -- aliases are resolved without aliases, so that they mean the same follows from what is known by now
  have hdirected : d.directed? l' = d.directed? l := by
    have hhomes : ((l :: ls).map Level.plain).flatMap NamespaceLevel.spaces =
        ((l' :: (bare ++ ls')).map Level.plain).flatMap NamespaceLevel.spaces := by
      rw [List.flatMap_map, List.flatMap_map]
      exact hall
    funext n a
    rw [directed?, directed?, aliasNamed?, aliasNamed?, hl, hl', himports,
      map_resolveAlias_aliasesOf us hplain hhomes]
  refine ⟨fun n a => ?_, hplain, hall⟩
  rw [lookupLevel_cons, lookupLevel_cons, lookupLevel_bare hbare, h.lookup, hdirected, hspaces,
    declared?_append]
  refine orElse_swap (fun hnone s hs => ?_) _
  exact hok.directed_agree (by rwa [hown]) (by rwa [hothers])

/-- **Unfolding keeps the meanings of names** at a declaration whose outer namespaces are uncontested. -/
theorem LevelsAlike.unfold {head inner : NamespaceHead} {outers : List NamespaceHead}
    {ls ls' : List Level} {outer : Option String} (h : d.LevelsAlike ls ls')
    (hu : head.Unfolds outers inner)
    (hok : d.Uncontested (levelOf outer ls head) (dottedPrefixes inner.name).length) :
    d.LevelsAlike (levelOf outer ls head :: ls) (levelsWithin outer ls' (outers ++ [inner])) := by
  obtain ⟨bare, hbare, heq⟩ := levelsWithin_bare hu.bare outer
  rw [levelsWithin_concat, heq]
  refine h.apart hbare head.usings ?_ ?_ rfl ?_ ?_
  · change (namespaceLevel outer head).spaces = _
    rw [spaces_unfold hu, heq, List.append_nil]
    rfl
  · simp only [levelOf, namespaceLevel, hu.usings]
  · rw [← hu.usings]
    rfl
  · have hlength : (namespaceLevel (nameWithin outer outers) inner).spaces.length =
        (dottedPrefixes inner.name).length := by simp [namespaceLevel]
    rw [← hlength] at hok
    exact hok

end Declarations

/-! ## Sources -/

/-- A place in sources, and the same place where some namespaces around it are unfolded. -/
structure Site.Unfolded (d d' : Declarations) (s s' : Site) : Prop where
  name : nameWithin none s.namespaces = nameWithin none s'.namespaces
  levels : d.LevelsAlike (d.levelsAt s) (d'.levelsAt s')
  directives : s.directives = s'.directives

/-- What may be unfolded in a source: declarations whose outer namespaces are uncontested. -/
def Declarations.mayUnfold (d : Declarations) (tree : Nat) : Unfolding := fun around head inner =>
  d.Uncontested (Declarations.levelOf (nameWithin none around)
    (Declarations.levelsWithin none [d.outermostLevel tree] around) head)
    (dottedPrefixes inner.name).length

section

variable {d d' : Declarations} {tree : Nat}

theorem Site.Unfolded.inType {s s' : Site} (i : Nat) (head : TypeHead) (h : s.Unfolded d d' s') :
    (s.inType i head).Unfolded d d' (s'.inType i head) := ⟨h.name, h.levels, h.directives⟩

theorem Site.Unfolded.inNamespace {s s' : Site} {head inner : NamespaceHead}
    {outers : List NamespaceHead} (h : s.Unfolded d d' s') (hu : head.Unfolds outers inner)
    (hmay : d.mayUnfold s.tree s.namespaces head inner) (i : Nat) {inside : Site}
    (hspaces : inside.namespaces = s'.namespaces ++ (outers ++ [inner]))
    (hunit : inside.unit = s'.unit) (htree : inside.tree = s'.tree) :
    (s.inNamespace i head).Unfolded d d' inside where
  name := by
    rw [hspaces, nameWithin_append, hu.nameWithin_eq, ← h.name]
    exact nameWithin_append none s.namespaces [head]
  levels := by
    have hbefore : d.levelsAt (s.inNamespace i head) =
        Declarations.levelOf (nameWithin none s.namespaces) (d.levelsAt s) head :: d.levelsAt s :=
      Declarations.levelsWithin_concat none _ s.namespaces head
    have hafter : d'.levelsAt inside =
        Declarations.levelsWithin (nameWithin none s.namespaces) (d'.levelsAt s')
          (outers ++ [inner]) := by
      rw [Declarations.levelsAt, hspaces, htree, Declarations.levelsWithin_append, ← h.name]
      rfl
    rw [hbefore, hafter]
    exact h.levels.unfold hu hmay
  directives := by
    have hbare : outers.reverse.flatMap NamespaceHead.usings = [] :=
      List.flatMap_eq_nil_iff.mpr fun o ho => hu.bare o (List.mem_reverse.mp ho)
    have hdirectives := h.directives
    simp only [Site.directives] at hdirectives
    simp only [Site.directives, Site.inNamespace, hspaces, hunit, List.reverse_append,
      List.reverse_cons, List.reverse_nil, List.nil_append, List.cons_append, List.flatMap_cons,
      List.flatMap_append, hbare, hu.usings, List.append_assoc, hdirectives]

theorem NamespaceMember.declare_within (inner : NamespaceHead) (members : List NamespaceMember)
    (outers : List NamespaceHead) (s : Site) (i : Nat) (space : Option String) : ∃ inside : Site,
      inside.namespaces = s.namespaces ++ (outers ++ [inner]) ∧ inside.unit = s.unit ∧
      inside.tree = s.tree ∧ ((NamespaceMember.space inner members).within outers).declare s i space =
        NamespaceMember.declareAll inside 0 (nameWithin space (outers ++ [inner])) members := by
  induction outers generalizing s i space with
  | nil => exact ⟨s.inNamespace i inner, rfl, rfl, rfl, rfl⟩
  | cons o outers ih =>
    obtain ⟨inside, hspaces, hunit, htree, hdeclare⟩ :=
      ih (s.inNamespace i o) 0 (some (qualify space o.name))
    refine ⟨inside, ?_, hunit, htree, ?_⟩
    · rw [hspaces]
      simp [Site.inNamespace]
    · rw [within, declare, declareAll, declareAll, List.append_nil, hdeclare]
      rfl

mutual

theorem NamespaceMember.unfolded_declare : (m : NamespaceMember) → {m' : NamespaceMember} →
    {s s' : Site} → m.Unfolds (d.mayUnfold s.tree) s.namespaces m' → s.Unfolded d d' s' → (i : Nat) →
    List.Forall₂ (Declared.At (Site.Unfolded d d')) (m.declare s i (nameWithin none s.namespaces))
      (m'.declare s' i (nameWithin none s'.namespaces))
  | .space head members, _, s, s',
      @NamespaceMember.Unfolds.space _ _ _ outers inner _ _ hhead hmay hmembers, h, i => by
    obtain ⟨inside, hspaces, hunit, htree, hdeclare⟩ := NamespaceMember.declare_within inner _ outers
      s' i (nameWithin none s'.namespaces)
    have hinside := h.inNamespace hhead hmay i hspaces hunit htree
    have hname : nameWithin none (s.inNamespace i head).namespaces =
        some (qualify (nameWithin none s.namespaces) head.name) := nameWithin_append none _ [head]
    rw [hdeclare, ← nameWithin_append, ← hspaces, NamespaceMember.declare, ← hname]
    exact NamespaceMember.unfolded_declareAll members hmembers hinside 0
  | .type t, _, s, s', .type _ _, h, i => by
    rw [← h.name]
    exact Member.forall₂_declare (fun i head h => h.inType i head) _ (.type t.head t.members) h i none

theorem NamespaceMember.unfolded_declareAll : (ms : List NamespaceMember) →
    {ms' : List NamespaceMember} → {s s' : Site} →
    NamespaceMember.UnfoldsAll (d.mayUnfold s.tree) s.namespaces ms ms' → s.Unfolded d d' s' →
    (i : Nat) → List.Forall₂ (Declared.At (Site.Unfolded d d'))
      (NamespaceMember.declareAll s i (nameWithin none s.namespaces) ms)
      (NamespaceMember.declareAll s' i (nameWithin none s'.namespaces) ms')
  | [], _, _, _, .nil _, _, _ => .nil
  | m :: ms, _, _, _, .cons hm hms, h, i => by
    rw [NamespaceMember.declareAll, NamespaceMember.declareAll]
    exact List.rel_append (NamespaceMember.unfolded_declare m hm h i)
      (NamespaceMember.unfolded_declareAll ms hms h (i + 1))

end

/-- **A source in which namespaces are unfolded** declares the same types. -/
theorem CompilationUnit.unfolded_declare {u u' : CompilationUnit} {i : Nat}
    (hu : u.Unfolds (d.mayUnfold i) u')
    (houtside : (Site.ofUnit i u).Unfolded d d' (.ofUnit i u')) :
    List.Forall₂ (Declared.At (Site.Unfolded d d')) (u.declare i) (u'.declare i) := by
  have hmembers : NamespaceMember.UnfoldsAll (d.mayUnfold (Site.ofUnit i u).tree)
      (Site.ofUnit i u).namespaces u.members u'.members := hu.members
  exact NamespaceMember.unfolded_declareAll u.members hmembers houtside 0

end

/-! ## Namespaces -/

theorem NamespaceMember.mem_spaces_within {head inner : NamespaceHead} {outers : List NamespaceHead}
    (h : head.Unfolds outers inner) (members : List NamespaceMember) (space : Option String)
    (n : String) : n ∈ ((NamespaceMember.space inner members).within outers).spaces space ↔
      n ∈ dottedPrefixes (qualify space head.name) ∨
        n ∈ NamespaceMember.spacesAll (some (qualify space head.name)) members := by
  induction outers generalizing head space with
  | nil => rw [h.name_nil, within, spaces, List.mem_append]
  | cons o outers ih =>
    obtain ⟨rest, hrest, hname, hne, -⟩ := h.exists_rest
    have hprefixes : dottedPrefixes (qualify space head.name) =
        dottedPrefixes (qualify space o.name) ++
          (dottedPrefixes rest.name).map fun n => qualify space o.name ++ "." ++ n := by
      rw [hname, qualify_append space hne, qualify_some (qualify_ne_empty space hne),
        dottedPrefixes_append]
    rw [within, spaces, spacesAll, spacesAll, List.append_nil, List.mem_append, ih hrest,
      ← qualify_append space hne, ← hname, hprefixes, List.mem_append]
    tauto

mutual

theorem NamespaceMember.mem_spaces_unfold {may : Unfolding} : (m : NamespaceMember) →
    {around : List NamespaceHead} → {m' : NamespaceMember} → m.Unfolds may around m' →
    (space : Option String) → (n : String) → (n ∈ m.spaces space ↔ n ∈ m'.spaces space)
  | .space head members, _, _, .space hhead _ hmembers, outer, n => by
    rw [NamespaceMember.mem_spaces_within hhead, NamespaceMember.spaces, List.mem_append,
      NamespaceMember.mem_spacesAll_unfold members hmembers]
  | .type _, _, _, .type _ _, _, _ => Iff.rfl

theorem NamespaceMember.mem_spacesAll_unfold {may : Unfolding} : (ms : List NamespaceMember) →
    {around : List NamespaceHead} → {ms' : List NamespaceMember} →
    NamespaceMember.UnfoldsAll may around ms ms' → (space : Option String) → (n : String) →
    (n ∈ NamespaceMember.spacesAll space ms ↔ n ∈ NamespaceMember.spacesAll space ms')
  | [], _, _, .nil _, _, _ => Iff.rfl
  | m :: ms, _, _, .cons hm hms, outer, n => by
    rw [NamespaceMember.spacesAll, NamespaceMember.spacesAll, List.mem_append, List.mem_append,
      NamespaceMember.mem_spaces_unfold m hm, NamespaceMember.mem_spacesAll_unfold ms hms]

end

/-! ## Programs -/

section

variable {may : Nat → Unfolding} {units units' : List CompilationUnit}

theorem mem_flatMap_congr {α β γ : Type} {R : α → β → Prop} {f : α → List γ} {g : β → List γ}
    (hR : ∀ a b, R a b → ∀ n, n ∈ f a ↔ n ∈ g b) {xs : List α} {ys : List β}
    (h : List.Forall₂ R xs ys) (n : γ) : n ∈ xs.flatMap f ↔ n ∈ ys.flatMap g := by
  induction h with
  | nil => exact Iff.rfl
  | cons hab _ ih =>
    rw [List.flatMap_cons, List.flatMap_cons, List.mem_append, List.mem_append, hR _ _ hab, ih]

theorem UnfoldsTo.forall₂ (h : UnfoldsTo may units units') :
    List.Forall₂ (fun u u' => u.2 = u'.2 ∧ u.1.Unfolds (may u.2) u'.1) units.zipIdx units'.zipIdx := by
  rw [List.forall₂_iff_get]
  refine ⟨by simp [h.length], fun i hi hi' => ?_⟩
  rw [List.length_zipIdx] at hi hi'
  simp only [List.get_eq_getElem, List.getElem_zipIdx, Nat.zero_add]
  exact ⟨trivial, h.unit i hi hi'⟩

namespace Declarations

theorem sameSource_unfold (h : UnfoldsTo may units units') (i : Nat) :
    SameSource (ofUnits units) (ofUnits units') i i where
  usings := by
    simp only [usingsOf, ofUnits]
    by_cases hi : i < units.length
    · have hi' : i < units'.length := h.length ▸ hi
      rw [List.getElem?_eq_getElem hi, List.getElem?_eq_getElem hi']
      exact (h.unit i hi hi').usings
    · rw [List.getElem?_eq_none (by omega), List.getElem?_eq_none (by rw [← h.length]; omega)]
  globals := by
    have hglobals : (ofUnits units).globalUsings = (ofUnits units').globalUsings := by
      rw [globalUsings, globalUsings, List.mapIdx_eq_zipIdx_map, List.mapIdx_eq_zipIdx_map]
      refine congrArg List.flatten (map_eq_of_forall₂ (fun u u' hu => ?_) h.forall₂)
      simp only [hu.1, hu.2.usings]
    rw [foreignGlobals, foreignGlobals, hglobals]

/-- **Unfolding keeps the types that are declared**, and the namespaces around their declarations. -/
theorem declared_unfold (h : UnfoldsTo (ofUnits units).mayUnfold units units') :
    List.Forall₂ (Declared.At (Site.Unfolded (ofUnits units) (ofUnits units')))
      (ofUnits units).declared (ofUnits units').declared := by
  have hdeclared (us : List CompilationUnit) :
      (ofUnits us).declared = (us.zipIdx.map fun u => u.1.declare u.2).flatten := by
    simp only [ofUnits, List.mapIdx_eq_zipIdx_map]
  rw [hdeclared units, hdeclared units']
  refine List.rel_flatten (List.rel_map (fun u u' hu => ?_) h.forall₂)
  obtain ⟨u, i⟩ := u
  obtain ⟨u', i'⟩ := u'
  obtain ⟨rfl, hu⟩ := hu
  have hsource := sameSource_unfold h i
  have houtside : (Site.ofUnit i u).Unfolded (ofUnits units) (ofUnits units') (.ofUnit i u') := by
    refine ⟨rfl, ?_, hu.usings⟩
    have hlevel := hsource.outermostLevel_eq fun g _ => sameSource_unfold h g.1
    change LevelsAlike _ [(ofUnits units).outermostLevel i] [(ofUnits units').outermostLevel i]
    rw [hlevel]
    exact .refl _
  exact CompilationUnit.unfolded_declare hu houtside

theorem sitesOf_unfold (h : UnfoldsTo (ofUnits units).mayUnfold units units') (k : DefinitionKey) :
    List.Forall₂ (TypeSite.At (Site.Unfolded (ofUnits units) (ofUnits units')))
      ((ofUnits units).sitesOf k) ((ofUnits units').sitesOf k) := by
  refine List.rel_map (fun e e' he => he.site) (List.rel_filter (fun e e' he => ?_) (declared_unfold h))
  change (e.key == k) = true ↔ (e'.key == k) = true
  rw [he.key]

theorem alike_unfold (h : UnfoldsTo (ofUnits units).mayUnfold units units') (k : DefinitionKey) :
    List.Forall₂ TypeSite.Alike ((ofUnits units).sitesOf k) ((ofUnits units').sitesOf k) :=
  (sitesOf_unfold h k).imp fun _ _ ht => ⟨ht.declaration, ht.site.directives⟩

theorem keys_unfold (h : UnfoldsTo (ofUnits units).mayUnfold units units') :
    (ofUnits units).keys = (ofUnits units').keys := by
  have hkeys := map_eq_of_forall₂ (fun _ _ he => Declared.At.key he) (declared_unfold h)
  exact congrArg List.eraseDups hkeys

theorem knowsSame_unfold (h : UnfoldsTo (ofUnits units).mayUnfold units units') :
    (ofUnits units).KnowsSame (ofUnits units') where
  keys k := by rw [keys_unfold h]
  spaces n := by
    have hunits : List.Forall₂ (fun u u' => ∃ may, CompilationUnit.Unfolds may u u') units units' :=
      List.forall₂_iff_get.mpr ⟨h.length, fun i hi hi' => ⟨_, h.unit i hi hi'⟩⟩
    simp only [ofUnits, List.mem_eraseDups]
    refine mem_flatMap_congr (fun u u' hu n => ?_) hunits n
    obtain ⟨_, hu⟩ := hu
    exact NamespaceMember.mem_spacesAll_unfold u.members hu.members none n

end Declarations

theorem Environment.sameAt_unfold (h : UnfoldsTo (Declarations.ofUnits units).mayUnfold units units')
    (hprogram : (Environment.ofUnits units).program.Agrees (Environment.ofUnits units').program)
    {k : DefinitionKey} {t t' : TypeSite} (ht : t ∈ (Declarations.ofUnits units).sitesOf k)
    (ht' : t' ∈ (Declarations.ofUnits units').sitesOf k)
    (hsite : t.site.Unfolded (Declarations.ofUnits units) (Declarations.ofUnits units') t'.site) :
    (Environment.ofUnits units).SameAt (Environment.ofUnits units') t t' := by
  have hknows := Declarations.knowsSame_unfold h
  intro ps
  refine resolve_eq_of_lookup hknows ?_ hsite.levels.spaces
  funext n a
  have hcontaining : ((Declarations.ofUnits units).scopeAt t).containing =
      ((Declarations.ofUnits units').scopeAt t').containing :=
    (Declarations.containing_scopeAt ht).trans (Declarations.containing_scopeAt ht').symm
  have hlevels : (((Declarations.ofUnits units).scopeAt t).levels.findSome? fun l =>
      (Declarations.ofUnits units).lookupLevel l n a) =
      ((Declarations.ofUnits units').scopeAt t').levels.findSome? fun l =>
        (Declarations.ofUnits units').lookupLevel l n a := by
    rw [← hknows.lookupLevel_eq]
    exact hsite.levels.lookup n a
  change (parameterNamed? ps n a <|> ((Declarations.ofUnits units).scopeAt t).containing.findSome?
      ((Environment.ofUnits units).lookupContaining n a) <|>
        ((Declarations.ofUnits units).scopeAt t).levels.findSome? fun l =>
          (Declarations.ofUnits units).lookupLevel l n a) = _
  rw [hcontaining, hlevels, lookupContaining_eq hknows hprogram]
  rfl

theorem Environment.agrees_unfold (h : UnfoldsTo (Declarations.ofUnits units).mayUnfold units units') :
    (Environment.ofUnits units).program.Agrees (Environment.ofUnits units').program :=
  Environment.agrees (Declarations.knowsSame_unfold h) (Declarations.alike_unfold h)

/-- **Programs in which uncontested namespaces are unfolded agree.** -/
theorem Model.agrees_unfold (h : UnfoldsTo (Declarations.ofUnits units).mayUnfold units units') :
    (Model.ofUnits units).program.Agrees (Model.ofUnits units').program := by
  have hknows := Declarations.knowsSame_unfold h
  have hsites := Declarations.sitesOf_unfold h
  exact Model.agrees hknows (Declarations.alike_unfold h) fun k =>
    forall₂_of_mem (hsites k) fun t ht t' ht' hsite =>
      Environment.sameAt_unfold h (Environment.agrees_unfold h) ht ht' hsite.site

end

/-! ## Dotted and nested namespaces -/

/-- **Dotted namespaces equal nested ones** where no name is contested. Unfold any namespace declarations
of some sources, at any depth and each into any number of declarations, whose using directives give no
name another meaning than a type of the outer namespaces has that is not one of the inner ones. Then the
types are the same, in the same order, and differ at most in where their declarations stand: so they keep
their metadata names, base types, interfaces and methods. Each declaration declares the type that it did,
and whatever is written in it means the type that it meant. -/
theorem Model.unfold_invariant {units units' : List CompilationUnit}
    (h : UnfoldsTo (Declarations.ofUnits units).mayUnfold units units') :
    let m := Model.ofUnits units
    let m' := Model.ofUnits units'
    List.Forall₂ (fun d d' => d' = { d with sites := d'.sites }) m.program.definitions
      m'.program.definitions ∧
    List.Forall₂ (fun t t' => t.declaration = t'.declaration ∧
      m.declaredSymbol? t.id = m'.declaredSymbol? t'.id ∧
      ∀ written, m.resolveAt t written = m'.resolveAt t' written)
      (typeSitesOf units) (typeSitesOf units') := by
  intro m m'
  have hagrees : m.program.Agrees m'.program := Model.agrees_unfold h
  constructor
  · have hkeys : m.program.definitions.map Definition.key = m'.program.definitions.map Definition.key := by
      rw [Model.map_key_definitions, Model.map_key_definitions, Declarations.keys_unfold h]
    rw [← List.forall₂_eq_eq_eq, List.forall₂_map_left_iff, List.forall₂_map_right_iff] at hkeys
    refine forall₂_of_mem hkeys fun d hd d' hd' hkey => ?_
    rcases hagrees.both d.key with ⟨hnone, -⟩ | ⟨d₀, d₀', hd₀, hd₀', hagree⟩
    · rw [Model.definition?_of_mem hd] at hnone
      cases hnone
    · rw [Model.definition?_of_mem hd, Option.some.injEq] at hd₀
      rw [hkey, Model.definition?_of_mem hd', Option.some.injEq] at hd₀'
      rw [hd₀, hd₀']
      exact hagree.eq
  · rw [← Declarations.map_site_declared, ← Declarations.map_site_declared,
      List.forall₂_map_left_iff, List.forall₂_map_right_iff]
    refine forall₂_of_mem (Declarations.declared_unfold h) fun e he e' he' hat => ?_
    have hmem : e.site ∈ (Declarations.ofUnits units).sitesOf e.key :=
      Declarations.mem_sitesOf.mpr he
    have hmem' : e'.site ∈ (Declarations.ofUnits units').sitesOf e.key := by
      rw [hat.key]
      exact Declarations.mem_sitesOf.mpr he'
    have hsame := Environment.sameAt_unfold h (Environment.agrees_unfold h) hmem hmem' hat.site.site
    refine ⟨hat.site.declaration, ?_, fun written => congrFun hsame.resolve_eq written⟩
    rw [Model.declaredSymbol?_of_mem he, Model.declaredSymbol?_of_mem he', hat.key]

section Example

/-- An interface with these base types. -/
def interfaceNamed (name : String) (baseTypes : List TypeSyntax) : NamespaceMember :=
  .type ⟨⟨.interfaceForm, name, [], baseTypes, [], [], [], none, none⟩, []⟩

/-- A namespace declaration with these using directives. -/
def namespaceNamed (name : String) (usings : List UsingDirective) : NamespaceHead :=
  ⟨name, false, usings, none⟩

/-- A source with an interface `X` in `A` and another one in `B`, and after them what is given. -/
def unitBefore (other : String) (last : NamespaceMember) : CompilationUnit :=
  ⟨"", [], [.space (namespaceNamed "A" []) [interfaceNamed "X" []],
    .space (namespaceNamed "B" []) [interfaceNamed other []], last], none⟩

/-- An interface based on `X` and the other one. -/
def derivedInterface (other : String) : NamespaceMember :=
  interfaceNamed "I" [.named false [.mk "X" []], .named false [.mk other []]]

/-- The namespace `A.C`, which imports `B`. -/
def dottedUnit (other : String) : CompilationUnit :=
  unitBefore other (.space (namespaceNamed "A.C" [⟨.space "B", false, none⟩]) [derivedInterface other])

/-- The namespace `C` in `A`, which imports `B`. -/
def nestedUnit (other : String) : CompilationUnit :=
  unitBefore other (.space (namespaceNamed "A" [])
    [.space (namespaceNamed "C" [⟨.space "B", false, none⟩]) [derivedInterface other]])

theorem NamespaceHead.unfolds_self (head : NamespaceHead) : head.Unfolds [] head :=
  ⟨by simp, by simp, by simp, rfl⟩

theorem unfoldsTo_nestedUnit {may : Nat → Unfolding} {other : String}
    (hA : may 0 [] (namespaceNamed "A" []) (namespaceNamed "A" []))
    (hB : may 0 [] (namespaceNamed "B" []) (namespaceNamed "B" []))
    (hC : may 0 [] (namespaceNamed "A.C" [⟨.space "B", false, none⟩])
      (namespaceNamed "C" [⟨.space "B", false, none⟩])) :
    UnfoldsTo may [dottedUnit other] [nestedUnit other] where
  length := rfl
  unit i hi _ := by
    obtain rfl := Nat.lt_one_iff.mp hi
    have hsplit : (namespaceNamed "A.C" [⟨.space "B", false, none⟩]).Unfolds [namespaceNamed "A" []]
        (namespaceNamed "C" [⟨.space "B", false, none⟩]) :=
      ⟨by decide, by decide, by decide, rfl⟩
    exact ⟨rfl, .cons (.space (NamespaceHead.unfolds_self _) hA (.cons (.type _ _) (.nil _)))
      (.cons (.space (NamespaceHead.unfolds_self _) hB (.cons (.type _ _) (.nil _)))
        (.cons (.space hsplit hC (.cons (.type _ _) (.nil _))) (.nil _)))⟩

/-- The import of `B` does not compete with `A`, so `A.C` may be written as `C` in `A`. -/
theorem Model.unfold_invariant_imported :
    UnfoldsTo (Declarations.ofUnits [dottedUnit "Y"]).mayUnfold [dottedUnit "Y"] [nestedUnit "Y"] ∧
      List.Forall₂ (fun d d' => d' = { d with sites := d'.sites })
        (Model.ofUnits [dottedUnit "Y"]).program.definitions
        (Model.ofUnits [nestedUnit "Y"]).program.definitions := by
  have h : UnfoldsTo (Declarations.ofUnits [dottedUnit "Y"]).mayUnfold [dottedUnit "Y"]
      [nestedUnit "Y"] :=
    unfoldsTo_nestedUnit (by unfold Declarations.mayUnfold; decide +kernel)
      (by unfold Declarations.mayUnfold; decide +kernel)
      (by unfold Declarations.mayUnfold; decide +kernel)
  exact ⟨h, (Model.unfold_invariant h).1⟩

/-- **Dotted namespaces need not equal nested ones.** Where the import of `B` competes with `A`, the
interface `X` is that of `A` within `A.C`, but that of `B` within `C` in `A`. -/
theorem not_unfold_invariant : ¬ ∀ units units',
    UnfoldsTo (fun _ _ _ _ => True) units units' →
      List.Forall₂ (fun d d' => d.key.metadataName = d'.key.metadataName ∧
          d.baseType = d'.baseType ∧ d.interfaces = d'.interfaces ∧ d.methods = d'.methods)
        (Model.ofUnits units).program.definitions (Model.ofUnits units').program.definitions := by
  intro h
  have hsame := h [dottedUnit "X"] [nestedUnit "X"] (unfoldsTo_nestedUnit trivial trivial trivial)
  have hinterfaces := map_eq_of_forall₂ (fun d d' hd => hd.2.2.1) hsame
  revert hinterfaces
  decide +kernel

end Example

end Facade
