import Facade.Proofs.Binding.Visible
import Facade.Proofs.Syntax.ReadAlias

/-!
# Types as they are seen from a place

The text of a type names its parts by their full names. Read at some place it means the type again if
all that it names is seen from there under that name, and only then.

* `Program.nameParts`: the qualified name of a declared type as it is written;
* `Program.IsLegible`: the names in the text of a type are read as names;
* `Model.Sees`: all that the text of a type names means the same at a place;
* **`Model.exists_spelling`**: the text of a type is read, and means the type where it is seen.
-/

namespace Facade

open Text

/-! ## Qualified names -/

theorem Dotted.named_of_mem_split {s n : String} (hs : Dotted s) (hn : n ∈ split '.' s) :
    Named n := by
  obtain ⟨names, hne, hnames, rfl⟩ := hs
  have hdot : ∀ m ∈ names, '.' ∉ m.toList := fun m hm hmem =>
    (hnames m hm).without (c := '.') (by decide) (by decide) '.' hmem rfl
  rw [split_intercalate hne hdot] at hn
  exact hnames n hn

theorem DefinitionKey.named_of_mem_segments {k : DefinitionKey} (hk : k.IsWritten) {n : String}
    (hn : n ∈ k.segments) : Named n := by
  induction k with
  | topLevel space m a =>
    cases space with
    | none => cases hn
    | some s => exact (hk.1 s rfl).named_of_mem_split hn
  | nested o m a ih => exact ih hk.1 hn

theorem DefinitionKey.IsWritten.named {k : DefinitionKey} (hk : k.IsWritten) : Named k.name := by
  cases k with
  | topLevel => exact hk.2
  | nested => exact hk.2

/-- The name of a part and the number of its type arguments. -/
def NamePart.shape (q : NamePart) : String × Nat := (q.name, q.arity)

namespace Program

variable (p : Program)

/-- What stands before the name of a declared type where it is written with its full name. -/
def qualifier : DefinitionKey → List NamePart
  | .topLevel space n a => (DefinitionKey.topLevel space n a).segments.map fun m => .mk m []
  | .nested o _ _ => qualifier o ++ [.mk o.name (parameterSyntax (p.typeParameters o))]

/-- The full name of a declared type with type arguments. -/
def nameParts (k : DefinitionKey) (arguments : List TypeSyntax) : List NamePart :=
  p.qualifier k ++ [.mk k.name arguments]

variable {p}

theorem intercalate_qualifier {k : DefinitionKey} (hk : k.IsWritten) :
    ".".intercalate ((p.qualifier k).map NamePart.text ++ [k.name]) = p.qualifiedName k := by
  induction k with
  | topLevel space n a =>
    cases space with
    | none => simp [qualifier, DefinitionKey.segments, DefinitionKey.space, qualifiedName, qualify,
        DefinitionKey.name]
    | some s =>
      have hparts : (p.qualifier (.topLevel (some s) n a)).map NamePart.text = split '.' s := by
        simp [qualifier, DefinitionKey.segments, DefinitionKey.space, NamePart.text_mk_nil,
          Function.comp_def]
      rw [hparts, String.intercalate_append_of_ne_nil (split_ne_nil '.' s) (by simp),
        intercalate_split, qualifiedName, qualify_dotted (hk.1 s rfl), String.intercalate_singleton]
      rfl
  | nested o n a ih =>
    rw [qualifier, String.intercalate_append_of_ne_nil (by simp) (by simp),
      intercalate_withArguments, ih hk.1, text_parameterSyntax, String.intercalate_singleton]
    rfl

theorem text_nameParts {k : DefinitionKey} (hk : k.IsWritten) (arguments : List TypeSyntax) :
    (TypeSyntax.named false (p.nameParts k arguments)).text =
      withArguments (p.qualifiedName k) (arguments.map TypeSyntax.text) := by
  rw [TypeSyntax.text, NamePart.texts_eq_map, nameParts, intercalate_withArguments,
    intercalate_qualifier hk]
  simp

theorem named_of_mem_qualifier {k : DefinitionKey} (hk : k.IsWritten) {q : NamePart}
    (hq : q ∈ p.qualifier k) : Named q.name := by
  induction k with
  | topLevel space n a =>
    obtain ⟨m, hm, rfl⟩ := List.mem_map.mp hq
    exact DefinitionKey.named_of_mem_segments hk hm
  | nested o n a ih =>
    rcases List.mem_append.mp hq with hq | hq
    · exact ih hk.1 hq
    · rw [List.mem_singleton.mp hq]
      exact hk.1.named

theorem arguments_of_mem_qualifier {k : DefinitionKey} {q : NamePart} (hq : q ∈ p.qualifier k) :
    q.arguments = [] ∨ ∃ o ∈ k.withOuter.tail, q.arguments = parameterSyntax (p.typeParameters o) := by
  induction k with
  | topLevel space n a =>
    obtain ⟨m, -, rfl⟩ := List.mem_map.mp hq
    exact Or.inl rfl
  | nested o n a ih =>
    rw [DefinitionKey.withOuter, List.tail_cons]
    rcases List.mem_append.mp hq with hq | hq
    · exact (ih hq).imp_right fun ⟨o', ho', h⟩ => ⟨o', List.mem_of_mem_tail ho', h⟩
    · rw [List.mem_singleton.mp hq]
      exact Or.inr ⟨o, by cases o <;> simp [DefinitionKey.withOuter], rfl⟩

theorem names_nameParts (k : DefinitionKey) (arguments : List TypeSyntax) :
    (p.nameParts k arguments).map NamePart.name = k.path.map Prod.fst := by
  have hqualifier : (p.qualifier k).map NamePart.name ++ [k.name] = k.path.map Prod.fst := by
    induction k with
    | topLevel space n a =>
      simp [qualifier, DefinitionKey.path, DefinitionKey.chain, NamePart.name, DefinitionKey.name,
        Function.comp_def]
    | nested o n a ih =>
      rw [qualifier, List.map_append, List.map_singleton, NamePart.name, ih]
      simp [DefinitionKey.path, DefinitionKey.chain, DefinitionKey.name, DefinitionKey.segments,
        DefinitionKey.space]
  rw [← hqualifier, nameParts, List.map_append]
  rfl

theorem shape_nameParts {k : DefinitionKey}
    (houter : ∀ o ∈ k.withOuter.tail, (p.typeParameters o).length = o.arity)
    {arguments : List TypeSyntax} (harity : arguments.length = k.arity) :
    (p.nameParts k arguments).map NamePart.shape = k.path := by
  have hqualifier : (p.qualifier k).map NamePart.shape ++ [(k.name, k.arity)] = k.path := by
    clear harity
    induction k with
    | topLevel space n a =>
      simp [qualifier, DefinitionKey.path, DefinitionKey.chain, NamePart.shape, NamePart.name,
        NamePart.arity, NamePart.arguments, DefinitionKey.name, DefinitionKey.arity,
        Function.comp_def]
    | nested o n a ih =>
      rw [DefinitionKey.withOuter, List.tail_cons] at houter
      have hlength : (parameterSyntax (p.typeParameters o)).length = o.arity := by
        rw [parameterSyntax, List.length_map]
        exact houter o (by cases o <;> simp [DefinitionKey.withOuter])
      have hshape : (NamePart.mk o.name (parameterSyntax (p.typeParameters o))).shape =
          (o.name, o.arity) := by rw [← hlength]; rfl
      rw [qualifier, List.map_append, List.map_singleton, hshape,
        ih fun o' ho' => houter o' (List.mem_of_mem_tail ho')]
      simp [DefinitionKey.path, DefinitionKey.chain, DefinitionKey.name, DefinitionKey.arity,
        DefinitionKey.segments, DefinitionKey.space]
  rw [← hqualifier, nameParts, List.map_append, ← harity]
  rfl

end Program

/-! ## The type arguments of a name -/

namespace TypeSyntax

variable {isGlobal : Bool} {before : List NamePart} {last : String}

theorem IsWritten.withLast (h : (TypeSyntax.named isGlobal (before ++ [.mk last []])).IsWritten)
    {arguments : List TypeSyntax} (harguments : ∀ a ∈ arguments, a.IsWritten) :
    (TypeSyntax.named isGlobal (before ++ [.mk last arguments])).IsWritten := by
  cases h with
  | named _ hnames hbefore =>
    refine .named (by simp) (fun q hq => ?_) fun q hq => ?_
    · rcases List.mem_append.mp hq with hq | hq
      · exact hnames q (List.mem_append_left _ hq)
      · have hlast : Named last := hnames (.mk last []) (by simp)
        exact List.mem_singleton.mp hq ▸ hlast
    · rcases List.mem_append.mp hq with hq | hq
      · exact hbefore q (List.mem_append_left _ hq)
      · exact List.mem_singleton.mp hq ▸ harguments

theorem IsReadable.withLast (h : (TypeSyntax.named isGlobal (before ++ [.mk last []])).IsReadable)
    {arguments : List TypeSyntax}
    (harguments : ∀ a ∈ arguments, a.IsReadable ∧ a.IsClear .typeStart) :
    (TypeSyntax.named isGlobal (before ++ [.mk last arguments])).IsReadable := by
  cases h with
  | named hclear hreadable =>
    refine .named (fun q hq => ?_) fun q hq => ?_
    · rcases List.mem_append.mp hq with hq | hq
      · exact hclear q (List.mem_append_left _ hq)
      · exact List.mem_singleton.mp hq ▸ fun a ha => (harguments a ha).2
    · rcases List.mem_append.mp hq with hq | hq
      · exact hreadable q (List.mem_append_left _ hq)
      · exact List.mem_singleton.mp hq ▸ fun a ha => (harguments a ha).1

theorem IsClear.withLast {admitted : TerminalSet}
    (h : (named isGlobal (before ++ [.mk last []])).IsClear admitted) (arguments : List TypeSyntax) :
    (named isGlobal (before ++ [.mk last arguments])).IsClear admitted := by
  have hfirst : (named isGlobal (before ++ [.mk last arguments])).firstName? =
      (named isGlobal (before ++ [.mk last []])).firstName? := by
    cases isGlobal <;> cases before <;> rfl
  unfold IsClear
  rwa [hfirst]

theorem text_withLast (arguments : List TypeSyntax) :
    (named isGlobal (before ++ [.mk last arguments])).text =
      withArguments (named isGlobal (before ++ [.mk last []])).text (arguments.map text) := by
  have hnil : ∀ n, withArguments n ([].map text) = n := fun n => rfl
  simp only [text, NamePart.texts_eq_map, intercalate_withArguments, hnil]
  unfold withArguments
  split_ifs <;> simp [String.append_assoc]

end TypeSyntax

/-! ## Names that are read as names -/

namespace Program

variable (p : Program)

/-- The names in the full name of a declared type are read as names where they stand. -/
structure NamesRead (k : DefinitionKey) : Prop where
  first : ∀ n ∈ k.path.head?, ReadsAsName .typeStart n.1
  outer : ∀ o ∈ k.withOuter.tail, ∀ q ∈ p.typeParameters o, ReadsAsName .typeStart q.name

/-- The names in the text of a type are read as names where they stand: none of them is spelled like a
word that is admitted there. -/
inductive IsLegible : TypeSymbol → Prop
  | special {k} : IsLegible (.special k)
  | parameter {q} : ReadsAsName .typeStart (TypeParameter.name q) → IsLegible (.parameter q)
  | unresolved {isGlobal before last n as} :
      (TypeSyntax.named isGlobal (before ++ [.mk last []])).IsWritten →
      (TypeSyntax.named isGlobal (before ++ [.mk last []])).IsReadable →
      (TypeSyntax.named isGlobal (before ++ [.mk last []])).IsClear .typeStart →
      (TypeSyntax.named isGlobal (before ++ [.mk last []])).text = n →
      (∀ a ∈ as, IsLegible a) → IsLegible (.unresolved n as)
  | array {e rank} : IsLegible e → IsLegible (.array e rank)
  | nullable {e} : IsLegible e → IsLegible (.nullable e)
  | pointer {e} : IsLegible e → IsLegible (.pointer e)
  | tuple {es} : (∀ e ∈ es, IsLegible (Prod.fst e)) →
      (∀ e ∈ es, ∀ n ∈ e.2, ReadsAsName .nameEnd n) → IsLegible (.tuple es)
  | definition {k} : p.NamesRead k →
      (∀ q ∈ p.typeParameters k, ReadsAsName .typeStart q.name) → IsLegible (.definition k)
  | constructed {k as} : p.NamesRead k → (∀ a ∈ as, IsLegible a) → IsLegible (.constructed k as)

variable {p}

theorem isRead_parameterSyntax {ps : List TypeParameter}
    (h : ∀ q ∈ ps, ReadsAsName .typeStart q.name) :
    ∀ a ∈ parameterSyntax ps, a.IsReadable ∧ a.IsClear .typeStart := by
  intro a ha
  obtain ⟨q, hq, rfl⟩ := List.mem_map.mp ha
  refine ⟨.named (by simp [NamePart.arguments]) (by simp [NamePart.arguments]), fun n hn => ?_⟩
  rw [← Option.mem_some.mp hn]
  exact h q hq

theorem isWritten_nameParts (hp : p.HasNamedParameters) {k : DefinitionKey} (hk : k.IsWritten)
    {arguments : List TypeSyntax} (h : ∀ a ∈ arguments, a.IsWritten) :
    (TypeSyntax.named false (p.nameParts k arguments)).IsWritten := by
  refine .named (by simp [nameParts]) (fun q hq => ?_) fun q hq => ?_
  · rcases List.mem_append.mp hq with hq | hq
    · exact named_of_mem_qualifier hk hq
    · exact List.mem_singleton.mp hq ▸ hk.named
  · rcases List.mem_append.mp hq with hq | hq
    · rcases arguments_of_mem_qualifier hq with hnil | ⟨o, -, hparameters⟩
      · rw [hnil]
        simp
      · rw [hparameters]
        exact isWritten_parameterSyntax (hp o)
    · exact List.mem_singleton.mp hq ▸ h

theorem NamesRead.isReadable {k : DefinitionKey} (hk : p.NamesRead k) {arguments : List TypeSyntax}
    (h : ∀ a ∈ arguments, a.IsReadable ∧ a.IsClear .typeStart) :
    (TypeSyntax.named false (p.nameParts k arguments)).IsReadable ∧
      (TypeSyntax.named false (p.nameParts k arguments)).IsClear .typeStart := by
  have harguments : ∀ q ∈ p.nameParts k arguments, ∀ a ∈ q.arguments,
      a.IsReadable ∧ a.IsClear .typeStart := by
    intro q hq
    rcases List.mem_append.mp hq with hq | hq
    · rcases arguments_of_mem_qualifier hq with hnil | ⟨o, ho, hparameters⟩
      · rw [hnil]
        simp
      · rw [hparameters]
        exact isRead_parameterSyntax (hk.outer o ho)
    · exact List.mem_singleton.mp hq ▸ h
  refine ⟨.named (fun q hq a ha => (harguments q hq a ha).2)
    fun q hq a ha => (harguments q hq a ha).1, fun n hn => ?_⟩
  have hnames := congrArg List.head? (names_nameParts (p := p) k arguments)
  cases hparts : p.nameParts k arguments with
  | nil => rw [hparts] at hn; cases hn
  | cons q qs =>
    rw [hparts] at hn hnames
    rw [List.map_cons, List.head?_cons, List.head?_map] at hnames
    obtain ⟨first, hfirst, hname⟩ := Option.map_eq_some_iff.mp hnames.symm
    rw [← Option.mem_some.mp hn, ← hname]
    exact hk.first first hfirst

end Program

/-! ## What is seen from a place -/

/-- The meaning of dotted names at a place. -/
def Environment.named (e : Environment) (s : Scope) : Bool → List ResolvedPart → TypeSymbol :=
  e.declarations.resolveName (e.lookup s) s.spaces

theorem Environment.resolve_eq (e : Environment) (s : Scope) (t : TypeSyntax) :
    e.resolve s t = t.resolveWith (e.named s) := rfl

/-- What a written name leads to at a place, if anything. -/
def Environment.leadsTo? (e : Environment) (s : Scope) : TypeSyntax → Option TypeSymbol
  | .named isGlobal parts =>
    e.declarations.found? (e.lookup s) s.spaces isGlobal (NamePart.resolveAll (e.named s) parts)
  | _ => none

/-- All that the text of a type names means the same at a place. The name of an unknown type leads to
no other there. -/
inductive Model.Sees (m : Model) (s : Scope) : TypeSymbol → Prop
  | special {k} : Sees m s (.special k)
  | parameter {q} : m.environment.lookup s (TypeParameter.name q) 0 = some (.parameter q) →
      Sees m s (.parameter q)
  | unresolved {n as} :
      (∀ w, TypeSyntax.parse (m.program.display (.unresolved n as)) = .ok w →
        ∀ t ∈ m.environment.leadsTo? s w, t = .unresolved n as) →
      (∀ a ∈ as, Sees m s a) → Sees m s (.unresolved n as)
  | array {e rank} : Sees m s e → Sees m s (.array e rank)
  | nullable {e} : Sees m s e → Sees m s (.nullable e)
  | pointer {e} : Sees m s e → Sees m s (.pointer e)
  | tuple {es} : (∀ e ∈ es, Sees m s (Prod.fst e)) → Sees m s (.tuple es)
  | definition {k} : DefinitionKey.arity k = 0 → m.environment.Uncaptured s k →
      Sees m s (.definition k)
  | constructed {k as} : as.length = DefinitionKey.arity k → m.environment.Uncaptured s k →
      (∀ a ∈ as, Sees m s a) → Sees m s (.constructed k as)

namespace Environment

variable {units : List CompilationUnit} {s : Scope}

theorem shape_resolveAll (named : Bool → List ResolvedPart → TypeSymbol) (parts : List NamePart) :
    (NamePart.resolveAll named parts).map ResolvedPart.shape = parts.map NamePart.shape := by
  rw [resolveParts_eq_map, List.map_map]
  refine List.map_congr_left fun q _ => ?_
  simp [ResolvedPart.shape, ResolvedPart.arity, NamePart.shape, NamePart.arity]

theorem resolve_named (e : Environment) (s : Scope) (isGlobal : Bool) (parts : List NamePart) :
    e.resolve s (.named isGlobal parts) =
      (e.leadsTo? s (.named isGlobal parts)).getD
        (unresolvedName isGlobal (NamePart.resolveAll (e.named s) parts)) := rfl

theorem leadsTo?_of_resolve {e : Environment} {t : TypeSyntax} {k : DefinitionKey}
    (h : (e.resolve s t).key? = some k) : e.leadsTo? s t = some (e.resolve s t) := by
  cases t with
  | named isGlobal parts =>
    rw [resolve_named] at h ⊢
    cases hfound : e.leadsTo? s (.named isGlobal parts) with
    | some t => rfl
    | none =>
      rw [hfound, Option.getD_none, key?_unresolvedName] at h
      cases h
  | _ => cases h

theorem mem_keys_of_resolve {e : Environment} {t : TypeSyntax} {k : DefinitionKey}
    (h : (e.resolve s t).key? = some k) : k ∈ e.declarations.keys :=
  holds_resolve e.declarations.permits_knows (fun _ _ _ h => nomatch h) t k h

variable {P : String → Prop}

/-- **A full name means its type exactly if nothing is in the way.** -/
theorem resolve_nameParts_iff (hunits : ∀ u ∈ units, u.IsWritten P) (hs : s.IsWritten)
    (hglobal : s.SeesGlobal) {k : DefinitionKey} {arguments : List TypeSyntax}
    (harity : arguments.length = k.arity) {t : TypeSymbol} (ht : t.key? = some k) :
    (ofUnits units).resolve s (.named false ((Model.ofUnits units).program.nameParts k arguments)) = t ↔
      (ofUnits units).Uncaptured s k ∧
        t = k.construct (arguments.map ((ofUnits units).resolve s)) := by
  have hpath : k ∈ (ofUnits units).declarations.keys →
      (NamePart.resolveAll ((ofUnits units).named s)
        ((Model.ofUnits units).program.nameParts k arguments)).map ResolvedPart.shape = k.path := by
    intro hk
    rw [shape_resolveAll]
    exact Program.shape_nameParts (fun o ho => Declarations.length_typeParameters
      (Declarations.mem_keys_of_withOuter hk (List.mem_of_mem_tail ho))) harity
  have hne : NamePart.resolveAll ((ofUnits units).named s)
      ((Model.ofUnits units).program.nameParts k arguments) ≠ [] := by
    simp [resolveParts_eq_map, Program.nameParts]
  have hlast : ((NamePart.resolveAll ((ofUnits units).named s)
      ((Model.ofUnits units).program.nameParts k arguments)).getLast hne).arguments =
        arguments.map ((ofUnits units).resolve s) := by
    simp only [resolveParts_eq_map, Program.nameParts, List.map_append, List.map_singleton,
      List.getLast_append_singleton]
    rfl
  constructor
  · rintro rfl
    have hk := mem_keys_of_resolve ht
    have huncaptured := uncaptured_of_found? hunits hs hk (hpath hk) (leadsTo?_of_resolve ht) ht
    refine ⟨huncaptured, ?_⟩
    rw [resolve_named, leadsTo?, huncaptured.found?_eq hglobal (hpath hk) hne, hlast]
    rfl
  · rintro ⟨huncaptured, rfl⟩
    rw [resolve_named, leadsTo?,
      huncaptured.found?_eq hglobal (hpath huncaptured.declared) hne, hlast]
    rfl

theorem leadsTo?_single (e : Environment) (s : Scope) (n : String) :
    e.leadsTo? s (.named false [.mk n []]) = e.lookup s n 0 := by
  have hnone : ∀ t : TypeSymbol, (⟨n, [], (NamePart.mk n []).text⟩ : ResolvedPart).construct t = t := by
    intro t
    cases t <;> rfl
  rw [leadsTo?, resolveParts_eq_map]
  cases hlookup : e.lookup s n 0 with
  | none => simp [Declarations.found?, ResolvedPart.arity, NamePart.name, NamePart.arguments, hlookup,
      Declarations.longestQualified]
  | some t => simp [Declarations.found?, ResolvedPart.arity, NamePart.name, NamePart.arguments, hlookup,
      Declarations.descend, hnone]

theorem unresolvedName_eq (named : Bool → List ResolvedPart → TypeSymbol) (isGlobal : Bool)
    (before : List NamePart) (last : String) (arguments : List TypeSyntax) :
    unresolvedName isGlobal (NamePart.resolveAll named (before ++ [.mk last arguments])) =
      .unresolved (TypeSyntax.named isGlobal (before ++ [.mk last []])).text
        (arguments.map (TypeSyntax.resolveWith named)) := by
  have htexts : (before.map fun q => (⟨q.name, q.arguments.map (TypeSyntax.resolveWith named),
      q.text⟩ : ResolvedPart)).map ResolvedPart.text = before.map NamePart.text := by
    simp [Function.comp_def]
  rw [resolveParts_eq_map, List.map_append, List.map_singleton, unresolvedName,
    List.getLast?_concat, List.dropLast_concat, htexts, TypeSyntax.text, NamePart.texts_eq_map,
    List.map_append, List.map_singleton, NamePart.text_mk_nil]
  cases isGlobal <;> simp [NamePart.name, NamePart.arguments]

end Environment

/-! ## Reading types -/

/-- The written type is read from the text of a type. It means the type where that is seen, and only
there. -/
structure Model.Spells (m : Model) (s : Scope) (w : TypeSyntax) (t : TypeSymbol) : Prop where
  written : w.IsWritten
  readable : w.IsReadable
  clear : w.IsClear .typeStart
  text : w.text = m.program.display t
  resolve : m.environment.resolve s w = t ↔ m.Sees s t

theorem exists_forall₂ {α β : Type} {R : α → β → Prop} {bs : List β} (h : ∀ b ∈ bs, ∃ a, R a b) :
    ∃ as, List.Forall₂ R as bs := by
  induction bs with
  | nil => exact ⟨[], .nil⟩
  | cons b bs ih =>
    obtain ⟨a, ha⟩ := h b List.mem_cons_self
    obtain ⟨as, has⟩ := ih fun c hc => h c (List.mem_cons_of_mem _ hc)
    exact ⟨a :: as, .cons ha has⟩

namespace Model

variable {m : Model} {s : Scope}

theorem spells_arguments {ws : List TypeSyntax} {as : List TypeSymbol}
    (h : List.Forall₂ (m.Spells s) ws as) :
    (∀ w ∈ ws, w.IsWritten) ∧ (∀ w ∈ ws, w.IsReadable) ∧ (∀ w ∈ ws, w.IsClear .typeStart) ∧
      ws.map TypeSyntax.text = m.program.displayAll as ∧
      (ws.map (m.environment.resolve s) = as ↔ ∀ a ∈ as, m.Sees s a) := by
  induction h with
  | nil => simp [Program.displayAll]
  | @cons w a ws as hw _ ih =>
    obtain ⟨hwritten, hreadable, hclear, htext, hresolve⟩ := ih
    refine ⟨List.forall_mem_cons.mpr ⟨hw.written, hwritten⟩,
      List.forall_mem_cons.mpr ⟨hw.readable, hreadable⟩,
      List.forall_mem_cons.mpr ⟨hw.clear, hclear⟩, ?_, ?_⟩
    · rw [List.map_cons, Program.displayAll, hw.text, htext]
    · rw [List.map_cons, List.cons.injEq, hw.resolve, hresolve, List.forall_mem_cons]

theorem spells_parameter {q : TypeParameter} (hq : Named q.name)
    (hread : ReadsAsName .typeStart q.name) :
    m.Spells s (.named false [.mk q.name []]) (.parameter q) := by
  have hmem : TypeSyntax.named false [.mk q.name []] ∈ Program.parameterSyntax [q] :=
    List.mem_singleton.mpr rfl
  obtain ⟨hreadable, hclear⟩ := Program.isRead_parameterSyntax (by simpa using hread) _ hmem
  refine ⟨Program.isWritten_parameterSyntax (by simpa using hq) _ hmem, hreadable, hclear, ?_, ?_⟩
  · simp [TypeSyntax.text, NamePart.texts, NamePart.text_mk_nil, Program.display]
  · rw [Environment.resolve_named, Environment.leadsTo?_single]
    constructor
    · intro h
      cases hlookup : m.environment.lookup s q.name 0 with
      | none => rw [hlookup] at h; cases h
      | some t => exact .parameter (by rw [hlookup]; simpa [hlookup] using h)
    · rintro (_ | h)
      rw [h]
      rfl

theorem spells_unresolved {isGlobal : Bool} {before : List NamePart} {last n : String}
    (hwritten : (TypeSyntax.named isGlobal (before ++ [.mk last []])).IsWritten)
    (hreadable : (TypeSyntax.named isGlobal (before ++ [.mk last []])).IsReadable)
    (hclear : (TypeSyntax.named isGlobal (before ++ [.mk last []])).IsClear .typeStart)
    (htext : (TypeSyntax.named isGlobal (before ++ [.mk last []])).text = n)
    {ws : List TypeSyntax} {as : List TypeSymbol} (h : List.Forall₂ (m.Spells s) ws as) :
    m.Spells s (.named isGlobal (before ++ [.mk last ws])) (.unresolved n as) := by
  obtain ⟨hws, hwsread, hwsclear, hwstext, hwsresolve⟩ := spells_arguments h
  have hw := hwritten.withLast hws
  have hread := hreadable.withLast fun a ha => ⟨hwsread a ha, hwsclear a ha⟩
  have hclear' := hclear.withLast ws
  have hdisplay : (TypeSyntax.named isGlobal (before ++ [.mk last ws])).text =
      m.program.display (.unresolved n as) := by
    rw [TypeSyntax.text_withLast, htext, hwstext, Program.display]
  refine ⟨hw, hread, hclear', hdisplay, ?_⟩
  have hparse := TypeSyntax.parse_text hw hread hclear'
  rw [hdisplay] at hparse
  have hstands : ∀ t, m.environment.leadsTo? s (.named isGlobal (before ++ [.mk last ws])) = some t →
      m.environment.resolve s (.named isGlobal (before ++ [.mk last ws])) = t := by
    intro t ht
    rw [Environment.resolve_named, ht, Option.getD_some]
  have hmissing : m.environment.leadsTo? s (.named isGlobal (before ++ [.mk last ws])) = none →
      m.environment.resolve s (.named isGlobal (before ++ [.mk last ws])) =
        .unresolved n (ws.map (m.environment.resolve s)) := by
    intro hnone
    rw [Environment.resolve_named, hnone, Option.getD_none, Environment.unresolvedName_eq, htext]
    rfl
  constructor
  · intro hresolve
    refine .unresolved (fun w hw t ht => ?_) ?_
    · obtain rfl := Except.ok.inj (hparse.symm.trans hw)
      rw [← hresolve, hstands t ht]
    · cases hleads : m.environment.leadsTo? s (.named isGlobal (before ++ [.mk last ws])) with
      | none =>
        rw [hmissing hleads] at hresolve
        exact hwsresolve.mp (TypeSymbol.unresolved.inj hresolve).2
      | some t =>
        have ht : t = .unresolved n as := (hstands t hleads).symm.trans hresolve
        obtain ⟨q, hq, harguments⟩ := Environment.exists_of_found? hleads (by rw [ht]; rfl)
        rw [resolveParts_eq_map, List.map_append, List.map_singleton] at hq
        have hlast := (List.append_eq_singleton_iff.mp hq).resolve_right fun h => by cases h.2
        obtain rfl : ws = [] := by
          rw [← List.map_eq_nil_iff, ← harguments, ← List.singleton_inj.mp hlast.2]
          rfl
        cases h
        simp
  · intro hsees
    cases hsees with
    | unresolved hnames harguments =>
      cases hleads : m.environment.leadsTo? s (.named isGlobal (before ++ [.mk last ws])) with
      | none => rw [hmissing hleads, hwsresolve.mpr harguments]
      | some t => rw [hstands t hleads, hnames _ hparse t hleads]

/-! ### Types made of others -/

theorem Spells.array {w : TypeSyntax} {t : TypeSymbol} (h : m.Spells s w t) {rank : Nat}
    (hrank : 1 ≤ rank) : m.Spells s (.array w rank) (.array t rank) := by
  refine ⟨.array h.written hrank, .array h.readable, h.clear, ?_, fun heq => ?_, ?_⟩
  · rw [TypeSyntax.text, h.text, Program.display]
  · exact .array (h.resolve.mp (TypeSymbol.array.inj heq).1)
  · rintro (_ | _ | _ | hsees)
    exact congrArg (TypeSymbol.array · rank) (h.resolve.mpr hsees)

theorem Spells.nullable {w : TypeSyntax} {t : TypeSymbol} (h : m.Spells s w t) :
    m.Spells s (.nullable w) (.nullable t) := by
  refine ⟨.nullable h.written, .nullable h.readable, h.clear, ?_, fun heq => ?_, ?_⟩
  · rw [TypeSyntax.text, h.text, Program.display]
  · exact .nullable (h.resolve.mp (TypeSymbol.nullable.inj heq))
  · rintro (_ | _ | _ | _ | hsees)
    exact congrArg TypeSymbol.nullable (h.resolve.mpr hsees)

theorem Spells.pointer {w : TypeSyntax} {t : TypeSymbol} (h : m.Spells s w t) :
    m.Spells s (.pointer w) (.pointer t) := by
  refine ⟨.pointer h.written, .pointer h.readable, h.clear, ?_, fun heq => ?_, ?_⟩
  · rw [TypeSyntax.text, h.text, Program.display]
  · exact .pointer (h.resolve.mp (TypeSymbol.pointer.inj heq))
  · rintro (_ | _ | _ | _ | _ | hsees)
    exact congrArg TypeSymbol.pointer (h.resolve.mpr hsees)

theorem exists_element {t : TypeSymbol} (h : ∃ w, m.Spells s w t) (n : Option String) :
    ∃ w : TupleElement, m.Spells s w.1 t ∧ w.2 = n := by
  obtain ⟨w, hw⟩ := h
  exact ⟨(w, n), hw, rfl⟩

theorem spells_tuple {ws : List TupleElement} {es : List (TypeSymbol × Option String)}
    (hlength : 2 ≤ es.length) (hnames : ∀ e ∈ es, ∀ n ∈ e.2, Named n)
    (hread : ∀ e ∈ es, ∀ n ∈ e.2, ReadsAsName .nameEnd n)
    (h : List.Forall₂ (fun w e => m.Spells s w.1 e.1 ∧ w.2 = e.2) ws es) :
    m.Spells s (.tuple ws) (.tuple es) := by
  have helements : (∀ w ∈ ws, ∃ e ∈ es, m.Spells s w.1 e.1 ∧ w.2 = e.2) ∧
      TypeSyntax.elementTexts ws = m.program.displayElements es ∧
      (TypeSyntax.resolveElements (m.environment.named s) ws = es ↔ ∀ e ∈ es, m.Sees s e.1) := by
    clear hlength hnames hread
    induction h with
    | nil => simp [TypeSyntax.elementTexts, Program.displayElements, TypeSyntax.resolveElements]
    | @cons w e ws es hw _ ih =>
      obtain ⟨hall, htexts, hresolve⟩ := ih
      obtain ⟨w, n⟩ := w
      obtain ⟨t, n'⟩ := e
      obtain ⟨hw, rfl⟩ := hw
      refine ⟨List.forall_mem_cons.mpr ⟨⟨_, List.mem_cons_self, hw, rfl⟩, fun v hv => ?_⟩, ?_, ?_⟩
      · obtain ⟨e, he, h⟩ := hall v hv
        exact ⟨e, List.mem_cons_of_mem _ he, h⟩
      · rw [TypeSyntax.elementTexts, Program.displayElements, hw.text, htexts]
      · rw [TypeSyntax.resolveElements, List.cons.injEq, hresolve, List.forall_mem_cons,
          Prod.mk.injEq, ← Environment.resolve_eq, hw.resolve]
        simp
  obtain ⟨hall, htexts, hresolve⟩ := helements
  refine ⟨.tuple (h.length_eq ▸ hlength) (fun w hw => ?_) fun w hw => ?_,
    .tuple (fun w hw => ?_) (fun w hw => ?_) fun w hw => ?_, fun n hn => ?_, ?_, fun heq => ?_, ?_⟩
  · obtain ⟨e, -, he, -⟩ := hall w hw
    exact he.written
  · obtain ⟨e, he, -, hname⟩ := hall w hw
    exact hname ▸ hnames e he
  · obtain ⟨e, -, he, -⟩ := hall w hw
    exact he.clear
  · obtain ⟨e, -, he, -⟩ := hall w hw
    exact he.readable
  · obtain ⟨e, he, -, hname⟩ := hall w hw
    exact hname ▸ hread e he
  · cases hn
  · rw [TypeSyntax.text, htexts, Program.display]
  · exact .tuple (hresolve.mp (TypeSymbol.tuple.inj heq))
  · rintro (_ | _ | _ | _ | _ | _ | hsees)
    exact congrArg TypeSymbol.tuple (hresolve.mpr hsees)

/-! ### Declared types -/

section

variable {units : List CompilationUnit} {P : String → Prop}
  (hunits : ∀ u ∈ units, u.IsWritten P) (hs : s.IsWritten) (hglobal : s.SeesGlobal)

include hunits hs hglobal

theorem spells_definition {k : DefinitionKey} (hk : k.IsWritten)
    (hread : (Model.ofUnits units).program.NamesRead k)
    (hparameters : ∀ q ∈ (Model.ofUnits units).program.typeParameters k,
      ReadsAsName .typeStart q.name) :
    (Model.ofUnits units).Spells s (.named false ((Model.ofUnits units).program.nameParts k
      (Program.parameterSyntax ((Model.ofUnits units).program.typeParameters k))))
      (.definition k) := by
  have hp := (Model.isWritten_ofUnits hunits).hasNamedParameters
  obtain ⟨hreadable, hclear⟩ := hread.isReadable (Program.isRead_parameterSyntax hparameters)
  have harity : k ∈ (Environment.ofUnits units).declarations.keys →
      (Program.parameterSyntax ((Model.ofUnits units).program.typeParameters k)).length = k.arity := by
    intro hmem
    rw [Program.parameterSyntax, List.length_map]
    exact Declarations.length_typeParameters hmem
  refine ⟨Program.isWritten_nameParts hp hk (Program.isWritten_parameterSyntax (hp k)), hreadable,
    hclear, ?_, ?_⟩
  · rw [Program.text_nameParts hk, Program.text_parameterSyntax, Program.display,
      Program.definitionText]
  · constructor
    · intro hresolve
      have hmem := Environment.mem_keys_of_resolve (k := k) (by rw [hresolve]; rfl)
      have hover := Environment.isOver_resolve (e := (Model.ofUnits units).environment) s
        (.named false ((Model.ofUnits units).program.nameParts k
          (Program.parameterSyntax ((Model.ofUnits units).program.typeParameters k))))
      rw [hresolve] at hover
      cases hover with
      | definition hzero =>
        exact .definition hzero ((Environment.resolve_nameParts_iff hunits hs hglobal
          (harity hmem) rfl).mp hresolve).1
    · intro hsees
      cases hsees with
      | definition hzero huncaptured =>
        refine (Environment.resolve_nameParts_iff hunits hs hglobal
          (harity huncaptured.declared) rfl).mpr ⟨huncaptured, ?_⟩
        rw [List.length_eq_zero_iff.mp ((harity huncaptured.declared).trans hzero)]
        rfl

theorem spells_constructed {k : DefinitionKey} (hk : k.IsWritten)
    (hread : (Model.ofUnits units).program.NamesRead k) {ws : List TypeSyntax}
    {as : List TypeSymbol} (hne : as ≠ [])
    (h : List.Forall₂ ((Model.ofUnits units).Spells s) ws as) :
    (Model.ofUnits units).Spells s (.named false ((Model.ofUnits units).program.nameParts k ws))
      (.constructed k as) := by
  have hp := (Model.isWritten_ofUnits hunits).hasNamedParameters
  obtain ⟨hws, hwsread, hwsclear, hwstext, hwsresolve⟩ := spells_arguments h
  obtain ⟨hreadable, hclear⟩ := hread.isReadable fun a ha => ⟨hwsread a ha, hwsclear a ha⟩
  have hconstruct : k.construct as = .constructed k as := by
    rw [DefinitionKey.construct, if_neg (by simpa using hne)]
  refine ⟨Program.isWritten_nameParts hp hk hws, hreadable, hclear, ?_, ?_⟩
  · have htexts : ((Model.ofUnits units).program.displayAll as).isEmpty = false := by
      rw [Program.displayAll_eq_map]
      simpa using hne
    rw [Program.text_nameParts hk, hwstext, Program.display, withArguments, htexts]
    rfl
  · constructor
    · intro hresolve
      have hover := Environment.isOver_resolve (e := (Model.ofUnits units).environment) s
        (.named false ((Model.ofUnits units).program.nameParts k ws))
      rw [hresolve] at hover
      cases hover with
      | constructed hlength =>
        obtain ⟨huncaptured, heq⟩ := (Environment.resolve_nameParts_iff hunits hs hglobal
          (h.length_eq.trans hlength) rfl).mp hresolve
        have heq' : as = ws.map ((Environment.ofUnits units).resolve s) := by
          unfold DefinitionKey.construct at heq
          split_ifs at heq
          exact (TypeSymbol.constructed.inj heq).2
        exact .constructed hlength huncaptured (hwsresolve.mp heq'.symm)
    · intro hsees
      cases hsees with
      | constructed hlength huncaptured harguments =>
        refine (Environment.resolve_nameParts_iff hunits hs hglobal (h.length_eq.trans hlength)
          rfl).mpr ⟨huncaptured, ?_⟩
        rw [← hconstruct]
        exact congrArg _ (hwsresolve.mpr harguments).symm

/-- **The text of a type is read, and means the type exactly where it is seen.** -/
theorem exists_spelling {t : TypeSymbol} (ht : t.IsWritten)
    (hlegible : (Model.ofUnits units).program.IsLegible t) :
    ∃ w, (Model.ofUnits units).Spells s w t := by
  induction ht with
  | @special k hk =>
    refine ⟨.predefined k, .predefined hk, .predefined, fun n hn => ?_, rfl, fun _ => .special,
      fun _ => rfl⟩
    cases hn
  | parameter hq =>
    cases hlegible with
    | parameter hread => exact ⟨_, spells_parameter hq hread⟩
  | unresolved _ _ ih =>
    cases hlegible with
    | unresolved hwritten hreadable hclear htext harguments =>
      obtain ⟨ws, hws⟩ := exists_forall₂ fun a ha => ih a ha (harguments a ha)
      exact ⟨_, spells_unresolved hwritten hreadable hclear htext hws⟩
  | @array e rank _ hrank ih =>
    cases hlegible with
    | array hread =>
      obtain ⟨w, hw⟩ := ih hread
      exact ⟨_, hw.array hrank⟩
  | nullable _ ih =>
    cases hlegible with
    | nullable hread =>
      obtain ⟨w, hw⟩ := ih hread
      exact ⟨_, hw.nullable⟩
  | pointer _ ih =>
    cases hlegible with
    | pointer hread =>
      obtain ⟨w, hw⟩ := ih hread
      exact ⟨_, hw.pointer⟩
  | tuple hlength _ hnames ih =>
    cases hlegible with
    | tuple hread hreadnames =>
      obtain ⟨ws, hws⟩ := exists_forall₂ fun e he => exists_element (ih e he (hread e he)) e.2
      exact ⟨_, spells_tuple hlength hnames hreadnames hws⟩
  | definition hk =>
    cases hlegible with
    | definition hread hparameters =>
      exact ⟨_, spells_definition hunits hs hglobal hk hread hparameters⟩
  | constructed hk hne _ ih =>
    cases hlegible with
    | constructed hread harguments =>
      obtain ⟨ws, hws⟩ := exists_forall₂ fun a ha => ih a ha (harguments a ha)
      exact ⟨_, spells_constructed hunits hs hglobal hk hread hne hws⟩

end

end Model

end Facade
