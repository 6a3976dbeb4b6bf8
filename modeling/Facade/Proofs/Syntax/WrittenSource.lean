import Facade.Proofs.Syntax.Requirements

/-!
# The declarations of a source can be written

The declarations of a tree are looked at phrase by phrase, those of members and namespaces with the
smaller trees in them.

* `Tree.dotted_of_node`, `Tree.special_words`, `Tree.constraint_mem`: what phrases are made of;
* `MethodDeclaration.isWritten_of_parts`, `TypeHead.isWritten_of_parts`: methods and heads of types;
* `Requirement.written`, `Requirement.isKnown_written`: what can be written, as a requirement;
* **`CompilationUnit.isWritten_of_parse`**: a source declares what can be written.
-/

namespace Facade

/-! ## Phrases -/

section

variable {good : Tree → Prop}

theorem Tree.text_of_spelled {t : Token} {k : Terminal} {w : String} (h : (leaf t).Grown good)
    (hk : t.terminal = k) (hw : k.spelling? = some w) : t.text = w := by
  cases h with
  | leaf hspelled => exact hspelled.word w (hk ▸ hw)

theorem Tree.grown_partsOf {r : Rule} {parts : List Tree} (h : ∀ t ∈ parts, t.Grown good) :
    ∀ t ∈ partsOf r parts, t.Grown good := by
  unfold partsOf
  split
  · next hphrase =>
    have hnode := h _ (phrase?_eq_some hphrase).1
    exact fun t ht => hnode.of_mem ht
  · simp

theorem length_of_mapM {α β : Type} {f : α → Option β} {xs : List α} {ys : List β}
    (h : xs.mapM f = some ys) : ys.length = xs.length := by
  induction xs generalizing ys with
  | nil =>
    simp only [List.mapM_nil, Option.pure_def, Option.some.injEq] at h
    simp [← h]
  | cons x xs ih =>
    simp only [List.mapM_cons, Option.pure_def, Option.bind_eq_bind, Option.bind_eq_some_iff,
      Option.some.injEq] at h
    obtain ⟨z, hz, zs, hzs, rfl⟩ := h
    simp [ih hzs]

theorem Tree.named_words {r : Rule} {children : List Tree} {extent : Option Extent}
    (h : (Tree.node r children extent).Grown good) (hr : keepsNames r) :
    ∀ w ∈ words children, Named w := by
  have hmem : ∀ (ts : List Tree), ∀ w ∈ words ts, ∃ t, Tree.leaf t ∈ ts ∧ t.text = w := by
    intro ts
    induction ts with
    | nil => simp [words]
    | cons t ts ih =>
      intro w hw
      cases t with
      | leaf t =>
        rcases List.mem_cons.mp hw with rfl | hw
        · exact ⟨t, List.mem_cons_self, rfl⟩
        · obtain ⟨t', ht', h⟩ := ih w hw
          exact ⟨t', List.mem_cons_of_mem _ ht', h⟩
      | node r c e =>
        obtain ⟨t', ht', h⟩ := ih w hw
        exact ⟨t', List.mem_cons_of_mem _ ht', h⟩
  intro w hw
  obtain ⟨t, ht, rfl⟩ := hmem children w hw
  exact h.named_leaf hr ht

/-- A phrase of a name and further names after dots. -/
theorem Tree.dotted_of_node {r : Rule} {p : Pattern} {children : List Tree}
    {extent : Option Extent} (h : (Tree.node r children extent).Grown good)
    (hbody : r.plainBody = .seq (.token .name) p) (hr : keepsNames r) :
    Dotted (dottedName children) := by
  refine ⟨words children, ?_, Tree.named_words h hr, rfl⟩
  cases h with
  | @node _ parts hspells _ _ =>
    rw [hbody] at hspells
    obtain ⟨_, rest, ⟨n, hn, rfl⟩, -, rfl⟩ := hspells
    have hkept : isKept r (.leaf n) = true := by simp [isKept, hn, Terminal.isNamed]
    rw [List.singleton_append, List.filter_cons_of_pos hkept]
    simp [words]

theorem Tree.dotted_partsOf {r : Rule} {p : Pattern} {parts : List Tree} {t : Tree}
    (h : ∀ t ∈ parts, t.Grown good) (ht : phrase? r parts = some t)
    (hbody : r.plainBody = .seq (.token .name) p) (hr : keepsNames r) :
    Dotted (dottedName (partsOf r parts)) := by
  obtain ⟨hmem, children, extent, rfl⟩ := phrase?_eq_some ht
  simp only [partsOf, ht]
  exact Tree.dotted_of_node (h _ hmem) hbody hr

theorem UsingTarget.isWritten_of_parts {parts : List Tree} (h : ∀ t ∈ parts, t.Grown good)
    {u : UsingTarget} (hu : UsingTarget.ofParts? parts = some u) : u.IsWritten := by
  unfold UsingTarget.ofParts? at hu
  split at hu
  · next hphrase =>
    have hdotted := Tree.dotted_partsOf h hphrase rfl (by decide)
    cases hu
    split_ifs
    · exact hdotted
    · exact hdotted
  · simp only [Option.pure_def, Option.bind_eq_bind, Option.bind_eq_some_iff,
      Option.some.injEq] at hu
    obtain ⟨n, hn, t, ht, rfl⟩ := hu
    exact ⟨Tree.Grown.named_name? h hn, TypeSyntax.isWritten_among h ht⟩

theorem UsingDirective.isWritten_of_tree {t : Tree} (h : t.Grown good) {u : UsingDirective}
    (hu : UsingDirective.ofTree? t = some u) : u.target.IsWritten := by
  unfold UsingDirective.ofTree? at hu
  split at hu
  · simp only [Option.pure_def, Option.bind_eq_bind, Option.bind_eq_some_iff,
      Option.some.injEq] at hu
    obtain ⟨target, htarget, rfl⟩ := hu
    exact UsingTarget.isWritten_of_parts (fun t ht => h.of_mem ht) htarget
  · cases hu

theorem TypeParameterSyntax.named_among {parts : List Tree} (h : ∀ t ∈ parts, t.Grown good)
    {ps : List TypeParameterSyntax} (hps : TypeParameterSyntax.among? parts = some ps) :
    ∀ p ∈ ps, Named p.name := by
  intro p hp
  obtain ⟨t, ht, hp⟩ := mem_of_mapM hps hp
  have hgrown := Tree.grown_partsOf h t ht
  unfold TypeParameterSyntax.ofTree? at hp
  split at hp
  · simp only [Option.pure_def, Option.bind_eq_bind, Option.bind_eq_some_iff,
      Option.some.injEq] at hp
    obtain ⟨n, hn, rfl⟩ := hp
    exact Tree.Grown.named_name? (fun t ht => hgrown.of_mem ht) hn
  · cases hp

/-- The words of a constraint that names no type. -/
theorem Tree.special_words {children : List Tree} {extent : Option Extent}
    (h : (Tree.node .constraint children extent).Grown good)
    (hnone : phrase? .type children = none) :
    "".intercalate (words children) ∈ specialConstraints := by
  cases h with
  | @node _ parts hspells hparts _ =>
    have hkept : parts.filter (isKept .constraint) = parts :=
      List.filter_eq_self.mpr fun t _ => by cases t <;> simp [isKept, Rule.keepsTokens]
    rw [hkept] at hnone ⊢
    rcases hspells with ⟨_, _, ⟨c, hc, rfl⟩, rfl | ⟨q, hq, rfl⟩, rfl⟩ | ⟨c, hc, rfl⟩ |
      ⟨_, _, ⟨n, hn, rfl⟩, ⟨_, _, ⟨l, hl, rfl⟩, ⟨r, hr, rfl⟩, rfl⟩, rfl⟩ | ⟨c, hc, rfl⟩ |
      ⟨inner, extent, rfl⟩
    · have h₁ := Tree.text_of_spelled (hparts _ List.mem_cons_self) hc rfl
      simp [words, h₁, specialConstraints]
    · have h₁ := Tree.text_of_spelled (hparts _ List.mem_cons_self) hc rfl
      have h₂ := Tree.text_of_spelled (hparts (.leaf q) (by simp)) hq rfl
      simp [words, h₁, h₂, specialConstraints]
    · have h₁ := Tree.text_of_spelled (hparts _ List.mem_cons_self) hc rfl
      simp [words, h₁, specialConstraints]
    · have h₁ := Tree.text_of_spelled (hparts _ List.mem_cons_self) hn rfl
      have h₂ := Tree.text_of_spelled (hparts (.leaf l) (by simp)) hl rfl
      have h₃ := Tree.text_of_spelled (hparts (.leaf r) (by simp)) hr rfl
      simp [words, h₁, h₂, h₃, specialConstraints]
    · have h₁ := Tree.text_of_spelled (hparts _ List.mem_cons_self) hc rfl
      simp [words, h₁, specialConstraints]
    · simp [phrase?, isPhrase] at hnone

theorem ConstraintSyntax.isWritten_of_tree {t : Tree} (h : t.Grown good) {c : ConstraintSyntax}
    (hc : ConstraintSyntax.ofTree? t = some c) : c.IsWritten := by
  unfold ConstraintSyntax.ofTree? at hc
  split at hc
  · split at hc
    · next hphrase =>
      simp only [Option.pure_def, Option.bind_eq_bind, Option.bind_eq_some_iff,
        Option.some.injEq] at hc
      obtain ⟨u, hu, rfl⟩ := hc
      exact TypeSyntax.isWritten_of_tree (h.of_mem (Tree.phrase?_eq_some hphrase).1) hu
    · next hnone =>
      cases hc
      exact Tree.special_words h hnone
  · cases hc

/-- A constraint clause has a constraint. -/
theorem Tree.constraint_mem {children : List Tree} {extent : Option Extent}
    (h : (Tree.node .constraintClause children extent).Grown good) :
    phrases .constraint children ≠ [] := by
  cases h with
  | node hspells _ _ =>
    obtain ⟨_, _, -, ⟨_, _, -, ⟨_, _, -, ⟨_, _, ⟨inner, extent, rfl⟩, -, rfl⟩, rfl⟩, rfl⟩, rfl⟩ :=
      hspells
    simp [phrases, List.filter_append, List.filter_cons, isKept, isPhrase]

theorem ConstraintClause.isWritten_of_tree {t : Tree} (h : t.Grown good) {c : ConstraintClause}
    (hc : ConstraintClause.ofTree? t = some c) : c.IsWritten := by
  unfold ConstraintClause.ofTree? at hc
  split at hc
  · simp only [Option.pure_def, Option.bind_eq_bind, Option.bind_eq_some_iff,
      Option.some.injEq] at hc
    obtain ⟨n, hn, ks, hks, rfl⟩ := hc
    refine ⟨Tree.Grown.named_name? (fun t ht => h.of_mem ht) hn, fun hnil => ?_, fun k hk => ?_⟩
    · have hlength := length_of_mapM hks
      rw [show ks = [] from hnil, eq_comm, List.length_nil, List.length_eq_zero_iff] at hlength
      exact Tree.constraint_mem h hlength
    · obtain ⟨t, ht, hk⟩ := mem_of_mapM hks hk
      exact ConstraintSyntax.isWritten_of_tree (h.of_mem (Tree.mem_phrases ht).1) hk
  · cases hc

theorem ConstraintClause.isWritten_among {parts : List Tree} (h : ∀ t ∈ parts, t.Grown good)
    {cs : List ConstraintClause} (hcs : ConstraintClause.among? parts = some cs) :
    ∀ c ∈ cs, c.IsWritten := by
  intro c hc
  obtain ⟨t, ht, hc⟩ := mem_of_mapM hcs hc
  exact ConstraintClause.isWritten_of_tree (h t (Tree.mem_phrases ht).1) hc

theorem Tree.parameterWord_mem {children : List Tree} {extent : Option Extent} {t : Token}
    (h : (Tree.node .parameterModifier children extent).Grown good)
    (ht : Tree.leaf t ∈ children) : t.text ∈ parameterWords := by
  obtain ⟨hspelled, hterminal, -⟩ := h.leaf_mem ht
  have hwords : ∀ k ∈ Rule.parameterModifier.plainBody.terminals,
      ∃ w ∈ parameterWords, k.spelling? = some w := by decide
  obtain ⟨w, hw, hspelling⟩ := hwords _ hterminal
  exact hspelled.word w hspelling ▸ hw

end

section

variable {P : String → Prop} {source : List Char}

/-- Of the default values in a tree something is known. -/
abbrev Tree.GrownWith (P : String → Prop) (source : List Char) : Tree → Prop :=
  Tree.Grown fun t => P (ParameterSyntax.defaultOf source t)

theorem Tree.good_defaultValue {good : Tree → Prop} {children : List Tree}
    {extent : Option Extent} (h : (Tree.node .defaultValue children extent).Grown good) :
    good (.node .defaultValue children extent) := by
  cases h with
  | node _ _ hgood => exact hgood rfl

theorem ParameterSyntax.isWritten_of_tree {t : Tree} (h : t.GrownWith P source)
    {p : ParameterSyntax} (hp : ParameterSyntax.ofTree? source t = some p) : p.IsWritten P := by
  unfold ParameterSyntax.ofTree? at hp
  split at hp
  · simp only [Option.pure_def, Option.bind_eq_bind, Option.bind_eq_some_iff,
      Option.some.injEq] at hp
    obtain ⟨n, hn, u, hu, ms, hms, rfl⟩ := hp
    refine ⟨Tree.Grown.named_name? (fun t ht => h.of_mem ht) hn,
      TypeSyntax.isWritten_among (fun t ht => h.of_mem ht) hu, fun m hm => ?_, fun d hd => ?_⟩
    · obtain ⟨t, ht, hm⟩ := mem_of_mapM hms hm
      obtain ⟨hmem, children, extent, rfl⟩ := Tree.mem_phrases ht
      split at hm
      · next heq =>
        cases heq
        cases hm
        exact Tree.parameterWord_mem (h.of_mem hmem) List.mem_cons_self
      · cases hm
    · obtain ⟨t, ht, rfl⟩ := Option.map_eq_some_iff.mp hd
      obtain ⟨hmem, children, extent, rfl⟩ := Tree.phrase?_eq_some ht
      exact Tree.good_defaultValue (h.of_mem hmem)
  · cases hp

theorem ParameterSyntax.isWritten_among {parts : List Tree}
    (h : ∀ t ∈ parts, t.GrownWith P source) {ps : List ParameterSyntax}
    (hps : ParameterSyntax.among? source parts = some ps) : ∀ p ∈ ps, p.IsWritten P := by
  intro p hp
  obtain ⟨t, ht, hp⟩ := mem_of_mapM hps hp
  exact ParameterSyntax.isWritten_of_tree (Tree.grown_partsOf h t ht) hp

theorem MethodDeclaration.isWritten_of_parts {parts : List Tree} {around : Surroundings}
    (h : ∀ t ∈ parts, t.GrownWith P source) {m : MethodDeclaration}
    (hm : MethodDeclaration.ofParts? source around parts = some m) : m.IsWritten P := by
  unfold MethodDeclaration.ofParts? at hm
  simp only [Option.pure_def, Option.bind_eq_bind, Option.bind_eq_some_iff,
    Option.some.injEq] at hm
  obtain ⟨name, hname, u, hu, ps, hps, qs, hqs, cs, hcs, rfl⟩ := hm
  exact ⟨Tree.dotted_partsOf h hname rfl (by decide), TypeSyntax.isWritten_among h hu,
    ParameterSyntax.isWritten_among h hps, TypeParameterSyntax.named_among h hqs,
    ConstraintClause.isWritten_among h hcs⟩

theorem TypeHead.isWritten_of_parts {parts : List Tree} {around : Surroundings} {form : TypeForm}
    (h : ∀ t ∈ parts, t.GrownWith P source) {head : TypeHead}
    (hhead : TypeHead.ofParts? around form parts = some head) : head.IsWritten := by
  unfold TypeHead.ofParts? at hhead
  simp only [Option.pure_def, Option.bind_eq_bind, Option.bind_eq_some_iff,
    Option.some.injEq] at hhead
  obtain ⟨n, hn, qs, hqs, us, hus, cs, -, rfl⟩ := hhead
  refine ⟨Tree.Grown.named_name? h hn, TypeParameterSyntax.named_among h hqs, fun u hu => ?_⟩
  unfold TypeHead.basesOf? at hus
  split at hus
  · obtain ⟨t, ht, hu⟩ := mem_of_mapM hus hu
    exact TypeSyntax.isWritten_of_tree (h t (Tree.phrase?_eq_some (Option.mem_toList.mp ht)).1) hu
  · obtain ⟨t, ht, hu⟩ := mem_of_mapM hus hu
    have hgrown := Tree.grown_partsOf h t ht
    split at hu
    · exact TypeSyntax.isWritten_among (fun t ht => hgrown.of_mem ht) hu
    · cases hu

theorem NamespaceHead.isWritten_of_parts {isFileScoped : Bool} {parts : List Tree}
    {extent : Option Extent} (h : ∀ t ∈ parts, t.GrownWith P source) {head : NamespaceHead}
    (hhead : NamespaceHead.ofParts? isFileScoped parts extent = some head) : head.IsWritten := by
  unfold NamespaceHead.ofParts? at hhead
  simp only [Option.pure_def, Option.bind_eq_bind, Option.bind_eq_some_iff,
    Option.some.injEq] at hhead
  obtain ⟨name, hname, us, hus, rfl⟩ := hhead
  refine ⟨Tree.dotted_partsOf h hname rfl (by decide), fun u hu => ?_⟩
  obtain ⟨t, ht, hu⟩ := mem_of_mapM hus hu
  exact UsingDirective.isWritten_of_tree (h t (Tree.mem_phrases ht).1) hu

/-! ## Members and namespaces -/

variable (P) in
/-- The declarations of a source can be written. -/
def Requirement.written : Requirement where
  directive u := u.target.IsWritten
  space h := h.IsWritten
  type h _ := h.IsWritten
  method d := d.IsWritten P

theorem Member.meets_written {m : Member} : m.Meets (.written P) ↔ m.IsWritten P := by
  constructor
  · intro h
    induction h with
    | type hhead _ ih => exact .type hhead ih
    | method hd => exact .method hd
    | other => exact .other
  · intro h
    induction h with
    | type hhead _ ih => exact .type hhead ih
    | method hd => exact .method hd
    | other => exact .other

theorem NamespaceMember.meets_written {m : NamespaceMember} :
    m.Meets (.written P) ↔ m.IsWritten P := by
  constructor
  · intro h
    induction h with
    | space hhead _ ih => exact .space hhead ih
    | type hd => exact .type (Member.meets_written.mp hd)
  · intro h
    induction h with
    | space hhead _ ih => exact .space hhead ih
    | type hd => exact .type (Member.meets_written.mpr hd)

theorem CompilationUnit.meets_written {u : CompilationUnit} :
    u.Meets (.written P) ↔ u.IsWritten P :=
  ⟨fun h => ⟨h.usings, fun m hm => NamespaceMember.meets_written.mp (h.members m hm)⟩,
    fun h => ⟨h.usings, fun m hm => NamespaceMember.meets_written.mpr (h.members m hm)⟩⟩

/-- In a tree of the plain grammar all declarations can be written. -/
theorem Requirement.isKnown_written :
    (Requirement.written P).IsKnown source (Tree.GrownWith P source) where
  of_mem h ht := h.of_mem ht
  directive h hu := UsingDirective.isWritten_of_tree h hu
  space h hhead := NamespaceHead.isWritten_of_parts (fun _ ht => h.of_mem ht) hhead
  type h _ hhead _ := TypeHead.isWritten_of_parts (fun _ ht => h.of_mem ht) hhead
  method h hd := MethodDeclaration.isWritten_of_parts (fun _ ht => h.of_mem ht) hd

theorem CompilationUnit.parseWithTree_eq_ok {path source : String} {t : Tree}
    {unit : CompilationUnit} : parseWithTree path source = .ok (t, unit) ↔
      Tree.parse source.toList = .ok t ∧ ofTree? source.toList path t = some unit := by
  simp only [parseWithTree, Pattern.bind_eq_ok]
  constructor
  · rintro ⟨t', ht', hunit⟩
    split at hunit
    · next hofTree =>
      cases hunit
      exact ⟨ht', hofTree⟩
    · cases hunit
  · rintro ⟨ht, hunit⟩
    exact ⟨t, ht, by rw [hunit]; rfl⟩

theorem CompilationUnit.parse_eq_ok {path source : String} {unit : CompilationUnit} :
    parse path source = .ok unit ↔
      ∃ t, Tree.parse source.toList = .ok t ∧ ofTree? source.toList path t = some unit := by
  simp only [← parseWithTree_eq_ok, parse, Pattern.bind_eq_ok]
  constructor
  · rintro ⟨⟨t, unit'⟩, h, hunit⟩
    cases hunit
    exact ⟨t, h⟩
  · rintro ⟨t, h⟩
    exact ⟨(t, unit), h, rfl⟩

/-- **A source declares what can be written**; its default values satisfy what is asked of those that
are read. -/
theorem CompilationUnit.isWritten_of_parse {path source : String}
    (hP : ∀ {s inner s'}, Parser.IsOf source.toList s →
      Rule.defaultValue.body.Reads Rule.defaultValue.follow [] s inner s' →
      P (ParameterSyntax.defaultOf source.toList (Rule.defaultValue.node inner.reverse)))
    {unit : CompilationUnit} (h : CompilationUnit.parse path source = .ok unit) :
    unit.IsWritten P := by
  obtain ⟨tree, htree, hunit⟩ := CompilationUnit.parse_eq_ok.mp h
  have hgrown : tree.GrownWith P source.toList := Tree.grown_of_parse hP htree
  exact meets_written.mp (meets_of_tree Requirement.isKnown_written hgrown hunit)

end

/-! ## Several sources -/

theorem eq_ok_of_toOption {α ε : Type} {x : Except ε α} {a : α} (h : x.toOption = some a) :
    x = .ok a := by
  cases x with
  | error => cases h
  | ok b => exact congrArg _ (Option.some.inj h)

/-- Some sources, if all can be read. -/
def CompilationUnit.parseAll? (sources : List String) : Option (List CompilationUnit) :=
  sources.mapM fun source => (CompilationUnit.parse "" source).toOption

theorem CompilationUnit.parsed_of_parseAll? {sources : List String} {units : List CompilationUnit}
    (h : parseAll? sources = some units) :
    ∀ u ∈ units, ∃ path source, CompilationUnit.parse path source = .ok u := fun _ hu =>
  let ⟨source, _, hsource⟩ := mem_of_mapM h hu
  ⟨"", source, eq_ok_of_toOption hsource⟩

end Facade
