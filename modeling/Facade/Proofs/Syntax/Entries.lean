import Facade.Proofs.Syntax.PartsFound

/-!
# Declarations for all phrases

The phrases of a tree that declare something, with those in them, and the declarations of a source, with
those in them. A tree that is parsed always has declarations, one for each such phrase, in the same order
and with the same nesting.

* `TreeEntry`, `Tree.entries`, `CompilationUnit.entries`: what is declared, in a tree and in a source;
* `Tree.entries_of_holdsNone`: phrases in which nothing is declared;
* `Tree.exists_core`, `Tree.entriesAll_eq_partsOf`: declarations proper, and the bodies of types;
* `Member.Stands`, **`Member.stands`**: types and members, by induction on trees;
* `NamespaceMember.Stands`, **`NamespaceMember.stands`**: namespaces;
* **`CompilationUnit.entries_of_parse`**: whole sources.
-/

namespace Facade

open Facade.Tree Facade.Pattern

/-! ## Entries -/

/-- Something that is declared: the rule of the phrase that says what it is, its span, and what is declared
in it. -/
inductive TreeEntry where
  | mk (rule : Rule) (span : Option Span) (inner : List TreeEntry)

mutual

/-- The rule of an entry and those in it, with how deep each is below `depth`. -/
def TreeEntry.rules (depth : Nat) : TreeEntry → List (Nat × Rule)
  | .mk r _ inner => (depth, r) :: TreeEntry.rulesAll (depth + 1) inner

/-- The rules of some entries and those in them. -/
def TreeEntry.rulesAll (depth : Nat) : List TreeEntry → List (Nat × Rule)
  | [] => []
  | e :: es => TreeEntry.rules depth e ++ TreeEntry.rulesAll depth es

end

/-- The phrases that declare something: directives, namespaces, and types and members with what stands
before them. -/
def Rule.isEntry : Rule → Bool
  | usingDirective | namespaceDeclaration | fileScopedNamespace | typeDeclaration | member => true
  | _ => false

/-- The phrases that stand before a declaration proper. -/
def Rule.isBefore (r : Rule) : Bool := r = .attributeSection ∨ r = .modifier

/-- What stands before a declaration proper. -/
def PartKind.isBefore : PartKind → Bool
  | token _ => false
  | phrase r => r.isBefore

namespace Tree

/-- The rule of the declaration proper among the parts of a declaration. -/
def core? : List Tree → Option Rule
  | [] => none
  | leaf _ :: ts => core? ts
  | node r _ _ :: ts => if r.isBefore then core? ts else some r

mutual

/-- What is declared in a tree, wherever in it that stands. -/
def entries : Tree → List TreeEntry
  | leaf _ => []
  | node r children e =>
    if r = .typeDeclaration ∨ r = .member then
      [.mk ((core? children).getD r) (e.map Extent.span) (entriesAll children)]
    else if r.isEntry then [.mk r (e.map Extent.span) (entriesAll children)]
    else entriesAll children

/-- What is declared in some trees. -/
def entriesAll : List Tree → List TreeEntry
  | [] => []
  | t :: ts => entries t ++ entriesAll ts

end

end Tree

/-- The rule of the declarations of this form. -/
def TypeForm.rule : TypeForm → Rule
  | classForm => .classDeclaration
  | structForm => .structDeclaration
  | interfaceForm => .interfaceDeclaration
  | recordForm _ => .recordDeclaration
  | enumForm => .enumDeclaration
  | delegateForm _ _ => .delegateDeclaration

/-- The rule of the members of this kind. -/
def MemberKind.rule : MemberKind → Rule
  | constructor => .constructorDeclaration
  | destructor => .destructorDeclaration
  | property => .propertyDeclaration
  | indexer => .indexerDeclaration
  | field => .fieldDeclaration
  | operator => .operatorDeclaration
  | conversion => .conversionDeclaration

/-- A directive as an entry. -/
def UsingDirective.entry (u : UsingDirective) : TreeEntry := .mk .usingDirective u.span []

mutual

/-- A member with what is declared in it. -/
def Member.entry : Member → TreeEntry
  | .type head members => .mk head.form.rule head.span (Member.entries members)
  | .method m => .mk .methodDeclaration m.span []
  | .other m => .mk m.kind.rule m.span []

/-- Members with what is declared in them. -/
def Member.entries : List Member → List TreeEntry
  | [] => []
  | m :: ms => Member.entry m :: Member.entries ms

end

/-- The rule of a namespace. -/
def NamespaceHead.rule (h : NamespaceHead) : Rule :=
  if h.isFileScoped then .fileScopedNamespace else .namespaceDeclaration

mutual

/-- A member of a namespace with what is declared in it. -/
def NamespaceMember.entry : NamespaceMember → TreeEntry
  | .space head members =>
    .mk head.rule head.span (head.usings.map UsingDirective.entry ++ NamespaceMember.entries members)
  | .type d => Member.entry (.type d.head d.members)

/-- Members of a namespace with what is declared in them. -/
def NamespaceMember.entries : List NamespaceMember → List TreeEntry
  | [] => []
  | m :: ms => NamespaceMember.entry m :: NamespaceMember.entries ms

end

/-- What a source declares: its directives, and then its namespaces and types. -/
def CompilationUnit.entries (unit : CompilationUnit) : List TreeEntry :=
  unit.usings.map UsingDirective.entry ++ NamespaceMember.entries unit.members

/-! ## Where entries stand -/

/-- Nothing is declared in a phrase of this rule. -/
def Rule.holdsNone : Rule → Bool
  | source | usingDirective | namespaceDeclaration | fileScopedNamespace | typeDeclaration
  | classDeclaration | structDeclaration | interfaceDeclaration | recordDeclaration | classBody
  | member => false
  | _ => true

/-- Nothing is declared in a part of this kind. -/
def PartKind.holdsNone : PartKind → Bool
  | token _ => true
  | phrase r => r.holdsNone

theorem Rule.kinds_holdNone {r : Rule} (h : r.holdsNone = true) :
    r.isEntry = false ∧ ∀ k ∈ r.plainBody.kinds, k.holdsNone = true := by
  revert h
  cases r <;> decide

namespace Tree

variable {good : Tree → Prop} {r : Rule} {parts : List Tree} {e : Option Extent} {t : Tree}

theorem entriesAll_eq (ts : List Tree) : entriesAll ts = ts.flatMap entries := by
  induction ts with
  | nil => rfl
  | cons t ts ih => rw [entriesAll, ih, List.flatMap_cons]

theorem entriesAll_append (ts us : List Tree) : entriesAll (ts ++ us) = entriesAll ts ++ entriesAll us := by
  simp only [entriesAll_eq, List.flatMap_append]

theorem entriesAll_eq_nil {ts : List Tree} (h : ∀ t ∈ ts, t.entries = []) : entriesAll ts = [] := by
  rw [entriesAll_eq]
  exact List.flatMap_eq_nil_iff.mpr h

theorem entries_node (hr : r.isEntry = false) : (node r parts e).entries = entriesAll parts := by
  have hmember : ¬(r = .typeDeclaration ∨ r = .member) := by
    rintro (rfl | rfl) <;> cases hr
  rw [entries, if_neg hmember, if_neg (by simp [hr])]

/-- Phrases in which nothing can be declared declare nothing. -/
theorem entries_of_holdsNone (h : t.Grown good) (hk : t.kind.holdsNone = true) : t.entries = [] := by
  induction h with
  | leaf => rfl
  | @node r parts hspells _ _ ih =>
    obtain ⟨hr, hkinds⟩ := Rule.kinds_holdNone hk
    rw [entries_node hr]
    refine entriesAll_eq_nil fun t ht => ?_
    have hmem := (List.mem_filter.mp ht).1
    exact ih t hmem (hkinds _ (hspells.kind_mem hmem))

/-- All that is declared in some parts is declared in the only phrase of a rule among them. -/
theorem entriesAll_eq_partsOf (hr : r.isEntry = false)
    (hnone : ∀ t ∈ parts, t.kind = .phrase r ∨ t.entries = [])
    (honce : parts.Pairwise fun t u => ¬(t.kind ∈ [.phrase r] ∧ u.kind ∈ [.phrase r])) :
    entriesAll parts = entriesAll (partsOf r parts) := by
  induction parts with
  | nil => rfl
  | cons t ts ih =>
    obtain ⟨hhead, htail⟩ := List.forall_mem_cons.mp hnone
    obtain ⟨hfirst, hlast⟩ := List.pairwise_cons.mp honce
    by_cases hk : t.kind = .phrase r
    · obtain ⟨inner, e, rfl⟩ := exists_of_kind hk
      have hrest : entriesAll ts = [] := entriesAll_eq_nil fun u hu =>
        (htail u hu).resolve_left fun hu' =>
          hfirst u hu ⟨List.mem_singleton.mpr hk, List.mem_singleton.mpr hu'⟩
      have hphrase : phrase? r (node r inner e :: ts) = some (node r inner e) :=
        List.find?_cons_of_pos (isPhrase_iff.mpr hk)
      rw [entriesAll, hrest, List.append_nil, entries_node hr, partsOf, hphrase]
    · have hskip : partsOf r (t :: ts) = partsOf r ts := by
        rw [partsOf, partsOf, phrase?, phrase?, List.find?_cons_of_neg (by rwa [isPhrase_iff])]
      rw [entriesAll, hhead.resolve_left hk, List.nil_append, ih htail hlast, hskip]

end Tree

/-! ## Declarations proper -/

/-- Each way to meet the pattern is one phrase. -/
def Pattern.isOnePhrase : Pattern → Bool
  | rule _ => true
  | alt p q => p.isOnePhrase && q.isOnePhrase
  | _ => false

theorem Pattern.Spells.exists_phrase {p : Pattern} {parts : List Tree} (h : p.Spells parts)
    (hp : p.isOnePhrase = true) : ∃ r inner e, parts = [.node r inner e] ∧ .phrase r ∈ p.kinds := by
  induction p with
  | rule r =>
    obtain ⟨inner, e, rfl⟩ := h
    exact ⟨r, inner, e, rfl, List.mem_singleton.mpr rfl⟩
  | alt p q ih ih' =>
    rw [Pattern.isOnePhrase, Bool.and_eq_true] at hp
    rcases h with h | h
    · obtain ⟨r, inner, e, hparts, hk⟩ := ih h hp.1
      exact ⟨r, inner, e, hparts, List.mem_append_left _ hk⟩
    · obtain ⟨r, inner, e, hparts, hk⟩ := ih' h hp.2
      exact ⟨r, inner, e, hparts, List.mem_append_right _ hk⟩
  | _ => cases hp

namespace Tree

variable {good : Tree → Prop} {r : Rule} {parts : List Tree} {e : Option Extent}

/-- A declaration has attributes and modifiers, and then the declaration proper. -/
theorem exists_core {p : Pattern} (hbody : r.plainBody = all attributes [modifiers, p])
    (hp : p.isOnePhrase = true) (h : (node r parts e).Grown good) :
    ∃ before r' inner e', parts = before ++ [node r' inner e'] ∧
      (∀ t ∈ before, t.kind.isBefore = true) ∧ .phrase r' ∈ p.kinds := by
  have hkinds : ∀ k ∈ attributes.kinds ++ modifiers.kinds, k.isBefore = true := by decide
  cases h with
  | node hspells _ _ =>
    rw [hbody] at hspells
    obtain ⟨as, _, has, ⟨ms, _, hms, hcore, rfl⟩, rfl⟩ := hspells
    obtain ⟨r', inner, e', rfl, hk⟩ := hcore.exists_phrase hp
    refine ⟨(as ++ ms).filter (isKept r), r', inner, e', ?_, fun t ht => ?_, hk⟩
    · rw [← List.append_assoc, List.filter_append, List.filter_cons_of_pos rfl, List.filter_nil]
    · refine hkinds _ (List.mem_append.mpr ?_)
      exact (List.mem_append.mp (List.mem_filter.mp ht).1).imp has.kind_mem hms.kind_mem

theorem exists_of_isBefore {t : Tree} (h : t.kind.isBefore = true) :
    ∃ r inner e, t = node r inner e ∧ r.isBefore = true := by
  cases t with
  | leaf => cases h
  | node r inner e => exact ⟨r, inner, e, rfl, h⟩

section

variable {before : List Tree} (h : ∀ t ∈ before, t.kind.isBefore = true)

include h

theorem core?_append (ts : List Tree) : core? (before ++ ts) = core? ts := by
  induction before with
  | nil => rfl
  | cons t us ih =>
    obtain ⟨ht, hus⟩ := List.forall_mem_cons.mp h
    obtain ⟨r, inner, e, rfl, hr⟩ := exists_of_isBefore ht
    rw [List.cons_append, core?, if_pos hr, ih hus]

theorem ofParts?_append (source : List Char) (around : Surroundings) (ts : List Tree) :
    Member.ofParts? source around (before ++ ts) = Member.ofParts? source around ts := by
  induction before with
  | nil => rfl
  | cons t us ih =>
    obtain ⟨ht, hus⟩ := List.forall_mem_cons.mp h
    obtain ⟨r, inner, e, rfl, hr⟩ := exists_of_isBefore ht
    rw [List.cons_append, Member.ofParts?, if_pos (of_decide_eq_true hr), ih hus]

theorem entriesAll_before (hgrown : ∀ t ∈ before, t.Grown good) : entriesAll before = [] := by
  refine entriesAll_eq_nil fun t ht => ?_
  have hnone : ∀ k : PartKind, k.isBefore = true → k.holdsNone = true := by
    rintro (_ | r) hk
    · rfl
    · revert hk
      cases r <;> decide
  exact entries_of_holdsNone (hgrown t ht) (hnone _ (h t ht))

end

end Tree

/-! ## Types and members -/

theorem TypeForm.rule_eq {source : List Char} {parts : List Tree} {r : Rule} {form : TypeForm}
    (h : ofParts? source parts r = some form) : form.rule = r := by
  unfold ofParts? at h
  split at h
  case h_6 =>
    simp only [Option.pure_def, Option.bind_eq_bind, Option.bind_eq_some_iff, Option.some.injEq] at h
    obtain ⟨_, -, _, -, rfl⟩ := h
    rfl
  all_goals cases h <;> rfl

theorem MemberKind.rule_eq {r : Rule} {kind : MemberKind} (h : ofRule? r = some kind) :
    kind.rule = r := by
  unfold ofRule? at h
  split at h
  all_goals cases h <;> rfl

/-- The rules of members that are no types. -/
def Rule.plainMembers : List Rule :=
  [.methodDeclaration, .destructorDeclaration, .conversionDeclaration, .constructorDeclaration,
    .propertyDeclaration, .indexerDeclaration, .fieldDeclaration, .operatorDeclaration]

namespace Member

variable {good : Tree → Prop} (source : List Char)

/-- What is read of a phrase with members declares what is declared in the phrase. -/
def Stands : Tree → Prop
  | t@(.node .typeDeclaration _ _) => ∃ head ms, ofTree? source t = some (.type head ms) ∧
      t.entries = [entry (.type head ms)]
  | t@(.node .member _ _) => ∃ m, ofTree? source t = some m ∧ t.entries = [m.entry]
  | .node .classBody children _ => ∃ ms, ofTrees? source children = some ms ∧
      entriesAll children = entries ms
  | .node r children _ => r ∈ Rule.typeDeclarations → ∃ ms, ofBody? source children = some ms ∧
      entriesAll children = entries ms
  | .leaf _ => True

variable {source} {r r' : Rule} {parts inner before : List Tree} {e e' : Option Extent}

theorem Stands.exists_body (h : Stands source (node r inner e)) (hr : r ∈ Rule.typeDeclarations) :
    ∃ ms, ofBody? source inner = some ms ∧ entriesAll inner = entries ms := by
  simp only [Rule.typeDeclarations, List.mem_cons, List.not_mem_nil, or_false] at hr
  rcases hr with rfl | rfl | rfl | rfl | rfl | rfl
  all_goals exact h (by decide)

theorem Stands.exists_members {ts : List Tree} (hmember : ∀ t ∈ ts, t.kind = .phrase .member)
    (h : ∀ t ∈ ts, Stands source t) :
    ∃ ms, ofTrees? source ts = some ms ∧ entriesAll ts = entries ms := by
  induction ts with
  | nil => exact ⟨[], rfl, rfl⟩
  | cons t ts ih =>
    obtain ⟨hkind, hkinds⟩ := List.forall_mem_cons.mp hmember
    obtain ⟨hfirst, hrest⟩ := List.forall_mem_cons.mp h
    obtain ⟨children, e, rfl⟩ := exists_of_kind hkind
    obtain ⟨m, hm, hentries⟩ := hfirst
    obtain ⟨ms, hms, hall⟩ := ih hkinds hrest
    exact ⟨m :: ms, by rw [ofTrees?, hm, hms]; rfl, by rw [entriesAll, hentries, hall]; rfl⟩

/-- The declaration proper of a type. -/
theorem exists_of_typeCore (around : Surroundings) (hr : r ∈ Rule.typeDeclarations)
    (h : (node r inner e).Grown good) (hstands : Stands source (node r inner e)) :
    ∃ head ms, ofParts? source around [node r inner e] = some (.type head ms) ∧
      entry (.type head ms) = .mk r around.span (entriesAll inner) := by
  have hplain : ∀ r ∈ Rule.typeDeclarations, ¬(r = .attributeSection ∨ r = .modifier) ∧
      r ≠ .methodDeclaration ∧ MemberKind.ofRule? r = none := by decide
  obtain ⟨hbefore, hmethod, hother⟩ := hplain r hr
  obtain ⟨ms, hms, hentries⟩ := hstands.exists_body hr
  obtain ⟨form, hform⟩ := TypeForm.exists_of_parts source hr h
  obtain ⟨head, hhead, heq, hspan⟩ := TypeHead.exists_of_parts around hr h form
  refine ⟨head, ms, ?_, by rw [entry, heq, TypeForm.rule_eq hform, hspan, hentries]⟩
  rw [ofParts?, if_neg hbefore, if_neg hmethod, hother]
  simp only [hform, hms, Option.bind_eq_bind, Option.bind_some, hhead, Option.pure_def]

theorem exists_of_plainCore (around : Surroundings) (hr : r ∈ Rule.plainMembers)
    (h : (node r inner e).Grown good) :
    ∃ m, ofParts? source around [node r inner e] = some m ∧
      m.entry = .mk r around.span (entriesAll inner) := by
  have hplain : ∀ r ∈ Rule.plainMembers, r.holdsNone = true ∧ ¬(r = .attributeSection ∨ r = .modifier) ∧
      (r = .methodDeclaration ∨ r ≠ .methodDeclaration ∧ (MemberKind.ofRule? r).isSome) := by decide
  obtain ⟨hnone, hbefore, hkind⟩ := hplain r hr
  have hempty : entriesAll inner = [] := by
    rw [← entries_node (Rule.kinds_holdNone hnone).1, entries_of_holdsNone h hnone]
  rw [ofParts?, if_neg hbefore, hempty]
  rcases hkind with rfl | ⟨hmethod, hkind⟩
  · obtain ⟨m, hm, hspan⟩ := MethodDeclaration.exists_of_parts source around h
    exact ⟨.method m, by rw [if_pos rfl, hm]; rfl, by rw [entry, hspan]⟩
  · obtain ⟨kind, hkind⟩ := Option.isSome_iff_exists.mp hkind
    obtain ⟨n, hn⟩ := OtherMember.exists_of_parts around hkind h
    exact ⟨_, by rw [if_neg hmethod, hkind]; simp only [hn]; rfl, by
      rw [entry, MemberKind.rule_eq hkind]⟩

/-- A declaration is read as its declaration proper is, between its attributes and modifiers and its end. -/
theorem exists_surroundings (hr : r = .typeDeclaration ∨ r = .member)
    (hbefore : ∀ t ∈ before, t.kind.isBefore = true)
    (h : (node r (before ++ [node r' inner e']) e).Grown good)
    (hr' : r'.isBefore = false ∧ r'.isEntry = false) : ∃ around,
      ofTree? source (node r (before ++ [node r' inner e']) e) =
        ofParts? source around [node r' inner e'] ∧
      (node r (before ++ [node r' inner e']) e).entries = [.mk r' around.span (entriesAll inner)] := by
  have hparts : ∀ t ∈ before ++ [node r' inner e'], t.Grown good := fun t ht => h.of_mem ht
  obtain ⟨around, haround⟩ := Surroundings.exists_among hparts source e
  refine ⟨around, ?_, ?_⟩
  · rw [← ofParts?_append hbefore]
    rcases hr with rfl | rfl
    all_goals
      rw [ofTree?, haround]
      rfl
  · have hcore : core? (before ++ [node r' inner e']) = some r' := by
      rw [core?_append hbefore, core?, if_neg (by simp [hr'.1])]
    have hentries : entriesAll (before ++ [node r' inner e']) = entriesAll inner := by
      rw [entriesAll_append, entriesAll_before hbefore fun t ht => hparts t (List.mem_append_left _ ht),
        List.nil_append, entriesAll, entries_node hr'.2, entriesAll, List.append_nil]
    rw [Tree.entries, if_pos hr, hcore, hentries, Surroundings.span_of_parts haround]
    rfl

theorem exists_body_of_parts (hr : r ∈ Rule.typeDeclarations) (h : (node r parts e).Grown good)
    (hstands : ∀ t ∈ parts, Stands source t) :
    ∃ ms, ofBody? source parts = some ms ∧ entriesAll parts = entries ms := by
  have hrules : ∀ r ∈ Rule.typeDeclarations,
      (∀ k ∈ r.keptKinds, k = .phrase .classBody ∨ k.holdsNone = true) ∧
      r.plainBody.puts [.phrase .classBody] [.phrase .classBody] = true := by decide
  obtain ⟨hkinds, hputs⟩ := hrules r hr
  rw [ofBody?_eq, entriesAll_eq_partsOf rfl
    (fun t ht => (hkinds _ (h.kind_mem ht)).imp_right (entries_of_holdsNone (h.of_mem ht))) (h.order hputs)]
  unfold partsOf
  cases hbody : phrase? .classBody parts with
  | none => exact ⟨[], rfl, rfl⟩
  | some t =>
    obtain ⟨hmem, inner, e, rfl⟩ := phrase?_eq_some hbody
    exact hstands _ hmem

/-- **What is read of a phrase with members declares what is declared in the phrase**: by induction on the
tree, in which the phrases of members and those of types take turns. -/
theorem stands {t : Tree} (h : t.Grown good) : Stands source t := by
  induction h with
  | leaf => trivial
  | @node r parts hspells hgrown hgood ih =>
    have h : (node r (parts.filter (isKept r)) (cover parts)).Grown good := .node hspells hgrown hgood
    have ih : ∀ t ∈ parts.filter (isKept r), Stands source t := fun t ht => ih t (List.mem_filter.mp ht).1
    generalize parts.filter (isKept r) = children, cover parts = e at h ih
    have hcore {r' : Rule} {before inner : List Tree} {e' : Option Extent}
        (hchildren : children = before ++ [node r' inner e']) :
        (node r' inner e').Grown good ∧ Stands source (node r' inner e') :=
      have hmem := hchildren ▸ List.mem_append_right _ (List.mem_singleton.mpr rfl)
      ⟨h.of_mem hmem, ih _ hmem⟩
    cases r with
    | typeDeclaration =>
      have hrules : ∀ r, .phrase r ∈ typeCore.kinds →
          r ∈ Rule.typeDeclarations ∧ r.isBefore = false ∧ r.isEntry = false := by
        intro r
        cases r <;> decide
      obtain ⟨before, r', inner, e', rfl, hbefore, hr'⟩ := exists_core rfl rfl h
      obtain ⟨htype, hr'⟩ := hrules r' hr'
      obtain ⟨around, hread, hentries⟩ := exists_surroundings (.inl rfl) hbefore h hr'
      obtain ⟨head, ms, hm, hentry⟩ := exists_of_typeCore around htype (hcore rfl).1 (hcore rfl).2
      exact ⟨head, ms, hread.trans hm, by rw [hentries, hentry]⟩
    | member =>
      obtain ⟨before, r', inner, e', rfl, hbefore, hr'⟩ := exists_core rfl rfl h
      have hrules : (r' ∈ Rule.typeDeclarations ∨ r' ∈ Rule.plainMembers) ∧ r'.isBefore = false ∧
          r'.isEntry = false := by
        revert hr'
        clear * -
        cases r' <;> decide
      obtain ⟨hkind, hr'⟩ := hrules
      obtain ⟨around, hread, hentries⟩ := exists_surroundings (.inr rfl) hbefore h hr'
      rcases hkind with htype | hplain
      · obtain ⟨head, ms, hm, hentry⟩ := exists_of_typeCore around htype (hcore rfl).1 (hcore rfl).2
        exact ⟨_, hread.trans hm, by rw [hentries, hentry]⟩
      · obtain ⟨m, hm, hentry⟩ := exists_of_plainCore around hplain (hcore rfl).1
        exact ⟨m, hread.trans hm, by rw [hentries, hentry]⟩
    | classBody =>
      have hkinds : ∀ k ∈ Rule.classBody.keptKinds, k = .phrase .member := by decide
      exact Stands.exists_members (fun t ht => hkinds _ (h.kind_mem ht)) ih
    | _ => exact fun hr => exists_body_of_parts hr h ih

end Member

/-! ## Namespaces -/

/-- The kinds of parts that declare a namespace or a type in a namespace or source. -/
def spaceKinds : List PartKind :=
  [.phrase .namespaceDeclaration, .phrase .fileScopedNamespace, .phrase .typeDeclaration]

section

variable {good : Tree → Prop} {source : List Char} {r : Rule} {parts : List Tree} {e : Option Extent}

theorem Tree.entries_of_isEntry (hr : r ∈ [.usingDirective, .namespaceDeclaration, .fileScopedNamespace]) :
    (node r parts e).entries = [.mk r (e.map Extent.span) (entriesAll parts)] := by
  have hrules : ∀ r ∈ [Rule.usingDirective, .namespaceDeclaration, .fileScopedNamespace],
      ¬(r = .typeDeclaration ∨ r = .member) ∧ r.isEntry = true := by decide
  rw [entries, if_neg (hrules r hr).1, if_pos (hrules r hr).2]

theorem UsingDirective.stands {t : Tree} (h : t.Grown good) (hk : t.kind = .phrase .usingDirective) :
    ∃ u, ofTree? t = some u ∧ t.entries = [u.entry] := by
  obtain ⟨u, hu⟩ := exists_of_tree h hk
  obtain ⟨inner, e, rfl⟩ := exists_of_kind hk
  have hspan : u.span = e.map Extent.span := span_of_tree hu
  have hkinds : ∀ k ∈ Rule.usingDirective.keptKinds, k.holdsNone = true := by decide
  have hempty : entriesAll inner = [] :=
    entriesAll_eq_nil fun t ht => entries_of_holdsNone (h.of_mem ht) (hkinds _ (h.kind_mem ht))
  exact ⟨u, hu, by rw [entries_of_isEntry (by decide), hempty, entry, hspan]⟩

theorem NamespaceHead.exists_of_parts (isFileScoped : Bool) {us : List UsingDirective}
    (h : (node r parts e).Grown good) (hname : r.plainBody.requires [.phrase .qualifiedName])
    (hus : (phrases .usingDirective parts).mapM UsingDirective.ofTree? = some us) :
    ∃ head, ofParts? isFileScoped parts e = some head ∧ head.isFileScoped = isFileScoped ∧
      head.usings = us ∧ head.span = e.map Extent.span := by
  obtain ⟨inner, e', hphrase, -⟩ := h.exists_phrase _ hname
  exact ⟨_, by simp only [ofParts?, hphrase, hus]; rfl, rfl, rfl, rfl⟩

namespace NamespaceMember

/-- What is read of a namespace or type declares what is declared in the phrase. -/
def Stands (source : List Char) (t : Tree) : Prop :=
  t.kind ∈ spaceKinds → ∃ m, ofTree? source t = some m ∧ t.entries = [m.entry]

theorem stands_type (h : (node .typeDeclaration parts e).Grown good) :
    Stands source (node .typeDeclaration parts e) := by
  intro _
  have hstands : Member.Stands source (node .typeDeclaration parts e) := Member.stands h
  obtain ⟨head, ms, hm, hentries⟩ := hstands
  exact ⟨.type ⟨head, ms⟩, by simp [ofTree?, TypeDeclaration.ofTree?, hm], hentries⟩

theorem ofParts?_cons {t : Tree} {ts : List Tree} {m : NamespaceMember} {ms : List NamespaceMember}
    (hk : t.kind ∈ spaceKinds) (hm : ofTree? source t = some m) (hms : ofParts? source ts = some ms) :
    ofParts? source (t :: ts) = some (m :: ms) := by
  simp only [spaceKinds, List.mem_cons, List.not_mem_nil, or_false] at hk
  rcases hk with hk | hk | hk
  all_goals
    obtain ⟨inner, e, rfl⟩ := exists_of_kind hk
    simp [ofParts?, hm, hms]

theorem exists_of_parts (hgrown : ∀ t ∈ parts, t.Grown good) (hstands : ∀ t ∈ parts, Stands source t)
    (hkinds : ∀ t ∈ parts, t.kind ∈ [.phrase .usingDirective, .phrase .qualifiedName] ++ spaceKinds)
    (horder : parts.Pairwise fun t u => ¬(t.kind ∈ spaceKinds ∧ u.kind ∈ [.phrase .usingDirective])) :
    ∃ us ms, (phrases .usingDirective parts).mapM UsingDirective.ofTree? = some us ∧
      ofParts? source parts = some ms ∧
      entriesAll parts = us.map UsingDirective.entry ++ entries ms := by
  induction parts with
  | nil => exact ⟨[], [], rfl, rfl, rfl⟩
  | cons t ts ih =>
    obtain ⟨hfirst, hbehind⟩ := List.pairwise_cons.mp horder
    obtain ⟨ht, hts⟩ := List.forall_mem_cons.mp hgrown
    obtain ⟨hstand, hstands⟩ := List.forall_mem_cons.mp hstands
    obtain ⟨hkind, hkinds⟩ := List.forall_mem_cons.mp hkinds
    obtain ⟨us, ms, hus, hms, hall⟩ := ih hts hstands hkinds hbehind
    rw [List.mem_append, List.mem_cons, List.mem_singleton] at hkind
    rw [phrases] at hus ⊢
    rcases hkind with (husing | hname) | hspace
    · obtain ⟨u, hu, hentries⟩ := UsingDirective.stands ht husing
      obtain ⟨inner, e, rfl⟩ := exists_of_kind husing
      refine ⟨u :: us, ms, ?_, hms, by rw [entriesAll, hentries, hall]; rfl⟩
      rw [List.filter_cons_of_pos rfl, List.mapM_cons, hu, hus]
      rfl
    · obtain ⟨inner, e, rfl⟩ := exists_of_kind hname
      refine ⟨us, ms, ?_, hms, ?_⟩
      · rwa [List.filter_cons_of_neg (by simp [isPhrase])]
      · rw [entriesAll, entries_of_holdsNone ht rfl, hall, List.nil_append]
    · obtain ⟨m, hm, hentries⟩ := hstand hspace
      have hnotUsing : ∀ u ∈ t :: ts, ¬isPhrase .usingDirective u = true := by
        refine List.forall_mem_cons.mpr ⟨fun hu => ?_, fun u hu hphrase => ?_⟩
        · rw [isPhrase_iff.mp hu] at hspace
          revert hspace
          decide
        · exact hfirst u hu ⟨hspace, List.mem_singleton.mpr (isPhrase_iff.mp hphrase)⟩
      -- behind a member there is no directive
      rw [List.filter_eq_nil_iff.mpr fun u hu => hnotUsing u (List.mem_cons_of_mem _ hu)] at hus
      cases hus
      refine ⟨[], m :: ms, ?_, ofParts?_cons hspace hm hms, by rw [entriesAll, hentries, hall]; rfl⟩
      rw [List.filter_eq_nil_iff.mpr hnotUsing]
      rfl

theorem exists_of_phrase (hr : r ∈ [.source, .namespaceDeclaration, .fileScopedNamespace])
    (h : (node r parts e).Grown good) (hstands : ∀ t ∈ parts, Stands source t) :
    ∃ us ms, (phrases .usingDirective parts).mapM UsingDirective.ofTree? = some us ∧
      ofParts? source parts = some ms ∧
      entriesAll parts = us.map UsingDirective.entry ++ entries ms := by
  have hrules : ∀ r ∈ [Rule.source, .namespaceDeclaration, .fileScopedNamespace],
      r.keptKinds ⊆ [.phrase .usingDirective, .phrase .qualifiedName] ++ spaceKinds ∧
      r.plainBody.puts [.phrase .usingDirective] spaceKinds = true := by decide
  obtain ⟨hkinds, hputs⟩ := hrules r hr
  exact exists_of_parts (fun t ht => h.of_mem ht) hstands (fun t ht => hkinds (h.kind_mem ht))
    (h.order hputs)

theorem exists_of_space (isFileScoped : Bool)
    (hr : r = if isFileScoped then .fileScopedNamespace else .namespaceDeclaration)
    (h : (node r parts e).Grown good) (hstands : ∀ t ∈ parts, Stands source t) :
    ∃ m, ofTree? source (node r parts e) = some m ∧ (node r parts e).entries = [m.entry] := by
  obtain ⟨us, ms, hus, hms, hall⟩ := exists_of_phrase (by cases isFileScoped <;> simp [hr]) h hstands
  obtain ⟨head, hhead, hscoped, rfl, hspan⟩ := NamespaceHead.exists_of_parts isFileScoped h
    (by rw [hr]; cases isFileScoped <;> decide) hus
  refine ⟨.space head ms, ?_, ?_⟩
  · subst hr
    cases isFileScoped
    all_goals
      simp only [Bool.false_eq_true, if_true, if_false, ofTree?, hhead, hms]
      rfl
  · rw [entries_of_isEntry (by cases isFileScoped <;> simp [hr]), hall, entry, hspan,
      NamespaceHead.rule, hscoped, hr]

/-- **What is read of a namespace declares what is declared in the phrase**: by induction on the tree. -/
theorem stands {t : Tree} (h : t.Grown good) : Stands source t := by
  induction h with
  | leaf => exact fun hk => absurd hk (by simp [spaceKinds, kind])
  | @node r parts hspells hgrown hgood ih =>
    have h : (node r (parts.filter (isKept r)) (cover parts)).Grown good := .node hspells hgrown hgood
    have ih : ∀ t ∈ parts.filter (isKept r), Stands source t := fun t ht => ih t (List.mem_filter.mp ht).1
    intro hk
    simp only [spaceKinds, List.mem_cons, List.not_mem_nil, or_false, kind, PartKind.phrase.injEq] at hk
    rcases hk with rfl | rfl | rfl
    · exact exists_of_space false rfl h ih
    · exact exists_of_space true rfl h ih
    · exact stands_type h (by simp [spaceKinds, kind])

end NamespaceMember

end

/-! ## Sources -/

namespace Tree

mutual

/-- A tree and the trees in it, each before those in it. -/
def subtrees : Tree → List Tree
  | leaf t => [leaf t]
  | node r children e => node r children e :: subtreesAll children

/-- Some trees and the trees in them. -/
def subtreesAll : List Tree → List Tree
  | [] => []
  | t :: ts => subtrees t ++ subtreesAll ts

end

variable {good : Tree → Prop} {t u : Tree}

theorem mem_subtreesAll {ts : List Tree} : u ∈ subtreesAll ts ↔ ∃ t ∈ ts, u ∈ t.subtrees := by
  induction ts with
  | nil => simp [subtreesAll]
  | cons t ts ih => simp [subtreesAll, ih]

theorem Grown.of_mem_subtrees (h : t.Grown good) (hu : u ∈ t.subtrees) : u.Grown good := by
  induction h with
  | leaf ht =>
    rw [subtrees, List.mem_singleton] at hu
    exact hu ▸ .leaf ht
  | @node r parts hspells hgrown hgood ih =>
    rw [subtrees, List.mem_cons] at hu
    rcases hu with rfl | hu
    · exact .node hspells hgrown hgood
    · obtain ⟨t, ht, hu⟩ := mem_subtreesAll.mp hu
      exact ih t (List.mem_filter.mp ht).1 hu

theorem Grown.exists_word {inner : List Tree} {e : Option Extent}
    (h : (Tree.node .recordKind inner e).Grown good) : ∃ w, inner = [.leaf w] := by
  cases h with
  | node hspells _ _ =>
    have hword : (oneOf .classKw [.structKw]).Spells _ := hspells
    obtain ⟨w, rfl⟩ := spells_oneOf hword
    exact ⟨w, filter_isKept rfl _⟩

theorem exists_source_of_parse {source : List Char} (h : Tree.parse source = .ok t) :
    ∃ parts e, t = node .source parts e := by
  simp only [Tree.parse, bind_eq_ok] at h
  obtain ⟨_, -, _, -, h⟩ := h
  cases h
  exact ⟨_, _, rfl⟩

end Tree

namespace CompilationUnit

/-- **Every tree has declarations, and they are those of its phrases**: one for each phrase that declares
something, wherever in the tree that stands, in the same order and with the same nesting. The parts of a
source are directives, namespaces and types, and a record is told by the only part of a phrase. -/
theorem entries_of_parse (path : String) {source : String} {tree : Tree}
    (h : Tree.parse source.toList = .ok tree) :
    (∃ unit, parseWithTree path source = .ok (tree, unit) ∧ unit.entries = tree.entries) ∧
    (∃ parts e, tree = .node .source parts e ∧
      ∀ t ∈ parts, t.kind = .phrase .usingDirective ∨ t.kind ∈ spaceKinds) ∧
    ∀ inner e, .node .recordKind inner e ∈ tree.subtrees → ∃ w, inner = [.leaf w] := by
  have hgrown : tree.Grown fun _ => True := Tree.grown_of_parse (fun _ _ => trivial) h
  obtain ⟨parts, e, rfl⟩ := Tree.exists_source_of_parse h
  refine ⟨?_, ⟨parts, e, rfl, fun t ht => ?_⟩, fun inner e' hmem =>
    (hgrown.of_mem_subtrees hmem).exists_word⟩
  · have hstands : ∀ t ∈ parts, NamespaceMember.Stands source.toList t := fun t ht =>
      NamespaceMember.stands (hgrown.of_mem ht)
    obtain ⟨us, ms, hus, hms, hall⟩ := NamespaceMember.exists_of_phrase (by decide) hgrown hstands
    refine ⟨⟨path, us, ms, e.map Extent.span⟩, parseWithTree_eq_ok.mpr ⟨h, ?_⟩, ?_⟩
    · simp only [ofTree?, hus, hms]
      rfl
    · rw [Tree.entries_node rfl, hall, CompilationUnit.entries]
  · have hkinds : ∀ k ∈ Rule.source.keptKinds, k = .phrase .usingDirective ∨ k ∈ spaceKinds := by decide
    exact hkinds _ (hgrown.kind_mem ht)

/-- A namespace in a namespace, and types in a type, of which one has other members than types. -/
def nestedEntriesSource : String :=
  "using A;\nnamespace N \x7b\n using B = A.C; namespace M \x7b \x7d\n [D] public partial class E \x7b\n" ++
    "  int f, g = 1; record struct R(int X); class F \x7b void G() => H(); ~F() \x7b \x7d \x7d \x7d\n" ++
    " delegate void I();\n\x7d\n"

/-- Eleven declarations, one for each phrase that declares something. -/
theorem entries_of_parse_nestedEntries : ∃ tree unit,
    Tree.parse nestedEntriesSource.toList = .ok tree ∧
    parseWithTree "src0.cs" nestedEntriesSource = .ok (tree, unit) ∧ unit.entries = tree.entries ∧
    TreeEntry.rulesAll 0 tree.entries = [(0, .usingDirective), (0, .namespaceDeclaration),
      (1, .usingDirective), (1, .namespaceDeclaration), (1, .classDeclaration), (2, .fieldDeclaration),
      (2, .recordDeclaration), (2, .classDeclaration), (3, .methodDeclaration),
      (3, .destructorDeclaration), (1, .delegateDeclaration)] := by
  have hprogram : ((parse "src0.cs" nestedEntriesSource).toOption >>= some).any
      (fun (unit : CompilationUnit) => decide (TreeEntry.rulesAll 0 unit.entries =
        [(0, .usingDirective), (0, .namespaceDeclaration), (1, .usingDirective),
          (1, .namespaceDeclaration), (1, .classDeclaration), (2, .fieldDeclaration),
          (2, .recordDeclaration), (2, .classDeclaration), (3, .methodDeclaration),
          (3, .destructorDeclaration), (1, .delegateDeclaration)])) = true := by
    refine any_of_ofCharacters
      (toList_append_eq (toList_append_eq String.toList_ofList String.toList_ofList)
        String.toList_ofList) ?_
    decide +kernel
  obtain ⟨unit, hx, hfacts⟩ := (Option.any_eq_true _ _).mp hprogram
  have hparse : parse "src0.cs" nestedEntriesSource = .ok unit := eq_ok_of_toOption (by simpa using hx)
  obtain ⟨tree, htree, hunit⟩ := parse_eq_ok.mp hparse
  obtain ⟨⟨unit', hboth, hentries⟩, -, -⟩ := entries_of_parse "src0.cs" htree
  obtain rfl : unit' = unit := Option.some.inj ((parseWithTree_eq_ok.mp hboth).2.symm.trans hunit)
  exact ⟨tree, unit', htree, hboth, hentries, hentries ▸ of_decide_eq_true hfacts⟩

end CompilationUnit

end Facade
