import Facade.Proofs.Generation.ReadMethod
import Facade.Proofs.Syntax.SourceOrder

/-!
# Containers are read as they are printed

A partial type is printed with its keyword, its name, its type parameters and at most one base type. The
members between its braces are read if each of them is.

* `takes_classBody`: the members between the braces of a type;
* `PrintedHead`, `PrintedHead.IsLegible`: what is printed before the braces, and when the names in it are
  read as names;
* `ReadsType`, `PrintedHead.IsLegible.takesType`: a type is read from its keyword on;
* **`accepts_modified`**: and so it is behind its modifiers.
-/

namespace Facade

open Text Scan

variable {source : List Char}

/-! ## The bodies of types -/

theorem Member.ofTrees?_eq_mapM (source : List Char) (trees : List Tree) :
    Member.ofTrees? source trees = trees.mapM (Member.ofTree? source) := by
  induction trees with
  | nil => rfl
  | cons t trees ih => simp [Member.ofTrees?, ih]

section

variable {α : Type} {gap core : α → List Char} {T : α → Member → Prop} {xs : List α}
  (hxs : ∀ x ∈ xs, isGap (gap x) ∧ gap x ≠ [] ∧
    Rule.member.Accepts source (fun _ => True) (Follows .afterMember) (core x)
      fun tree => ∃ m, Member.ofTree? source tree = some m ∧ T x m)

include hxs

theorem takes_member : ∀ x ∈ xs, ∀ rest b, Follows .afterMember rest b → ∃ a,
    Follows .afterMember ((gap x ++ core x) ++ rest) a ∧ a.terminal ∈ Rule.member.first ∧
    (Pattern.rule .member).Takes source .afterMember a b [] (Pattern.One .member fun tree =>
      ∃ m, Member.ofTree? source tree = some m ∧ T x m) := fun x hx rest b hb => by
  obtain ⟨hgap, hne, haccepts⟩ := hxs x hx
  obtain ⟨a, ha, hlexes, htakes⟩ := haccepts rest b hb
  rw [List.append_assoc]
  exact ⟨a, ⟨endsWord_gap hgap fun h => absurd h hne, TerminalSet.mem_of_isWithin (by decide) ha,
    fun B hB hmem => hlexes B (gap x) hB hmem trivial hgap⟩, ha, htakes _ hb.mem⟩

/-- **The members between the braces of a type are read.** -/
theorem takes_classBody {last rest : List Char} (hlast : isGap last) {b : Ahead} {after : TerminalSet}
    (hb : Lexes Rule.classBody.follow rest b) (hafter : b.terminal ∈ after) :
    (Pattern.rule .classBody).Takes source after
      ⟨.leftBrace, ['\x7b'], xs.flatMap (fun x => gap x ++ core x) ++ (last ++ '\x7d' :: rest)⟩ b []
      (Pattern.One .classBody fun tree => ∃ ms, Member.ofBody? source [tree] = some ms ∧
        List.Forall₂ T xs ms) := by
  have hclose : Follows .afterMember (last ++ '\x7d' :: rest) ⟨.rightBrace, ['\x7d'], rest⟩ :=
    (Follows.sign (by decide) (by decide) rest).gap hlast
  obtain ⟨a, ha, -, hmembers⟩ := Pattern.Takes.many hclose
    (show Terminal.rightBrace ∈ TerminalSet.single .rightBrace by decide)
    (show Terminal.rightBrace ∉ (Pattern.rule .member).first by decide) xs (takes_member hxs)
  refine .one (.cons rfl (ha.lexes (by decide) (by decide)) (.andThen hmembers ?_)) hafter
  rintro _ ⟨news, hnews, rfl⟩
  have hall := flatten_ones hnews
  obtain ⟨ms, hms, hsays⟩ := exists_mapM_of_forall₂ (hall.imp fun _ _ h => h.1)
  refine .token rfl hb ⟨ms, ?_, hsays⟩
  have hkept := Tree.filter_isKept_of_forall (forall_of_forall₂ (hall.imp fun _ _ h => h.2)) .classBody
  rw [Rule.node, List.filter_append, List.filter_append, hkept]
  simpa [Member.ofBody?, Member.ofTrees?_eq_mapM, Terminal.isNamed, Rule.keepsTokens] using hms

end

/-! ## The heads of types -/

/-- The head of a type as it is printed. -/
structure PrintedHead where
  keyword : String
  name : String
  typeParameters : List String
  baseType : Option String

namespace PrintedHead

/-- What stands before the base type. -/
def baseText (h : PrintedHead) : List Char :=
  match h.baseType with
  | some t => ' ' :: ':' :: ' ' :: t.toList
  | none => []

/-- The head as it is printed. -/
def text (h : PrintedHead) : List Char :=
  h.keyword.toList ++ ' ' :: ((withArguments h.name h.typeParameters).toList ++ h.baseText)

/-- The head is read as it is printed. -/
structure IsLegible (h : PrintedHead) : Prop where
  keyword : h.keyword ∈ bodyWords
  name : Named h.name
  clear : h.keyword = "record" → ReadsAsName (Rule.recordKind.first ∪ .single .name) h.name
  typeParameters : ∀ n ∈ h.typeParameters, Named n ∧ ReadsAsName Rule.typeParameter.first n
  baseType : ∀ t ∈ h.baseType, LegibleType .typeStart t

end PrintedHead

/-- The declared head is the printed one. -/
structure TypeHead.Says (d : TypeHead) (h : PrintedHead) : Prop where
  keyword : d.form.keyword = h.keyword
  name : d.name = h.name
  typeParameters : d.typeParameters.map TypeParameterSyntax.name = h.typeParameters
  baseTypes : d.baseTypes.map TypeSyntax.text = h.baseType.toList

namespace PrintedHead

variable {h : PrintedHead} {rest : List Char} {c : Ahead}

variable (source) in
theorem IsLegible.takes_base (hh : h.IsLegible) (hc : Follows (.single .leftBrace) rest c) : ∃ k,
    Follows (.ofList [.colon, .leftBrace]) (h.baseText ++ rest) k ∧
    ∀ {after : TerminalSet}, c.terminal ∈ after →
      (Pattern.opt (.rule .baseList)).Takes source after k c [] fun new =>
        (∀ tree ∈ new, tree.isPhrase .baseList) ∧
        ∃ us, TypeHead.basesOf? new .classForm = some us ∧
          us.map TypeSyntax.text = h.baseType.toList := by
  unfold baseText
  cases hbase : h.baseType with
  | none =>
    exact ⟨c, hc.mono (by decide), fun _ =>
      .none (TerminalSet.not_mem_of_isApart (by decide) hc.mem) ⟨by simp, [], rfl, rfl⟩⟩
  | some t =>
    obtain ⟨k, hk, hlexes, htype⟩ := (hh.baseType t hbase).accepts source rest c
      ((hc.typeEnds (by decide)).mono (by decide))
    have hcolon : Comes (' ' :: ':' :: ' ' :: (t.toList ++ rest))
        ⟨.colon, [':'], ' ' :: (t.toList ++ rest)⟩ :=
      (comes_blank (t := .colon) (w := ":") (by decide) (by decide) _).gap (show isGap [' '] from rfl)
    have hfollow : ∀ {B : TerminalSet}, (TerminalSet.single .leftBrace).isWithin B → c.terminal ∈ B :=
      fun h => TerminalSet.mem_of_isWithin h hc.mem
    have hread : (Pattern.rule .baseType).Takes source
        ((Pattern.commaRest .afterBases .baseType).admits Rule.baseList.follow) k c []
        (Pattern.One .baseType fun tree =>
          ∃ u, TypeHead.basesOf? [Rule.baseList.node [tree]] .classForm = some [u] ∧ u.text = t) := by
      refine .one (.andThen (htype _ (hfollow (by decide))) ?_) (hfollow (by decide))
      rintro _ ⟨inner, ⟨u, hu, htext⟩, rfl⟩
      refine .none (TerminalSet.not_mem_of_isApart (by decide) hc.mem) ⟨u, ?_, htext⟩
      change (do return [← TypeSyntax.ofTree? (Rule.type.node inner)]) = some [u]
      simp [hu]
    refine ⟨_, ⟨endsWord_cons (by decide) _, (show Terminal.colon ∈ _ by decide), hcolon⟩,
      fun {after} hafter => .some (show Terminal.colon ∈ _ by decide) ((Pattern.Takes.one ?_ hafter).weaken
        (R := Pattern.One .baseList fun tree => ∃ u, TypeHead.basesOf? [tree] .classForm = some [u] ∧
          u.text = t) ?_)⟩
    · refine .cons rfl (hlexes .typeStart [' '] (by decide) hk (by decide) rfl)
        (.andThen hread ?_)
      rintro _ ⟨inner, ⟨u, hu, htext⟩, rfl⟩
      refine .none (TerminalSet.not_mem_of_isApart (by decide) hc.mem) ⟨u, ?_, htext⟩
      rw [← hu]
      rfl
    · rintro _ ⟨inner, ⟨u, hu, rfl⟩, rfl⟩
      exact ⟨by simp, [u], hu, rfl⟩

theorem basesOf?_congr {parts parts' : List Tree} {form : TypeForm} (hform : form ≠ .enumForm)
    (h : Tree.phrases .baseList parts = Tree.phrases .baseList parts') :
    TypeHead.basesOf? parts form = TypeHead.basesOf? parts' .classForm := by
  have hclass : TypeHead.basesOf? parts form = TypeHead.basesOf? parts .classForm := by
    cases form with
    | enumForm => exact absurd rfl hform
    | _ => rfl
  rw [hclass]
  simp only [TypeHead.basesOf?, Tree.partsOf_congr h]

/-- The phrases behind the name of a type. -/
structure IsReadBehind (source : List Char) (h : PrintedHead) (S : List Member → Prop) (parts : List Tree) :
    Prop where
  recordKind : Tree.phrases .recordKind parts = []
  constraints : Tree.phrases .constraintClause parts = []
  typeParameters : ∃ ps, TypeParameterSyntax.among? parts = some ps ∧
    ps.map TypeParameterSyntax.name = h.typeParameters
  baseTypes : ∃ us, TypeHead.basesOf? parts .classForm = some us ∧
    us.map TypeSyntax.text = h.baseType.toList
  members : ∃ ms, Member.ofBody? source parts = some ms ∧ S ms

theorem isReadBehind_of_phrases {S : List Member → Prop} {types bases inner : List Tree}
    (htypes : ∀ t ∈ types, t.isPhrase .typeParameterList) (hbases : ∀ t ∈ bases, t.isPhrase .baseList)
    (htypeParameters : ∃ ps, TypeParameterSyntax.among? types = some ps ∧
      ps.map TypeParameterSyntax.name = h.typeParameters)
    (hbaseTypes : ∃ us, TypeHead.basesOf? bases .classForm = some us ∧
      us.map TypeSyntax.text = h.baseType.toList)
    (hmembers : ∃ ms, Member.ofBody? source [Rule.classBody.node inner] = some ms ∧ S ms) :
    h.IsReadBehind source S (types ++ (bases ++ [Rule.classBody.node inner])) := by
  generalize hparts : types ++ (bases ++ [Rule.classBody.node inner]) = parts
  have hphrases : ∀ r, Tree.phrases r parts = Tree.phrases r types ++ (Tree.phrases r bases ++
      Tree.phrases r [Rule.classBody.node inner]) := fun r => by
    simp only [← hparts, Tree.phrases_append]
  constructor
  · rw [hphrases, Tree.phrases_eq_nil htypes (by decide), Tree.phrases_eq_nil hbases (by decide)]
    rfl
  · rw [hphrases, Tree.phrases_eq_nil htypes (by decide), Tree.phrases_eq_nil hbases (by decide)]
    rfl
  · have hsame : Tree.phrases .typeParameterList parts = Tree.phrases .typeParameterList types := by
      rw [hphrases, Tree.phrases_eq_nil hbases (by decide)]
      simp [Tree.phrases]
    rwa [TypeParameterSyntax.among?, Tree.partsOf_congr hsame]
  · have hsame : Tree.phrases .baseList parts = Tree.phrases .baseList bases := by
      rw [hphrases, Tree.phrases_eq_nil htypes (by decide)]
      simp [Tree.phrases]
    rwa [basesOf?_congr (by decide) hsame]
  · have hsame : Tree.phrases .classBody parts = Tree.phrases .classBody [Rule.classBody.node inner] := by
      rw [hphrases, Tree.phrases_eq_nil htypes (by decide), Tree.phrases_eq_nil hbases (by decide)]
      rfl
    rw [Member.ofBody?_eq] at hmembers ⊢
    rwa [Tree.partsOf_congr hsame]

theorem IsReadBehind.ofParts? {S : List Member → Prop} {kind parts : List Tree} {tok : Token}
    {form : TypeForm} (hparts : h.IsReadBehind source S parts)
    (hkind : ∀ t ∈ kind, t.isPhrase .recordKind) (htok : tok.terminal = .name)
    (hname : tok.text = h.name) (hkeyword : form.keyword = h.keyword) (henum : form ≠ .enumForm)
    (around : Surroundings) : ∃ d ms,
      TypeHead.ofParts? around form (kind ++ .leaf tok :: parts) = some d ∧
      Member.ofBody? source (kind ++ .leaf tok :: parts) = some ms ∧ d.Says h ∧ S ms := by
  obtain ⟨ps, hps, hnames⟩ := hparts.typeParameters
  obtain ⟨us, hus, htexts⟩ := hparts.baseTypes
  obtain ⟨ms, hms, hS⟩ := hparts.members
  generalize hall : kind ++ .leaf tok :: parts = all
  have hphrases : ∀ r, r ≠ .recordKind → Tree.phrases r all = Tree.phrases r parts := fun r hr => by
    rw [← hall, Tree.phrases_append, Tree.phrases_eq_nil hkind (Ne.symm hr)]
    rfl
  have hnamed : Tree.name? all = some tok := by
    rw [← hall, Tree.name?_append hkind, Tree.name?_leaf, if_pos htok]
  have htypes : TypeParameterSyntax.among? all = some ps := by
    rw [← hps, TypeParameterSyntax.among?, TypeParameterSyntax.among?,
      Tree.partsOf_congr (hphrases _ (by decide))]
  have hbases : TypeHead.basesOf? all form = some us :=
    (basesOf?_congr henum (hphrases _ (by decide))).trans hus
  have hclauses : ConstraintClause.among? all = some [] := by
    rw [ConstraintClause.among?, hphrases _ (by decide), hparts.constraints]
    rfl
  refine ⟨_, ms, by simp only [TypeHead.ofParts?, hnamed, htypes, hbases, hclauses, Option.bind_eq_bind,
    Option.bind_some, Option.pure_def]; rfl, ?_, ⟨hkeyword, hname, hnames, htexts⟩, hS⟩
  rw [← hms, Member.ofBody?_eq, Member.ofBody?_eq, Tree.partsOf_congr (hphrases _ (by decide))]

end PrintedHead

/-! ## Types -/

namespace Pattern

/-- The body of a class, struct or interface. -/
def typeBody : Pattern := seq (rule .classBody) (opt (token .semicolon))

/-- The body of a record, which may be missing. -/
def recordBody : Pattern := alt typeBody (token .semicolon)

/-- What stands behind the name and the parameters of a type. -/
def heritage (body : Pattern) : Pattern := seq (opt (rule .baseList)) (seq constraintClauses body)

/-- A record from its name on. -/
def recordRest : Pattern := seq (token .name) (seq (opt (rule .typeParameterList))
  (seq (opt (rule .parameterBlock)) (heritage recordBody)))

end Pattern

namespace PrintedHead

variable {h : PrintedHead} {S : List Member → Prop} {rest : List Char} {b c k : Ahead}

/-- The base type and the body of a type are read. -/
theorem takes_heritage {body : Pattern} (hbody : body = .typeBody ∨ body = .recordBody)
    (hc : Follows (.single .leftBrace) rest c) (hb : b.terminal ∈ TerminalSet.afterMember)
    {after : TerminalSet} (hafter : b.terminal ∈ after) {Q : List Tree → Prop}
    (hbases : ∀ {after : TerminalSet}, c.terminal ∈ after →
      (Pattern.opt (.rule .baseList)).Takes source after k c [] Q)
    (hclass : ∀ {after : TerminalSet}, b.terminal ∈ after → (Pattern.rule .classBody).Takes source after
      c b [] (Pattern.One .classBody fun tree => ∃ ms, Member.ofBody? source [tree] = some ms ∧ S ms)) :
    (Pattern.heritage body).Takes source after k b [] fun new => ∃ bases inner,
      new = bases ++ [Rule.classBody.node inner] ∧ Q bases ∧
        ∃ ms, Member.ofBody? source [Rule.classBody.node inner] = some ms ∧ S ms := by
  have htype : ∀ pre, Pattern.typeBody.Takes source after c b pre fun post => ∃ inner,
      post = pre ++ [Rule.classBody.node inner] ∧
        ∃ ms, Member.ofBody? source [Rule.classBody.node inner] = some ms ∧ S ms := fun pre => by
    refine .andThen (hclass (TerminalSet.mem_union.mpr (Or.inr hafter))) ?_
    rintro _ ⟨inner, hms, rfl⟩
    exact .none (TerminalSet.not_mem_of_isApart (by decide) hb) ⟨inner, rfl, hms⟩
  have hopen : ∀ {B : TerminalSet}, (TerminalSet.single .leftBrace).isWithin B → c.terminal ∈ B :=
    fun hB => TerminalSet.mem_of_isWithin hB hc.mem
  rcases hbody with rfl | rfl
  · refine .andThen (hbases (hopen (B := (Pattern.seq .constraintClauses .typeBody).first) (by decide)))
      fun bases hQ => .skip (TerminalSet.not_mem_of_isApart (by decide) hc.mem) ((htype _).weaken ?_)
    rintro _ ⟨inner, rfl, hms⟩
    exact ⟨bases, inner, rfl, hQ, hms⟩
  · refine .andThen (hbases (hopen (B := (Pattern.seq .constraintClauses .recordBody).first) (by decide)))
      fun bases hQ => .skip (TerminalSet.not_mem_of_isApart (by decide) hc.mem)
        (.left (hopen (by decide)) ((htype _).weaken ?_))
    rintro _ ⟨inner, rfl, hms⟩
    exact ⟨bases, inner, rfl, hQ, hms⟩

/-- What is read as a type from its name on. -/
def ReadsNamed (source : List Char) (h : PrintedHead) (S : List Member → Prop) (pre post : List Tree) :
    Prop :=
  ∃ tok parts, post = pre ++ .leaf tok :: parts ∧ tok.terminal = .name ∧ tok.text = h.name ∧
    h.IsReadBehind source S parts ∧ ∀ q : Rule, parts.filter (Tree.isKept q) = parts

/-- **A type is read from its name on.** -/
theorem IsLegible.takes_name (hh : h.IsLegible) {X : Pattern} (hnull : X.isNullable = false)
    (hless : .less ∉ X.first) (hfollow : X.first.isWithin Rule.typeParameterList.follow)
    (hk : Follows X.first rest k) {after : TerminalSet}
    (hX : X.Takes source after k b [] fun new => ∃ bases inner,
      new = bases ++ [Rule.classBody.node inner] ∧ ((∀ t ∈ bases, t.isPhrase .baseList) ∧
        ∃ us, TypeHead.basesOf? bases .classForm = some us ∧ us.map TypeSyntax.text = h.baseType.toList) ∧
        ∃ ms, Member.ofBody? source [Rule.classBody.node inner] = some ms ∧ S ms) :
    EndsWord ((withArguments "" h.typeParameters).toList ++ rest) ∧ ∀ pre,
      (Pattern.seq (.token .name) (.seq (.opt (.rule .typeParameterList)) X)).Takes source after
        ⟨.name, h.name.toList, (withArguments "" h.typeParameters).toList ++ rest⟩ b pre
        (h.ReadsNamed source S pre) := by
  have hadmits : X.admits after = X.first := by rw [Pattern.admits, hnull]; rfl
  have hopt : (Pattern.seq (.opt (.rule .typeParameterList)) X).admits after = .single .less ∪ X.first := by
    rw [Pattern.admits, Pattern.isNullable, hnull]
    rfl
  obtain ⟨m, hm, htypes⟩ := takes_typeParameters source h.typeParameters hh.typeParameters hk
    hless hfollow
  have hplain : (TerminalSet.single .less ∪ X.first).isPlain :=
    TerminalSet.isPlain_union (by decide) (TerminalSet.isPlain_of_isWithin hfollow (by decide))
  refine ⟨hm.endsWord, fun pre => .cons rfl (hopt ▸ hm.comes _ hplain hm.mem)
    (.andThen (hadmits ▸ htypes) ?_)⟩
  rintro types ⟨htypes, hnames⟩
  refine hX.behind.weaken ?_
  rintro _ ⟨_, ⟨bases, inner, rfl, ⟨hbases, htexts⟩, hms⟩, rfl⟩
  refine ⟨Ahead.token source _, types ++ (bases ++ [Rule.classBody.node inner]), by simp; rfl, rfl,
    by simp, isReadBehind_of_phrases htypes hbases hnames htexts hms, fun q => ?_⟩
  rw [List.filter_append, List.filter_append, Tree.filter_isKept_of_forall htypes,
    Tree.filter_isKept_of_forall hbases]
  rfl

/-- The printed type is read from its keyword on. -/
def ReadsType (source : List Char) (h : PrintedHead) (S : List Member → Prop) (tree : Tree) : Prop :=
  ∀ around, ∃ d ms, Member.ofParts? source around [tree] = some (.type d ms) ∧ d.Says h ∧ S ms

theorem ReadsNamed.readsType {pre post : List Tree} {q : Rule}
    (hpost : h.ReadsNamed source S pre post) (form : TypeForm) (kind : List Tree)
    (hpre : pre.filter (Tree.isKept q) = kind)
    (hkind : ∀ t ∈ kind, t.isPhrase .recordKind)
    (hq : q ∉ [.attributeSection, .modifier, .methodDeclaration]) (hother : MemberKind.ofRule? q = none)
    (hform : ∀ parts, Tree.phrases .recordKind parts = kind →
      TypeForm.ofParts? source parts q = some form)
    (hkeyword : form.keyword = h.keyword) (henum : form ≠ .enumForm) :
    h.ReadsType source S (q.node post) := by
  obtain ⟨tok, parts, rfl, htok, hname, hbehind, hparts⟩ := hpost
  intro around
  obtain ⟨d, ms, hd, hms, hsays, hS⟩ := hbehind.ofParts? hkind htok hname hkeyword henum around
  refine ⟨d, ms, ?_, hsays, hS⟩
  have hkept : (pre ++ .leaf tok :: parts).filter (Tree.isKept q) = kind ++ .leaf tok :: parts := by
    rw [List.filter_append, hpre, List.filter_cons_of_pos (by simp [htok, Terminal.isNamed]), hparts]
  have hkinds : Tree.phrases .recordKind (kind ++ .leaf tok :: parts) = kind := by
    rw [Tree.phrases_append, Tree.phrases_of_forall hkind, Tree.phrases_leaf, hbehind.recordKind,
      List.append_nil]
  simp only [List.mem_cons, List.not_mem_nil, or_false, not_or] at hq
  rw [Rule.node, hkept, Member.ofParts?]
  simp [hq, hother, hform _ hkinds, hd, hms]

/-- What is read as a type from its keyword on. -/
def TakesType (source : List Char) (h : PrintedHead) (S : List Member → Prop) (text : List Char) (b : Ahead) :
    Prop :=
  ∃ a, a.terminal ∈ TerminalSet.typeKinds ∧ Comes text a ∧
    ∀ {after : TerminalSet}, b.terminal ∈ after → Pattern.typeCore.Takes source after a b [] fun new =>
      ∃ q inner, new = [Rule.node q inner] ∧ q ≠ .modifier ∧ h.ReadsType source S (q.node inner)

theorem takesType_of_keyword {q : Rule} {t : Terminal} {w : String} {R : Pattern} {z : List Char}
    {m : Ahead} (hq : q ∈ [.classDeclaration, .structDeclaration, .interfaceDeclaration, .recordDeclaration])
    (hbody : q.body = .seq (.token t) R) (hfirst : q.first = .single t) (hword : (t, w) ∈ Terminal.words)
    (hm : Lexes (R.admits q.follow) (' ' :: z) m)
    (hR : R.Takes source q.follow m b [.leaf (Ahead.token source ⟨t, w.toList, ' ' :: z⟩)] fun post =>
      h.ReadsType source S (q.node post)) : TakesType source h S (w.toList ++ ' ' :: z) b := by
  have hends : ∀ e ∈ Terminal.words, e.1 ≠ .endOfInput := by decide
  have hmem : (⟨t, w.toList, ' ' :: z⟩ : Ahead).terminal ∈ q.first := by
    rw [hfirst]
    exact TerminalSet.mem_single.mpr rfl
  have hrule : ∀ {after : TerminalSet}, b.terminal ∈ after → (Pattern.rule q).Takes source after
      ⟨t, w.toList, ' ' :: z⟩ b [] fun new => ∃ q inner, new = [Rule.node q inner] ∧ q ≠ .modifier ∧
        h.ReadsType source S (q.node inner) := fun {after} hafter => by
    refine .rule ?_ hafter
    rw [hbody]
    refine .cons rfl hm (hR.weaken fun post hpost => ⟨q, post, rfl, ?_, hpost⟩) (hends _ hword)
    rintro rfl
    exact absurd hq (by decide)
  have hkinds : ∀ r ∈ [Rule.classDeclaration, .structDeclaration, .interfaceDeclaration,
      .recordDeclaration], r.first.isWithin .typeKinds := by decide
  refine ⟨_, TerminalSet.mem_of_isWithin (hkinds q hq) hmem, comes_word hword (endsWord_cons (by decide) z),
    fun {after} hafter => ?_⟩
  have hother : ∀ p : Pattern, q.first.isApart p.first →
      (⟨t, w.toList, ' ' :: z⟩ : Ahead).terminal ∉ p.first :=
    fun p hp => TerminalSet.not_mem_of_isApart hp hmem
  simp only [List.mem_cons, List.not_mem_nil, or_false] at hq
  rcases hq with rfl | rfl | rfl | rfl
  · exact .left hmem (hrule hafter)
  · exact .right (hother _ (by decide)) (.left hmem (hrule hafter))
  · exact .right (hother _ (by decide)) (.right (hother _ (by decide)) (.left hmem (hrule hafter)))
  · exact .right (hother _ (by decide)) (.right (hother _ (by decide)) (.right (hother _ (by decide))
      (.left hmem (hrule hafter))))

section

variable {z : List Char} (hname : Named h.name) (hends : EndsWord z)
  (hbehind : ∀ pre, Pattern.recordRest.Takes source Rule.recordDeclaration.follow
    ⟨.name, h.name.toList, z⟩ b pre (h.ReadsNamed source S pre))

include hname hends hbehind

theorem takesType_record (hkeyword : h.keyword = "record")
    (hclear : ReadsAsName (Rule.recordKind.first ∪ .single .name) h.name) :
    TakesType source h S ("record".toList ++ ' ' :: (h.name.toList ++ z)) b := by
  have hlexes : Lexes (Rule.recordKind.first ∪ .single .name) (' ' :: (h.name.toList ++ z))
      ⟨.name, h.name.toList, z⟩ :=
    lexes_name (by decide) (by decide) hname hclear (show isGap [' '] from rfl) hends
  refine takesType_of_keyword (q := .recordDeclaration) (by decide) rfl rfl (by decide) hlexes
    (.skip (show Terminal.name ∉ _ by decide) ((hbehind _).weaken fun post hpost =>
      hpost.readsType (.recordForm false) [] rfl (by simp) (by decide) rfl (fun parts hparts => ?_)
        hkeyword.symm (by decide)))
  have hsame : Tree.phrases .recordKind parts = Tree.phrases .recordKind [] := hparts
  rw [TypeForm.ofParts?, Tree.partsOf_congr hsame]
  rfl

theorem takesType_recordStruct (hkeyword : h.keyword = "record struct") :
    TakesType source h S ("record struct".toList ++ ' ' :: (h.name.toList ++ z)) b := by
  have hstruct : Lexes (Rule.recordKind.first ∪ .single .name)
      (' ' :: ("struct".toList ++ ' ' :: (h.name.toList ++ z)))
      ⟨.structKw, "struct".toList, ' ' :: (h.name.toList ++ z)⟩ :=
    lexes_word (t := .structKw) (w := "struct") (by decide) (by decide) (by decide)
      (show isGap [' '] from rfl) (endsWord_cons (by decide) _)
  have hlexes : Lexes (.single .name) (' ' :: (h.name.toList ++ z)) ⟨.name, h.name.toList, z⟩ :=
    lexes_name (by decide) (by decide) hname (readsAsName_single _) (show isGap [' '] from rfl) hends
  refine takesType_of_keyword (q := .recordDeclaration) (w := "record") (by decide) rfl rfl (by decide)
    hstruct (.andThen (.some (show Terminal.structKw ∈ _ by decide) (.one
      (T := fun tree => ∃ tok, tree = Rule.recordKind.node [.leaf tok] ∧ tok.text = "struct")
      (.oneOf (show Terminal.structKw ∈ _ by decide) hlexes ⟨_, rfl, by simp⟩)
      (show Terminal.name ∈ _ by decide))) ?_)
  rintro _ ⟨inner, ⟨tok, hkind, htok⟩, rfl⟩
  refine (hbehind _).weaken fun post hpost => hpost.readsType (.recordForm true)
    [Rule.recordKind.node inner] rfl (by simp) (by decide) rfl (fun parts hparts => ?_) hkeyword.symm
    (by decide)
  have hwords : Tree.words (Tree.partsOf .recordKind parts) = ["struct"] := by
    rw [Tree.partsOf, Tree.phrase?_eq_head?, hparts, hkind, Rule.node, Tree.filter_isKept rfl,
      List.head?_cons]
    simp [Tree.words, htok]
  simp [TypeForm.ofParts?, hwords]

end

/-- **A type is read from its keyword on.** -/
theorem IsLegible.takesType (hh : h.IsLegible) (hc : Follows (.single .leftBrace) rest c)
    (hb : b.terminal ∈ TerminalSet.afterMember)
    (hclass : ∀ {after : TerminalSet}, b.terminal ∈ after → (Pattern.rule .classBody).Takes source after
      c b [] (Pattern.One .classBody fun tree => ∃ ms, Member.ofBody? source [tree] = some ms ∧ S ms)) :
    TakesType source h S (h.text ++ rest) b := by
  obtain ⟨k, hk, hbases⟩ := hh.takes_base source hc
  have hmember : ∀ {B : TerminalSet}, TerminalSet.afterMember.isWithin B → b.terminal ∈ B :=
    fun hB => TerminalSet.mem_of_isWithin hB hb
  have hblock : k.terminal ∉ Rule.parameterBlock.first := TerminalSet.not_mem_of_isApart (by decide) hk.mem
  -- Only the interfaces have no place for parameters, and only the records can do without a body.
  obtain ⟨hends, hclassName⟩ := hh.takes_name
    (X := .seq (.opt (.rule .parameterBlock)) (.heritage .typeBody)) rfl (by decide) (by decide)
    (hk.mono (by decide)) (.skip hblock (takes_heritage (Or.inl rfl) hc hb
      (hmember (show TerminalSet.afterMember.isWithin Rule.classDeclaration.follow by decide))
      hbases hclass))
  have hinterfaceName := (hh.takes_name (X := .heritage .typeBody) rfl (by decide) (by decide)
    (hk.mono (by decide)) (takes_heritage (Or.inl rfl) hc hb
      (hmember (show TerminalSet.afterMember.isWithin Rule.interfaceDeclaration.follow by decide))
      hbases hclass)).2
  have hrecordName := (hh.takes_name
    (X := .seq (.opt (.rule .parameterBlock)) (.heritage .recordBody)) rfl (by decide) (by decide)
    (hk.mono (by decide)) (.skip hblock (takes_heritage (Or.inr rfl) hc hb
      (hmember (show TerminalSet.afterMember.isWithin Rule.recordDeclaration.follow by decide))
      hbases hclass))).2
  generalize hz : (withArguments "" h.typeParameters).toList ++ (h.baseText ++ rest) = z at *
  have htext : h.text ++ rest = h.keyword.toList ++ ' ' :: (h.name.toList ++ z) := by
    have harguments : (withArguments h.name h.typeParameters).toList =
        h.name.toList ++ (withArguments "" h.typeParameters).toList := by
      unfold withArguments
      split_ifs <;> simp
    simp [text, ← hz, harguments]
  have hname : Lexes (.single .name) (' ' :: (h.name.toList ++ z)) ⟨.name, h.name.toList, z⟩ :=
    lexes_name (by decide) (by decide) hh.name (readsAsName_single _) (show isGap [' '] from rfl) hends
  have hnone : ∀ t ∈ ([] : List Tree), t.isPhrase .recordKind := by simp
  have hkeywords := hh.keyword
  simp only [bodyWords, List.mem_cons, List.not_mem_nil, or_false] at hkeywords
  rw [htext]
  rcases hkeywords with hkeyword | hkeyword | hkeyword | hkeyword | hkeyword <;> rw [hkeyword]
  · exact takesType_of_keyword (q := .classDeclaration) (by decide) rfl rfl (by decide) hname
      ((hclassName _).weaken fun post hpost => hpost.readsType .classForm [] rfl hnone
        (by decide) rfl (fun _ _ => rfl) hkeyword.symm (by decide))
  · exact takesType_of_keyword (q := .structDeclaration) (by decide) rfl rfl (by decide) hname
      ((hclassName _).weaken fun post hpost => hpost.readsType .structForm [] rfl hnone
        (by decide) rfl (fun _ _ => rfl) hkeyword.symm (by decide))
  · exact takesType_of_keyword (q := .interfaceDeclaration) (by decide) rfl rfl (by decide) hname
      ((hinterfaceName _).weaken fun post hpost => hpost.readsType .interfaceForm [] rfl hnone
        (by decide) rfl (fun _ _ => rfl) hkeyword.symm (by decide))
  · exact takesType_record hh.name hends hrecordName hkeyword (hh.clear hkeyword)
  · exact takesType_recordStruct hh.name hends hrecordName hkeyword

end PrintedHead

/-- What is read as a type is read with its modifiers, as a member or in a namespace. -/
theorem accepts_modified {r : Rule} (hr : r = .member ∨ r = .typeDeclaration) {h : PrintedHead}
    {S : List Member → Prop} {ws : List (Terminal × String)} (hne : ws ≠ [])
    (hws : ∀ e ∈ ws, e ∈ Terminal.words ∧ e.1 ∈ Rule.modifier.first) {after : TerminalSet}
    {text : List Char}
    (htype : ∀ rest b, Follows after rest b → h.TakesType source S (text ++ rest) b)
    (hafter : after.isWithin r.follow) :
    r.Accepts source (fun _ => True) (Follows after)
      (ws.flatMap (fun e => e.2.toList ++ [' ']) ++ text) fun tree => ∃ d ms,
        Member.ofTree? source tree = some (.type d ms) ∧ d.Says h ∧ S ms := by
  intro rest b hb
  obtain ⟨core, hbody, hnull, hkinds, hfollow, hcore⟩ : ∃ core : Pattern,
      r.body = .seq .attributes (.seq .modifiers core) ∧ core.isNullable = false ∧
        TerminalSet.typeKinds.isWithin core.first ∧ core.first.isWithin Rule.modifier.follow ∧
        ∀ {after a b pre Q}, a.terminal ∈ TerminalSet.typeKinds →
          Pattern.typeCore.Takes source after a b pre Q → core.Takes source after a b pre Q := by
    rcases hr with rfl | rfl
    · exact ⟨.memberCore, rfl, rfl, by decide, by decide, fun ha h =>
        .left (TerminalSet.mem_of_isWithin (by decide) ha) h⟩
    · exact ⟨.typeCore, rfl, rfl, by decide, by decide, fun _ h => h⟩
  have hadmits : core.admits r.follow = core.first := by rw [Pattern.admits, hnull]; rfl
  obtain ⟨t, ht, hcomes, htakes⟩ := htype rest b hb
  obtain ⟨a, -, hfirst, hwords⟩ := takes_words source (r := .modifier) rfl rfl
    (by decide) (by decide) (by decide) (by decide) ws hws
    (hcomes _ (by decide) (TerminalSet.mem_of_isWithin (by decide) ht))
    (TerminalSet.mem_of_isWithin hkinds ht) hfollow (TerminalSet.not_mem_of_isApart (by decide) ht)
  obtain ⟨hafirst, hacomes⟩ := (hfirst.resolve_left fun h => hne h.1).2
  have hmodifiers : Rule.modifier.first.isWithin r.first := by rcases hr with rfl | rfl <;> decide
  refine ⟨a, TerminalSet.mem_of_isWithin hmodifiers hafirst, fun B gap hB hmem _ hgap => ?_,
    fun after' hafter' => .one ?_ hafter'⟩
  · simpa using (hacomes B hB hmem).gap hgap
  rw [hbody]
  refine .skip (TerminalSet.not_mem_of_isApart (by decide) hafirst) (.andThen (hadmits ▸ hwords) ?_)
  rintro mods ⟨hmods, hphrases⟩
  refine (hcore ht (htakes (TerminalSet.mem_of_isWithin hafter hb.mem))).behind.weaken ?_
  rintro _ ⟨_, ⟨q, inner, rfl, hq, hread⟩, rfl⟩
  obtain ⟨around, -, htree⟩ := Member.ofTree?_eq source hr inner hphrases hmods hq
  obtain ⟨d, ms, hd, hsays⟩ := hread around
  exact ⟨d, ms, by rw [List.nil_append, htree, hd], hsays⟩

end Facade
