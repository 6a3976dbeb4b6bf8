import Facade.Proofs.Generation.ReadSignature
import Facade.Proofs.Grammar.BlockText

/-!
# Methods are read as they are printed

A method is printed with its return type first, as are the other members that begin with a type. What
stands behind the name tells them apart.

* `ReadsBody`, `Inert`: texts that are read as bodies, and texts that neither open nor close anything;
* `OpensWithSign`: texts of types that begin with a sign;
* `takes_typedMember`: a member that begins with a type is read if what follows the type is;
* `ForwardedMethod.IsLegible`: methods whose names are read as names;
* **`ForwardedMethod.IsLegible.accepts`**: a method is read as a member.
-/

namespace Facade

open Text Scan

variable {source : List Char}

/-! ## The bodies of methods -/

/-- The text is read as a body before every text with which the members of a type can go on. -/
def ReadsBody (source body : List Char) : Prop :=
  ∀ rest b, Follows .afterMember rest b → ∃ a,
    Follows (.ofList [.leftBrace, .semicolon]) (body ++ rest) a ∧
    (Pattern.rule .memberBody).Takes source .afterMember a b []
      (Pattern.One .memberBody fun _ => True)

theorem readsBody_semicolon : ReadsBody source [';'] := fun rest b hb =>
  ⟨⟨.semicolon, [';'], rest⟩, .sign (by decide) (by decide) rest, .one
    (.right (show Terminal.semicolon ∉ _ by decide) (.right (show Terminal.semicolon ∉ _ by decide)
      (.token rfl (hb.lexes (by decide) (by decide)) trivial))) hb.mem⟩

theorem readsBody_block {gap text : List Char} (hgap : isGap gap) (htext : BracesBalanced text)
    (hlayout : ∀ c ∈ text, isBlank c → isLayout c) :
    ReadsBody source (gap ++ '\x7b' :: (text ++ ['\x7d'])) := fun rest b hb => by
  obtain ⟨m, hlexes, hreads⟩ := Pattern.exists_readsItems source htext hlayout rest
  refine ⟨⟨.leftBrace, ['\x7b'], text ++ '\x7d' :: rest⟩, ?_, .one (.left
    (show Terminal.leftBrace ∈ _ by decide)
    (.rule ?_ (TerminalSet.mem_of_isWithin (by decide) hb.mem))) hb.mem⟩
  · simpa using (Follows.sign (t := .leftBrace) (c := '\x7b') (by decide) (by decide)
      (text ++ '\x7d' :: rest)).gap hgap
  · exact (hreads.braces hlexes (hb.lexes (by decide) (by decide))).weaken fun _ _ => trivial

theorem isBlank_of_isWord {c : Char} (h : isWord c = true) : isBlank c = false := by
  have hranges : ∀ n ∈ [0x85, 0xA0, 0x1680, 0x2000, 0x2001, 0x2002, 0x2003, 0x2004, 0x2005, 0x2006,
      0x2007, 0x2008, 0x2009, 0x200A, 0x2028, 0x2029, 0x202F, 0x205F, 0x3000],
      (wordRanges.any fun r => r.1 ≤ n && n ≤ r.2) = false := by decide +kernel
  have hascii : ∀ n ∈ [9, 10, 11, 12, 13, 28, 29, 30, 31, 32], isWord (Char.ofNat n) = false := by
    decide
  by_contra hblank
  simp only [isBlank, Bool.not_eq_false, Bool.or_eq_true, Bool.and_eq_true, decide_eq_true_eq,
    beq_iff_eq] at hblank
  by_cases hsmall : c.toNat < 128
  · have hmem : c.toNat ∈ [9, 10, 11, 12, 13, 28, 29, 30, 31, 32] := by
      simp only [List.mem_cons, List.not_mem_nil, or_false]
      omega
    have hnot := hascii _ hmem
    rw [Char.ofNat_toNat, h] at hnot
    cases hnot
  · rw [isWord, if_neg hsmall] at h
    rw [hranges c.toNat (by simp only [List.mem_cons, List.not_mem_nil, or_false]; omega)] at h
    cases h

/-- Text that opens and closes nothing, all white space of which may stand between tokens. -/
structure Inert (text : List Char) : Prop where
  balanced : ∀ cs, BracesBalanced cs → BracesBalanced (text ++ cs)
  layout : ∀ c ∈ text, isBlank c → isLayout c

namespace Inert

theorem append {u v : List Char} (hu : Inert u) (hv : Inert v) : Inert (u ++ v) where
  balanced cs hcs := by
    rw [List.append_assoc]
    exact hu.balanced _ (hv.balanced _ hcs)
  layout c hc := (List.mem_append.mp hc).elim (hu.layout c) (hv.layout c)

theorem plain {w : List Char} (hw : (w.all fun c => c ∉ ['"', '\'', '\x7b', '\x7d', '/', '@'] &&
    (!isBlank c || isLayout c)) = true) : Inert w where
  balanced cs hcs := .plain (List.all_eq_true.mpr fun c hc =>
    ((Bool.and_eq_true _ _).mp (List.all_eq_true.mp hw c hc)).1) hcs
  layout c hc hblank := by
    have hlayout := ((Bool.and_eq_true _ _).mp (List.all_eq_true.mp hw c hc)).2
    rw [hblank] at hlayout
    simpa using hlayout

theorem isPlainName {n : List Char} (hn : IsPlainName n) : Inert n :=
  plain (List.all_eq_true.mpr fun c hc => by
    have hword := isWord_of_mem_isPlainName hn c hc
    have hne : ∀ d : Char, isWord d = false → c ≠ d := by
      rintro d hd rfl
      rw [hd] at hword
      cases hword
    rw [isBlank_of_isWord hword]
    simp only [List.mem_cons, List.not_mem_nil, or_false, not_or, Bool.not_false, Bool.true_or,
      Bool.and_true, decide_eq_true_eq]
    exact ⟨hne _ (by decide), hne _ (by decide), hne _ (by decide), hne _ (by decide),
      hne _ (by decide), hne _ (by decide)⟩)

theorem named {n : String} (hn : Named n) : Inert n.toList := by
  rcases hn with hn | ⟨n, htext, hn⟩
  · exact isPlainName hn
  · rw [htext]
    refine ⟨fun cs hcs => .char ⟨by decide, by decide, fun h => absurd h (by decide), fun _ => ?_⟩
      ((isPlainName hn).balanced cs hcs), List.forall_mem_cons.mpr ⟨by decide, (isPlainName hn).layout⟩⟩
    cases n with
    | nil => cases hn
    | cons c n => simpa using ne_of_isNameStart hn.1 (show isWord '"' = false by decide)

theorem intercalate {sep : List Char} (hsep : Inert sep) {ws : List (List Char)}
    (hws : ∀ w ∈ ws, Inert w) : Inert (sep.intercalate ws) := by
  induction ws with
  | nil => exact plain (w := []) rfl
  | cons w ws ih =>
    have hw := hws w List.mem_cons_self
    have hmore := ih fun v hv => hws v (List.mem_cons_of_mem _ hv)
    cases ws with
    | nil => simpa using hw
    | cons v ws =>
      rw [List.intercalate_cons_cons]
      exact (hw.append hsep).append hmore

end Inert

/-! ## Members that begin with a type -/

namespace TypeSyntax

/-- The text begins with a word of the language that names a type, or with a parenthesis. -/
def OpensWithSign (text : List Char) : Prop :=
  (∃ t w tail, (t, w) ∈ Terminal.words ∧ t ∈ TerminalSet.typeStart ∧ text = w.toList ++ tail ∧
    EndsWord tail) ∨ ∃ tail, text = '(' :: tail

theorem OpensWithSign.append {text : List Char} (h : OpensWithSign text) {suffix : List Char}
    (hsuffix : EndsWord suffix) : OpensWithSign (text ++ suffix) := by
  rcases h with ⟨t, w, tail, hmem, ht, rfl, htail⟩ | ⟨tail, rfl⟩
  · refine Or.inl ⟨t, w, tail ++ suffix, hmem, ht, by simp, ?_⟩
    cases tail with
    | nil => exact hsuffix
    | cons c tail => exact htail
  · exact Or.inr ⟨_, rfl⟩

theorem opensWithSign {t : TypeSyntax} (ht : t.IsWritten) (hfirst : t.firstName? = none) :
    OpensWithSign t.text.toList := by
  induction ht with
  | @predefined k hk =>
    have hwords : ∀ k ∈ predefinedWords, ∃ e ∈ Terminal.words, e.2 = k ∧ e.1 ∈ TerminalSet.typeStart := by
      decide
    obtain ⟨⟨t, w⟩, hmem, rfl, ht⟩ := hwords k hk
    exact Or.inl ⟨t, w, [], hmem, ht, by simp [text], by simp [EndsWord]⟩
  | @named isGlobal parts hne _ _ =>
    obtain ⟨q, qs, rfl⟩ := List.exists_cons_of_ne_nil hne
    cases isGlobal with
    | false => cases hfirst
    | true =>
      refine Or.inl ⟨.globalKw, "global", ':' :: ':' :: (q.text.toList ++
        qs.flatMap fun p => '.' :: p.text.toList), by decide, by decide, ?_,
        endsWord_cons (by decide) _⟩
      rw [toList_text_named]
      rfl
  | @array e rank _ _ ih =>
    have htext := TypeSuffix.toList_text_apply (.array rank) e
    rw [TypeSuffix.apply] at htext
    rw [htext]
    refine (ih (by rwa [firstName?] at hfirst)).append ?_
    simp [TypeSuffix.text, arrayBrackets, EndsWord]
    decide
  | @nullable e _ ih =>
    have htext := TypeSuffix.toList_text_apply .nullable e
    rw [TypeSuffix.apply] at htext
    rw [htext]
    exact (ih (by rwa [firstName?] at hfirst)).append (endsWord_cons (by decide) [])
  | @pointer e _ ih =>
    have htext := TypeSuffix.toList_text_apply .pointer e
    rw [TypeSuffix.apply] at htext
    rw [htext]
    exact (ih (by rwa [firstName?] at hfirst)).append (endsWord_cons (by decide) [])
  | @tuple es hlength _ _ _ =>
    rcases es with _ | ⟨e, _ | ⟨f, es⟩⟩
    · cases hlength
    · simp at hlength
    · exact Or.inr ⟨_, toList_text_tuple e f es⟩

theorem OpensWithSign.ne_name {text rest : List Char} (h : OpensWithSign text) (hrest : EndsWord rest)
    {a : Ahead} (ha : Lexes .typeStart (text ++ rest) a) : a.terminal ≠ .name := by
  rcases h with ⟨t, w, tail, hmem, ht, rfl, htail⟩ | ⟨tail, rfl⟩
  · have hends : EndsWord (tail ++ rest) := by
      cases tail with
      | nil => exact hrest
      | cons c tail => exact htail
    rw [List.append_assoc] at ha
    obtain rfl := ha.unique (comes_word hmem hends _ (by decide) ht)
    have hwords : ∀ e ∈ Terminal.words, e.1 ≠ .name := by decide
    exact hwords _ hmem
  · obtain rfl := ha.unique
      (comes_sign (show (Terminal.leftParen, '(') ∈ _ by decide) (tail ++ rest) _ (by decide)
        (show Terminal.leftParen ∈ TerminalSet.typeStart by decide))
    exact (show Terminal.leftParen ≠ .name by decide)

end TypeSyntax

/-- What a member is after its attributes and modifiers. -/
def Pattern.memberCore : Pattern := .any .typeCore [.rule .destructorDeclaration,
  .rule .conversionDeclaration, .seq (.token .name) .memberAfterName,
  .seq (.rule .type) .afterMemberType]

/-- **A member that begins with a type is read** if what follows the type is. The type may begin with a
name, and then it is read only after that name. -/
theorem takes_typedMember {text : String} (h : LegibleType Rule.modifier.follow text)
    {rest : List Char} {b : Ahead} (hb : TypeEnds (.single .name) rest b) : ∃ a,
      a.terminal ∈ TerminalSet.typeStart ∧
      (∀ gap, isGap gap → Lexes Rule.modifier.follow (gap ++ (text.toList ++ rest)) a) ∧
      ∀ {after : TerminalSet} {c : Ahead} {pre : List Tree} {Q : List Tree → Prop},
        (∀ inner u, TypeSyntax.ofTree? (Rule.type.node inner) = some u → u.text = text →
          Pattern.afterMemberType.Takes source after b c (pre ++ [Rule.type.node inner]) Q) →
        Pattern.memberCore.Takes source after a c pre Q := by
  obtain ⟨u, hwritten, hreadable, hclear, rfl⟩ := h
  have hread : u.IsRead source [] := TypeSyntax.isRead hwritten hreadable [] (by simp)
  have hname : b.terminal = .name := TerminalSet.mem_single.mp hb.mem
  cases hfirst : u.firstName? with
  | none =>
    obtain ⟨a, ha, hlexes, htakes⟩ := hread.accepts rest b (hb.mono (by decide))
    simp only [List.flatMap_nil, List.append_nil, List.foldl_nil] at hlexes htakes
    have hclear' : ∀ B, u.IsClear B := fun B n hn => by rw [hfirst] at hn; cases hn
    have hne : a.terminal ≠ .name := (TypeSyntax.opensWithSign hwritten hfirst).ne_name hb.endsWord
      (by simpa using hlexes .typeStart [] (by decide) ha (hclear' _) rfl)
    refine ⟨a, ha, fun gap hgap => hlexes _ gap (by decide) (TerminalSet.mem_of_isWithin (by decide) ha)
      (hclear' _) hgap, fun {after c pre Q} hmore => ?_⟩
    have hapart : ∀ p : Pattern, Rule.type.first.isApart p.first → a.terminal ∉ p.first :=
      fun p hp => TerminalSet.not_mem_of_isApart hp ha
    refine .right (hapart _ (by decide)) (.right (hapart _ (by decide)) (.right (hapart _ (by decide))
      (.right (fun hmem => hne (TerminalSet.mem_single.mp hmem)) (.andThen (htakes _ ?_) ?_))))
    · rw [hname]
      exact (show Terminal.name ∈ Pattern.afterMemberType.first by decide)
    · rintro _ ⟨inner, htree, rfl⟩
      exact hmore inner u htree rfl
  | some n =>
    obtain ⟨hn, tail, htext, hgoes⟩ := hread.goesOn n hfirst
    obtain ⟨m, hm, hmb, htakes⟩ := hgoes rest b (hb.mono (by decide))
    simp only [List.flatMap_nil, List.append_nil, List.foldl_nil] at hm htakes
    refine ⟨⟨.name, n.toList, tail ++ rest⟩, (show Terminal.name ∈ _ by decide), fun gap hgap => ?_,
      fun {after c pre Q} hmore => ?_⟩
    · rw [htext, List.append_assoc]
      exact lexes_name (by decide) (by decide) hn (hclear n hfirst) hgap hm.endsWord
    · have hmem : m.terminal ∈ Pattern.memberAfterName.first ∧ m.terminal ≠ .leftParen := by
        rcases hmb with rfl | hmb
        · rw [hname]
          decide
        · exact ⟨TerminalSet.mem_of_isWithin (by decide) hmb,
            fun hparen => absurd (hparen ▸ hmb) (by decide)⟩
      have hnext : Lexes Pattern.memberAfterName.first (tail ++ rest) m :=
        hm.lexes_of (by decide) hmem.1
      refine .right (show Terminal.name ∉ _ by decide) (.right (show Terminal.name ∉ _ by decide)
        (.right (show Terminal.name ∉ _ by decide) (.left (show Terminal.name ∈ _ by decide)
          (.cons rfl hnext (.right (fun h => hmem.2 (TerminalSet.mem_single.mp h))
            (.seq (.frame (htakes _ _ rfl (by simp) ?_)) ?_))))))
      · rw [hname]
        exact (show Terminal.name ∈ Pattern.afterMemberType.first by decide)
      · rintro _ ⟨_, ⟨inner, htree, rfl⟩, rfl⟩
        exact hmore inner u htree rfl

/-! ## Methods -/

/-- The declared method is the forwarded one. -/
structure MethodDeclaration.Says (d : MethodDeclaration) (m : ForwardedMethod) : Prop where
  name : d.name = m.name
  returnType : d.returnType.text = m.returnType
  parameters : List.Forall₂ ParameterSyntax.Says d.parameters m.parameters
  typeParameters : d.typeParameters.map TypeParameterSyntax.name = m.typeParameters
  constraints : d.constraints.map ConstraintClause.text = m.constraintClauses

namespace ForwardedMethod

/-- The method is read as it is declared. -/
structure IsLegible (m : ForwardedMethod) : Prop where
  returnType : LegibleType Rule.modifier.follow m.returnType
  name : Named m.name
  clear : ReadsAsName .nameEnd m.name
  parameters : ∀ q ∈ m.parameters, q.IsLegible
  typeParameters : ∀ n ∈ m.typeParameters, Named n ∧ ReadsAsName Rule.typeParameter.first n
  constraintClauses : ∀ c ∈ m.constraintClauses, LegibleClause c

/-- What stands between the name of a method and its body. -/
def parts (m : ForwardedMethod) : List Char :=
  m.genericSuffix.toList ++
    ('(' :: ((commaSeparated (m.parameters.map ForwardedParameter.declaration)).toList ++
      ')' :: m.constraintClauses.flatMap fun c => ' ' :: c.toList))

/-- The phrases behind the name of the method. -/
structure IsReadBehind (source : List Char) (m : ForwardedMethod) (parts : List Tree) : Prop where
  type : Tree.phrases .type parts = []
  memberName : Tree.phrases .memberName parts = []
  parameters : ∃ ps, ParameterSyntax.among? source parts = some ps ∧
    List.Forall₂ ParameterSyntax.Says ps m.parameters
  typeParameters : ∃ ps, TypeParameterSyntax.among? parts = some ps ∧
    ps.map TypeParameterSyntax.name = m.typeParameters
  constraints : ∃ cs, ConstraintClause.among? parts = some cs ∧
    cs.map ConstraintClause.text = m.constraintClauses

variable {m : ForwardedMethod} {rest : List Char} {b k : Ahead}

theorem isReadBehind_of_phrases {types lists clauses body : List Tree}
    (htypes : ∀ t ∈ types, t.isPhrase .typeParameterList)
    (hlists : ∀ t ∈ lists, t.isPhrase .parameterList)
    (hclauses : ∀ t ∈ clauses, t.isPhrase .constraintClause)
    (hparameters : ∃ ps, ParameterSyntax.among? source lists = some ps ∧
      List.Forall₂ ParameterSyntax.Says ps m.parameters)
    (htypeParameters : ∃ ps, TypeParameterSyntax.among? types = some ps ∧
      ps.map TypeParameterSyntax.name = m.typeParameters)
    (hconstraints : ∃ cs, ConstraintClause.among? clauses = some cs ∧
      cs.map ConstraintClause.text = m.constraintClauses) :
    m.IsReadBehind source (types ++ (lists ++ (clauses ++ [Rule.memberBody.node body]))) := by
  generalize hparts : types ++ (lists ++ (clauses ++ [Rule.memberBody.node body])) = parts
  have hphrases : ∀ r, Tree.phrases r parts = Tree.phrases r types ++ (Tree.phrases r lists ++
      (Tree.phrases r clauses ++ Tree.phrases r [Rule.memberBody.node body])) := fun r => by
    simp only [← hparts, Tree.phrases_append]
  have hno : ∀ {r : Rule}, r ∉ [.typeParameterList, .parameterList, .constraintClause, .memberBody] →
      Tree.phrases r parts = [] := fun {r} hr => by
    simp only [List.mem_cons, List.not_mem_nil, or_false, not_or] at hr
    rw [hphrases, Tree.phrases_eq_nil htypes (Ne.symm hr.1), Tree.phrases_eq_nil hlists (Ne.symm hr.2.1),
      Tree.phrases_eq_nil hclauses (Ne.symm hr.2.2.1), Tree.phrases_phrase, if_neg (Ne.symm hr.2.2.2)]
    rfl
  refine ⟨hno (by decide), hno (by decide), ?_, ?_, ?_⟩
  · have hsame : Tree.phrases .parameterList parts = Tree.phrases .parameterList lists := by
      rw [hphrases, Tree.phrases_eq_nil htypes (by decide), Tree.phrases_eq_nil hclauses (by decide)]
      simp [Tree.phrases]
    rwa [ParameterSyntax.among?, Tree.partsOf_congr hsame]
  · have hsame : Tree.phrases .typeParameterList parts = Tree.phrases .typeParameterList types := by
      rw [hphrases, Tree.phrases_eq_nil hlists (by decide), Tree.phrases_eq_nil hclauses (by decide)]
      simp [Tree.phrases]
    rwa [TypeParameterSyntax.among?, Tree.partsOf_congr hsame]
  · rw [ConstraintClause.among?] at hconstraints ⊢
    have hsame : Tree.phrases .constraintClause parts = Tree.phrases .constraintClause clauses := by
      rw [hphrases, Tree.phrases_eq_nil htypes (by decide), Tree.phrases_eq_nil hlists (by decide)]
      simp [Tree.phrases]
    rwa [hsame]

/-- **All that follows the name of a method is read.** -/
theorem IsLegible.takes_parts (hm : m.IsLegible)
    (hk : Follows (.ofList [.leftBrace, .semicolon]) rest k)
    (hbody : (Pattern.rule .memberBody).Takes source .afterMember k b []
      (Pattern.One .memberBody fun _ => True)) : ∃ a,
      Follows (.ofList [.less, .leftParen]) (m.parts ++ rest) a ∧
      (Pattern.all (.opt (.rule .typeParameterList)) [.parameters, .constraintClauses,
        .rule .memberBody]).Takes source .afterMember a b [] fun new =>
          m.IsReadBehind source (new.filter (Tree.isKept .methodDeclaration)) := by
  have hbodyFirst : k.terminal ∈ Rule.memberBody.first := TerminalSet.mem_of_isWithin (by decide) hk.mem
  obtain ⟨k₁, hk₁, hclauses⟩ :=
    takes_constraintClauses source m.constraintClauses hm.constraintClauses hk hbodyFirst
  have hparameters := takes_parameters source m.parameters hm.parameters (hk₁.lexes
    (B := (Pattern.seq .constraintClauses (.rule .memberBody)).first) (by decide) (by decide))
  have hopen : ∀ cs, Follows (.single .leftParen) ('(' :: cs) ⟨.leftParen, ['('], cs⟩ := fun cs =>
    .sign (by decide) (by decide) cs
  obtain ⟨a, ha, htypes⟩ := takes_typeParameters source m.typeParameters hm.typeParameters
    (hopen ((commaSeparated (m.parameters.map ForwardedParameter.declaration)).toList ++
      ')' :: (m.constraintClauses.flatMap (fun c => ' ' :: c.toList) ++ rest)))
    (by decide) (by decide)
  refine ⟨a, ?_, .andThen htypes ?_⟩
  · simpa [parts, genericSuffix] using ha.mono (by decide)
  rintro types ⟨htypes, hnames⟩
  refine .andThen hparameters ?_
  rintro _ ⟨lists, hkept, hlists, hparameters⟩
  refine .andThen hclauses ?_
  rintro clauses ⟨hclauses, hconstraints⟩
  refine hbody.behind.weaken ?_
  rintro _ ⟨_, ⟨body, -, rfl⟩, rfl⟩
  simp only [List.nil_append, List.filter_append, hkept, Tree.filter_isKept_of_forall htypes,
    Tree.filter_isKept_of_forall hclauses, List.append_assoc]
  exact isReadBehind_of_phrases htypes hlists hclauses hparameters hnames hconstraints

theorem IsReadBehind.ofParts? {parts inner : List Tree} {u : TypeSyntax} {tok : Token}
    (h : m.IsReadBehind source parts) (hu : TypeSyntax.ofTree? (Rule.type.node inner) = some u)
    (hreturn : u.text = m.returnType) (htok : tok.terminal = .name) (hname : tok.text = m.name)
    (around : Surroundings) : ∃ d, MethodDeclaration.ofParts? source around
      (Rule.type.node inner :: Rule.memberName.node [.leaf tok] :: parts) = some d ∧ d.Says m := by
  obtain ⟨ps, hps, hsays⟩ := h.parameters
  obtain ⟨ts, hts, hnames⟩ := h.typeParameters
  obtain ⟨cs, hcs, htexts⟩ := h.constraints
  generalize hall : Rule.type.node inner :: Rule.memberName.node [.leaf tok] :: parts = all
  have hphrases : ∀ r, r ≠ .type → r ≠ .memberName → Tree.phrases r all = Tree.phrases r parts :=
    fun r htype hmember => by simp [← hall, Ne.symm htype, Ne.symm hmember]
  have hmemberName : Tree.phrase? .memberName all = some (Rule.memberName.node [.leaf tok]) := by
    simp [Tree.phrase?_eq_head?, ← hall]
  have htype : TypeSyntax.among? all = some u := by
    simp [TypeSyntax.among?, Tree.phrase?_eq_head?, ← hall, hu]
  have hparameters : ParameterSyntax.among? source all = some ps := by
    rw [← hps, ParameterSyntax.among?, ParameterSyntax.among?,
      Tree.partsOf_congr (hphrases _ (by decide) (by decide))]
  have htypes : TypeParameterSyntax.among? all = some ts := by
    rw [← hts, TypeParameterSyntax.among?, TypeParameterSyntax.among?,
      Tree.partsOf_congr (hphrases _ (by decide) (by decide))]
  have hclauses : ConstraintClause.among? all = some cs := by
    rw [← hcs, ConstraintClause.among?, ConstraintClause.among?, hphrases _ (by decide) (by decide)]
  have hdotted : Tree.dottedName (Tree.partsOf .memberName all) = m.name := by
    rw [Tree.partsOf, hmemberName, Rule.node]
    simp [htok, Terminal.isNamed, Tree.dottedName, Tree.words, hname]
  simp only [MethodDeclaration.ofParts?, hmemberName, htype, hparameters, htypes, hclauses,
    Option.bind_eq_bind, Option.bind_some, Option.pure_def]
  exact ⟨_, rfl, hdotted, hreturn, hsays, hnames, htexts⟩

/-- **The name of a method is read behind its return type**, and all that follows it. -/
theorem IsLegible.takes_name (hm : m.IsLegible)
    (hk : Follows (.ofList [.leftBrace, .semicolon]) rest k)
    (hbody : (Pattern.rule .memberBody).Takes source .afterMember k b []
      (Pattern.One .memberBody fun _ => True)) : ∃ a,
      TypeEnds (.single .name) (' ' :: (m.name.toList ++ (m.parts ++ rest))) a ∧
      ∀ {after : TerminalSet} {pre inner : List Tree} {u : TypeSyntax}, b.terminal ∈ after →
        TypeSyntax.ofTree? (Rule.type.node inner) = some u → u.text = m.returnType →
        Pattern.afterMemberType.Takes source after a b (pre ++ [Rule.type.node inner]) fun post =>
          ∃ parts, post = pre ++ [Rule.methodDeclaration.node parts] ∧ ∀ around, ∃ d,
            MethodDeclaration.ofParts? source around (parts.filter (Tree.isKept .methodDeclaration)) =
              some d ∧ d.Says m := by
  obtain ⟨k₁, hk₁, hparts⟩ := hm.takes_parts hk hbody
  have hname : Lexes .nameEnd (' ' :: (m.name.toList ++ (m.parts ++ rest)))
      ⟨.name, m.name.toList, m.parts ++ rest⟩ :=
    lexes_name (by decide) (by decide) hm.name hm.clear (show isGap [' '] from rfl) hk₁.endsWord
  refine ⟨_, ⟨endsWord_cons (by decide) _, TerminalSet.mem_single.mpr rfl, hname⟩,
    fun {after pre inner u} hafter hu hreturn => ?_⟩
  generalize htok : Ahead.token source ⟨.name, m.name.toList, m.parts ++ rest⟩ = tok
  have hapart : ∀ p : Pattern, (TerminalSet.ofList [.less, .leftParen]).isApart p.first →
      k₁.terminal ∉ p.first := fun p hp => TerminalSet.not_mem_of_isApart hp hk₁.mem
  have hmethod : (Pattern.resume .methodDeclaration 2 (.all (.opt (.rule .typeParameterList))
      [.parameters, .constraintClauses, .rule .memberBody])).Takes source after k₁ b
        (pre ++ [Rule.type.node inner, Rule.memberName.node [.leaf tok]]) fun post =>
          ∃ parts, post = pre ++ [Rule.methodDeclaration.node parts] ∧ ∀ around, ∃ d,
            MethodDeclaration.ofParts? source around (parts.filter (Tree.isKept .methodDeclaration)) =
              some d ∧ d.Says m := by
    refine .resume pre _ rfl (hparts.behind.weaken ?_) hafter
    rintro _ ⟨new, hnew, rfl⟩
    refine ⟨_, rfl, fun around => ?_⟩
    exact hnew.ofParts? hu hreturn (by rw [← htok]; rfl) (by simp [← htok]) around
  have hmemberName : ∀ {admitted : TerminalSet}, k₁.terminal ∈ admitted →
      (Pattern.resume .memberName 1 .dottedRest).Takes source admitted k₁ k₁
        (pre ++ [Rule.type.node inner] ++ [.leaf tok])
        (· = pre ++ [Rule.type.node inner, Rule.memberName.node [.leaf tok]]) := fun hadmitted =>
    .resume _ [.leaf tok] rfl (.none (hapart _ (by decide)) (by simp)) hadmitted
  have hmem : ∀ {admitted : TerminalSet}, (TerminalSet.ofList [.less, .leftParen]).isWithin admitted →
      k₁.terminal ∈ admitted := fun h => TerminalSet.mem_of_isWithin h hk₁.mem
  refine .left (show Terminal.name ∈ _ by decide) (.cons rfl ?_ (.right (hapart _ (by decide)) ?_))
  · rw [Pattern.admits, if_neg (by decide)]
    exact hk₁.comes _ (by decide) (hmem (by decide))
  · rw [htok]
    refine .seq (hmemberName ?_) ?_
    · rw [Pattern.admits, if_neg (by decide)]
      exact hmem (by decide)
    · rintro _ rfl
      exact .left (hmem (by decide)) hmethod

end ForwardedMethod

/-! ## Whole members -/

variable (source) in
theorem Member.ofTree?_eq {r : Rule} (hr : r = .member ∨ r = .typeDeclaration) (inner : List Tree)
    {mods : List Tree} {ws : List String} (hmods : ∀ t ∈ mods, t.isPhrase .modifier)
    (hws : Tree.headWords? .modifier mods = some ws) {q : Rule}
    (hq : q ≠ .modifier) : ∃ around : Surroundings, around.modifiers = ws ∧
      Member.ofTree? source (r.node (mods ++ [q.node inner])) =
        Member.ofParts? source around [q.node inner] := by
  have hkept : (mods ++ [q.node inner]).filter (Tree.isKept r) = mods ++ [q.node inner] := by
    rw [List.filter_append, Tree.filter_isKept_of_forall hmods]
    rfl
  have hwords : Tree.headWords? .modifier (mods ++ [q.node inner]) = some ws := by
    rw [Tree.headWords?, Tree.phrases_append, Tree.phrases_phrase, if_neg hq, ← hws, Tree.headWords?]
    simp [Tree.phrases]
  obtain ⟨around, haround, hmodifiers⟩ : ∃ around, Surroundings.among? source (mods ++ [q.node inner])
      (Tree.cover (mods ++ [q.node inner])) = some around ∧ around.modifiers = ws := by
    simp [Surroundings.among?, hwords]
  refine ⟨around, hmodifiers, ?_⟩
  have hskip : ∀ parts, Member.ofParts? source around (mods ++ parts) =
      Member.ofParts? source around parts := by
    clear hkept hwords haround hws
    induction mods with
    | nil => exact fun _ => rfl
    | cons t mods ih =>
      intro parts
      have ht := hmods t List.mem_cons_self
      cases t with
      | leaf => cases ht
      | node q' parts' extent =>
        obtain rfl : q' = .modifier := by simpa [Tree.isPhrase] using ht
        rw [← ih (fun s hs => hmods s (List.mem_cons_of_mem _ hs)) parts, List.cons_append,
          Member.ofParts?]
        simp
  rw [← hskip, Rule.node, hkept]
  rcases hr with rfl | rfl <;> simp [Member.ofTree?, haround]

/-- **A method is read as a member**, with its modifiers and its body. -/
theorem ForwardedMethod.IsLegible.accepts {m : ForwardedMethod} (hm : m.IsLegible)
    {ws : List (Terminal × String)} (hne : ws ≠ [])
    (hws : ∀ e ∈ ws, e ∈ Terminal.words ∧ e.1 ∈ Rule.modifier.first) {body : List Char}
    (hbody : ReadsBody source body) :
    Rule.member.Accepts source (fun _ => True) (Follows .afterMember)
      (ws.flatMap (fun e => e.2.toList ++ [' ']) ++
        (m.returnType.toList ++ ' ' :: (m.name.toList ++ (m.parts ++ body))))
      fun tree => ∃ d, Member.ofTree? source tree = some (.method d) ∧ d.Says m := by
  intro rest b hb
  obtain ⟨k, hk, hbody⟩ := hbody rest b hb
  obtain ⟨n, hn, hmethod⟩ := hm.takes_name hk hbody
  obtain ⟨t, ht, hlexes, htype⟩ := takes_typedMember hm.returnType hn
  have hcore : t.terminal ∈ Pattern.memberCore.first := TerminalSet.mem_of_isWithin (by decide) ht
  obtain ⟨a, halexes, hfirst, hwords⟩ := takes_words source (r := .modifier) rfl rfl (by decide)
    (by decide) (by decide) (by decide) ws hws (hlexes [] rfl) hcore (by decide)
    (TerminalSet.not_mem_of_isApart (by decide) ht)
  obtain ⟨hafirst, hcomes⟩ := (hfirst.resolve_left fun h => hne h.1).2
  refine ⟨a, TerminalSet.mem_of_isWithin (by decide) hafirst, fun B gap hB hmem _ hgap => ?_,
    fun after hafter => .one (.skip (TerminalSet.not_mem_of_isApart (by decide) hafirst)
      (.andThen hwords ?_)) hafter⟩
  · simpa using (hcomes B hB hmem).gap hgap
  rintro mods ⟨hmods, hphrases⟩
  refine htype fun inner u hu hreturn => (hmethod hb.mem hu hreturn).weaken ?_
  rintro _ ⟨parts, rfl, hread⟩
  obtain ⟨around, -, htree⟩ := Member.ofTree?_eq source (r := .member) (Or.inl rfl) parts
    hphrases hmods (q := .methodDeclaration) (by decide)
  obtain ⟨d, hd, hsays⟩ := hread around
  refine ⟨d, ?_, hsays⟩
  rw [List.nil_append, htree, Rule.node, Member.ofParts?]
  simp [hd]

namespace ForwardedMethod

variable {m : ForwardedMethod}

theorem IsLegible.inert_call (hm : m.IsLegible) : Inert m.call.toList := by
  have hcomma : ∀ {items : List String}, (∀ i ∈ items, Inert i.toList) →
      Inert (commaSeparated items).toList := fun hitems => by
    rw [commaSeparated, String.toList_intercalate]
    refine .intercalate (.plain (by decide)) fun w hw => ?_
    obtain ⟨i, hi, rfl⟩ := List.mem_map.mp hw
    exact hitems i hi
  have hgeneric : Inert m.genericSuffix.toList := by
    unfold genericSuffix withArguments
    split_ifs
    · exact .plain (w := []) rfl
    · simp only [String.toList_append]
      exact (((Inert.plain (w := []) rfl).append (.plain (by decide))).append
        (hcomma fun n hn => .named (hm.typeParameters n hn).1)).append (.plain (by decide))
  have harguments : Inert (commaSeparated (m.parameters.map ForwardedParameter.argument)).toList := by
    refine hcomma fun i hi => ?_
    obtain ⟨q, hq, rfl⟩ := List.mem_map.mp hi
    rw [ForwardedParameter.argument, String.toList_intercalate]
    refine .intercalate (.plain (by decide)) fun w hw => ?_
    obtain ⟨n, hn, rfl⟩ := List.mem_map.mp hw
    rcases List.mem_append.mp hn with hn | hn
    · have hwords : ∀ w ∈ parameterWords, IsPlainName w.toList := by decide
      exact .isPlainName (hwords n ((hm.parameters q hq).modifiers n (List.mem_filter.mp hn).1))
    · rw [List.mem_singleton.mp hn]
      exact .named (hm.parameters q hq).name
  simp only [call, String.toList_append]
  exact (((((((Inert.plain (by decide)).append (.plain (by decide))).append (.named hm.name)).append
    hgeneric).append (.plain (by decide))).append harguments).append (.plain (by decide)))

end ForwardedMethod

end Facade
