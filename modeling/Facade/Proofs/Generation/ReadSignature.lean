import Facade.Proofs.Generation.Decoding
import Facade.Proofs.Grammar.DefaultText
import Facade.Proofs.Syntax.NamesRead

/-!
# Signatures are read as they are printed

The type parameters, parameters and constraint clauses of a forwarded method are texts. Where the names
in them are read as names, they are read as what they were printed for.

* `LegibleType`, `LegibleClause`: texts of types and of constraint clauses whose names are read as
  names;
* `ParameterSyntax.Says`: a declared parameter is a forwarded one;
* `takes_typeParameters`, `takes_constraintClauses`: the lists that may be missing;
* **`takes_parameters`**: parameters between parentheses are read.
-/

namespace Facade

open Text Scan

variable {source : List Char}

/-! ## Types -/

/-- The words of one set are in the other. -/
def TerminalSet.WordsWithin (a b : TerminalSet) : Prop :=
  ∀ e ∈ Terminal.words, e.1 ∈ a → e.1 ∈ b

instance (a b : TerminalSet) : Decidable (a.WordsWithin b) :=
  inferInstanceAs (Decidable (∀ e ∈ Terminal.words, e.1 ∈ a → e.1 ∈ b))

/-- The text is that of a type whose names are read as names, the first one where these terminals are
admitted. -/
def LegibleType (admitted : TerminalSet) (text : String) : Prop :=
  ∃ u : TypeSyntax, u.IsWritten ∧ u.IsReadable ∧ u.IsClear admitted ∧ u.text = text

variable (source) in
theorem LegibleType.accepts {admitted : TerminalSet} {text : String} (h : LegibleType admitted text) :
    Rule.type.Accepts source (·.WordsWithin admitted) (TypeEnds .afterType) text.toList
      fun tree => ∃ u, TypeSyntax.ofTree? tree = some u ∧ u.text = text := by
  obtain ⟨u, hwritten, hreadable, hclear, rfl⟩ := h
  intro rest b hb
  obtain ⟨a, ha, hlexes, htakes⟩ :=
    (TypeSyntax.isRead hwritten hreadable [] (by simp)).accepts rest b hb
  simp only [List.flatMap_nil, List.append_nil, List.foldl_nil] at hlexes htakes
  refine ⟨a, ha, fun B gap hB hmem hwords => hlexes B gap hB hmem fun n hn =>
    (hclear n hn).mono hwords, fun after hafter => (htakes after hafter).weaken ?_⟩
  rintro _ ⟨inner, htree, rfl⟩
  exact ⟨inner, ⟨u, htree, rfl⟩, rfl⟩

/-! ## Type parameters -/

theorem TypeParameterSyntax.ofTree?_leaf {tok : Token} (htok : tok.terminal = .name)
    (extent : Option Extent) : ofTree? (.node .typeParameter [.leaf tok] extent) =
      some ⟨tok.text, Variance.ofWords? [tok.text], extent.map Extent.span⟩ := by
  simp [ofTree?, Tree.name?, Tree.words, htok]

theorem accepts_typeParameter {n : String} (hn : Named n) :
    Rule.typeParameter.Accepts source (ReadsAsName · n) (Follows (.ofList [.comma, .greater]))
      n.toList fun tree => ∃ p, TypeParameterSyntax.ofTree? tree = some p ∧ p.name = n := by
  intro rest b hb
  refine ⟨⟨.name, n.toList, rest⟩, (show Terminal.name ∈ _ by decide),
    fun B gap hB hmem hread hgap => lexes_name hB hmem hn hread hgap hb.endsWord,
    fun after hafter => .one (.skip (show Terminal.name ∉ _ by decide)
      (.skip (show Terminal.name ∉ _ by decide)
        (.token rfl (hb.lexes (by decide) (by decide)) ?_))) hafter⟩
  rw [List.nil_append, Rule.node, Tree.filter_isKept rfl]
  exact ⟨_, TypeParameterSyntax.ofTree?_leaf rfl _, by simp⟩

variable (source) in
/-- **The type parameters behind a name are read.** -/
theorem takes_typeParameters (ns : List String)
    (hn : ∀ n ∈ ns, Named n ∧ ReadsAsName Rule.typeParameter.first n) {after : TerminalSet}
    {rest : List Char} {b : Ahead} (hb : Follows after rest b) (hless : .less ∉ after)
    (hafter : after.isWithin Rule.typeParameterList.follow) : ∃ a,
      Follows (.single .less ∪ after) ((withArguments "" ns).toList ++ rest) a ∧
      (Pattern.opt (.rule .typeParameterList)).Takes source after a b [] fun new =>
        (∀ tree ∈ new, tree.isPhrase .typeParameterList) ∧
        ∃ ps, TypeParameterSyntax.among? new = some ps ∧
          ps.map TypeParameterSyntax.name = ns := by
  cases ns with
  | nil =>
    refine ⟨b, ⟨hb.endsWord, TerminalSet.mem_union.mpr (Or.inr hb.mem), hb.comes⟩,
      .none (fun h => hless (TerminalSet.mem_single.mp h ▸ hb.mem)) ⟨by simp, [], rfl, rfl⟩⟩
  | cons n ns =>
    have htext : (withArguments "" (n :: ns)).toList ++ rest =
        '<' :: (n.toList ++ ns.flatMap (fun m => ',' :: ' ' :: m.toList) ++ '>' :: rest) := by
      simp [withArguments, commaSeparated, intercalate_cons_eq, List.flatMap_map]
    have hless : Follows (.single .less ∪ after) ((withArguments "" (n :: ns)).toList ++ rest)
        ⟨.less, ['<'], n.toList ++ ns.flatMap (fun m => ',' :: ' ' :: m.toList) ++ '>' :: rest⟩ := by
      rw [htext]
      exact .sign (by decide) (TerminalSet.mem_union.mpr (Or.inl (TerminalSet.mem_single.mpr rfl))) _
    have hitem : ∀ m ∈ n :: ns, Rule.typeParameter.Accepts source (ReadsAsName · m)
        (Follows (.ofList [.comma, .greater])) m.toList fun tree =>
          ∃ p, TypeParameterSyntax.ofTree? tree = some p ∧ p.name = m := fun m hm =>
      accepts_typeParameter (hn m hm).1
    obtain ⟨m, hm, -, hmore⟩ := Pattern.Takes.commaRest (b := ⟨.greater, ['>'], rest⟩)
      (fun cs => Follows.sign (by decide) (by decide) _)
      (fun rest b h => show b.terminal ∈ TerminalSet.single .greater ∪ .single .comma from
        TerminalSet.mem_of_isWithin (by decide) h.mem)
      (by decide) (fun m hm => (hn m (List.mem_cons_of_mem _ hm)).2)
      (fun m hm => hitem m (List.mem_cons_of_mem _ hm))
      (Follows.sign (by decide) (by decide) rest)
      (show Terminal.greater ∈ TerminalSet.single .greater from TerminalSet.mem_single.mpr rfl)
      (show Terminal.greater ≠ .comma by decide)
    obtain ⟨a, ha, hlexes, hfirst⟩ := hitem n List.mem_cons_self _ m hm
    have hopen := hlexes Rule.typeParameter.first [] (by decide) ha (hn n List.mem_cons_self).2 rfl
    refine ⟨_, hless, .some (TerminalSet.mem_single.mpr rfl) (.rule (.cons rfl
      (show Lexes Rule.typeParameter.first _ a by simpa using hopen) (.andThen (hfirst _
        (TerminalSet.mem_of_isWithin (by decide) hm.mem)) ?_)) hb.mem)⟩
    rintro _ ⟨inner, htree, rfl⟩
    refine .andThen hmore ?_
    rintro _ ⟨trees, htrees, hkept⟩
    refine .token rfl (hb.lexes (by decide) hafter) ?_
    obtain ⟨ps, hps, hnames⟩ := exists_mapM_map
      (List.Forall₂.cons htree (htrees.imp fun _ _ h => h.1))
    refine ⟨by simp [Rule.node, Tree.isPhrase], ps, ?_, hnames⟩
    rw [List.nil_append, Rule.node, List.filter_append, List.filter_append, hkept _ rfl]
    simpa [TypeParameterSyntax.among?, Tree.partsOf, Tree.phrase?, Tree.isPhrase,
      List.filter_cons, Terminal.isNamed, Rule.keepsTokens] using hps

/-! ## Constraints -/

/-- The text is that of a constraint whose names are read as names. -/
def LegibleConstraint (text : String) : Prop :=
  text ∈ specialConstraints ∨ LegibleType Rule.constraint.first text

/-- The text is that of a constraint clause whose names are read as names. -/
def LegibleClause (text : String) : Prop :=
  ∃ n ks, Named n ∧ ks ≠ [] ∧ (∀ k ∈ ks, LegibleConstraint k) ∧
    text = "where " ++ n ++ " : " ++ commaSeparated ks

/-- What follows a constraint. -/
def TerminalSet.afterConstraint : TerminalSet :=
  .ofList [.comma, .leftBrace, .semicolon, .whereKw]

theorem ofTree?_special {tokens : List Token} (extent : Option Extent) :
    ConstraintSyntax.ofTree? (.node .constraint (tokens.map .leaf) extent) =
      some (.special ("".intercalate (tokens.map Token.text))) := by
  have hphrase : Tree.phrase? .type (tokens.map .leaf) = none := by
    simp [Tree.phrase?, Tree.isPhrase]
  have hwords : Tree.words (tokens.map .leaf) = tokens.map Token.text := by
    induction tokens with
    | nil => rfl
    | cons t ts ih => simpa [Tree.words] using ih (by simp [Tree.phrase?, Tree.isPhrase])
  simp [ConstraintSyntax.ofTree?, hphrase, hwords]

theorem special_of_tokens {parts : List Tree} (tokens : List Token) (hparts : parts = tokens.map .leaf)
    {k : String} (hk : "".intercalate (tokens.map Token.text) = k) :
    ∃ c, ConstraintSyntax.ofTree? (Rule.constraint.node parts) = some c ∧ c.text = k := by
  subst hparts
  rw [Rule.node, Tree.filter_isKept rfl]
  exact ⟨_, ofTree?_special _, hk⟩

theorem accepts_specialConstraint {k : String} (hk : k ∈ specialConstraints)
    {Clear : TerminalSet → Prop} :
    Rule.constraint.Accepts source Clear (Follows .afterConstraint) k.toList
      fun tree => ∃ c, ConstraintSyntax.ofTree? tree = some c ∧ c.text = k := by
  have hclass : (Terminal.classKw, "class") ∈ Terminal.words := by decide
  have hstruct : (Terminal.structKw, "struct") ∈ Terminal.words := by decide
  have hnew : (Terminal.newKw, "new") ∈ Terminal.words := by decide
  have hdefault : (Terminal.defaultKw, "default") ∈ Terminal.words := by decide
  have hfollow : ∀ {rest b}, Follows .afterConstraint rest b → Lexes Rule.constraint.follow rest b :=
    fun hb => hb.lexes (by decide) (by decide)
  simp only [specialConstraints, List.mem_cons, List.not_mem_nil, or_false] at hk
  rcases hk with rfl | rfl | rfl | rfl | rfl
  · refine Rule.accepts_of_word (s := []) hclass (by decide) (fun _ h => h) fun rest b hb => ?_
    refine .left (show Terminal.classKw ∈ _ by decide) (.cons rfl (hb.lexes (by decide) (by decide))
      (.none (TerminalSet.not_mem_of_isApart (by decide) hb.mem) ?_))
    exact special_of_tokens [_] rfl (by simp)
  · refine Rule.accepts_of_word (s := ['?']) hclass (by decide)
      (fun _ _ => endsWord_cons (by decide) _) fun rest b hb => ?_
    refine .left (show Terminal.classKw ∈ _ by decide) (.cons rfl
      (comes_sign (show (Terminal.question, '?') ∈ _ by decide) rest _ (by decide)
        (show Terminal.question ∈ _ by decide))
      (.some (show Terminal.question ∈ _ by decide) (.token rfl (hfollow hb) ?_)))
    exact special_of_tokens [_, _] rfl (by simp)
  · refine Rule.accepts_of_word (s := []) hstruct (by decide) (fun _ h => h) fun rest b hb => ?_
    refine .right (show Terminal.structKw ∉ _ by decide)
      (.left (show Terminal.structKw ∈ _ by decide) (.token rfl (hfollow hb) ?_))
    exact special_of_tokens [_] rfl (by simp)
  · refine Rule.accepts_of_word (s := ['(', ')']) hnew (by decide)
      (fun _ _ => endsWord_cons (by decide) _) fun rest b hb => ?_
    refine .right (show Terminal.newKw ∉ _ by decide)
      (.right (show Terminal.newKw ∉ _ by decide) (.left (show Terminal.newKw ∈ _ by decide)
        (.cons rfl (comes_sign (show (Terminal.leftParen, '(') ∈ _ by decide) _ _ (by decide)
          (show Terminal.leftParen ∈ _ by decide))
          (.cons rfl (comes_sign (show (Terminal.rightParen, ')') ∈ _ by decide) _ _ (by decide)
            (show Terminal.rightParen ∈ _ by decide)) (.token rfl (hfollow hb) ?_)))))
    exact special_of_tokens [_, _, _] rfl (by simp)
  · refine Rule.accepts_of_word (s := []) hdefault (by decide) (fun _ h => h) fun rest b hb => ?_
    refine .right (show Terminal.defaultKw ∉ _ by decide)
      (.right (show Terminal.defaultKw ∉ _ by decide)
        (.right (show Terminal.defaultKw ∉ _ by decide)
          (.left (show Terminal.defaultKw ∈ _ by decide) (.token rfl (hfollow hb) ?_))))
    exact special_of_tokens [_] rfl (by simp)

theorem accepts_constraint {k : String} (hk : LegibleConstraint k) :
    Rule.constraint.Accepts source (·.WordsWithin Rule.constraint.first) (Follows .afterConstraint)
      k.toList fun tree => ∃ c, ConstraintSyntax.ofTree? tree = some c ∧ c.text = k := by
  rcases hk with hk | hk
  · exact accepts_specialConstraint hk
  · intro rest b hb
    obtain ⟨a, ha, hlexes, htakes⟩ :=
      hk.accepts source rest b ((hb.typeEnds (by decide)).mono (by decide))
    have hother : ∀ p : Pattern, Rule.type.first.isApart p.first → a.terminal ∉ p.first :=
      fun p hp => TerminalSet.not_mem_of_isApart hp ha
    refine ⟨a, TerminalSet.mem_of_isWithin (by decide) ha, hlexes,
      fun after hafter => .one ?_ hafter⟩
    refine .right (hother _ (by decide)) (.right (hother _ (by decide))
      (.right (hother _ (by decide)) (.right (hother _ (by decide)) ((htakes _ ?_).weaken ?_))))
    · exact TerminalSet.mem_of_isWithin (by decide) hb.mem
    · rintro _ ⟨inner, ⟨u, hu, rfl⟩, rfl⟩
      refine ⟨.type u, ?_, rfl⟩
      rw [Rule.node, Tree.filter_isKept rfl]
      rw [Rule.node] at hu ⊢
      simp [ConstraintSyntax.ofTree?, Tree.phrase?, Tree.isPhrase, hu]

theorem ConstraintClause.ofTree?_of_parts {tok : Token} (htok : tok.terminal = .name) {trees : List Tree}
    (htrees : ∀ t ∈ trees, t.isPhrase .constraint) {cs : List ConstraintSyntax}
    (hcs : trees.mapM ConstraintSyntax.ofTree? = some cs) (extent : Option Extent) :
    ofTree? (.node .constraintClause (.leaf tok :: trees) extent) =
      some ⟨tok.text, cs, extent.map Extent.span⟩ := by
  simp [ofTree?, htok, Tree.phrases_of_forall htrees, hcs]

/-- **A constraint clause is read.** -/
theorem accepts_constraintClause {text : String} (h : LegibleClause text) :
    Rule.constraintClause.Accepts source (fun _ => True)
      (Follows (.ofList [.leftBrace, .semicolon, .whereKw])) text.toList
      fun tree => ∃ c, ConstraintClause.ofTree? tree = some c ∧ c.text = text := by
  obtain ⟨n, ks, hn, hne, hks, rfl⟩ := h
  obtain ⟨k, ks, rfl⟩ := List.exists_cons_of_ne_nil hne
  intro rest b hb
  have hitem : ∀ j ∈ k :: ks, Rule.constraint.Accepts source (·.WordsWithin Rule.constraint.first)
      (Follows .afterConstraint) j.toList
      fun tree => ∃ c, ConstraintSyntax.ofTree? tree = some c ∧ c.text = j := fun j hj =>
    accepts_constraint (hks j hj)
  obtain ⟨m, hm, -, hmore⟩ := Pattern.Takes.commaRest (b := b)
    (fun cs => Follows.sign (by decide) (by decide) _)
    (fun rest b h => show b.terminal ∈ TerminalSet.afterConstraints ∪ .single .comma from
      TerminalSet.mem_of_isWithin (by decide) h.mem) (by decide) (by intro _ _; decide)
    (fun j hj => hitem j (List.mem_cons_of_mem _ hj)) (hb.mono (by decide))
    (show b.terminal ∈ Rule.constraintClause.follow from
      TerminalSet.mem_of_isWithin (by decide) hb.mem)
    (fun h => absurd hb.mem (h ▸ by decide))
  obtain ⟨a, ha, hlexes, hfirst⟩ := hitem k List.mem_cons_self _ m hm
  have htext : ("where " ++ n ++ " : " ++ commaSeparated (k :: ks)).toList ++ rest =
      "where".toList ++ ([' '] ++ (n.toList ++ ([' '] ++ (":".toList ++ ([' '] ++ (k.toList ++
        (ks.flatMap (fun j => ',' :: ' ' :: j.toList) ++ rest))))))) := by
    simp [commaSeparated, intercalate_cons_eq, List.flatMap_map]
  have hfirstKind := hlexes Rule.constraint.first [' '] (by decide) ha (by decide) rfl
  have hcolon : ∀ cs, Lexes (.single .colon) ([' '] ++ (":".toList ++ ([' '] ++ cs)))
      ⟨.colon, ":".toList, [' '] ++ cs⟩ := fun cs =>
    (comes_blank (t := .colon) (w := ":") (by decide) (by decide) cs (.single .colon) (by decide)
      (TerminalSet.mem_single.mpr rfl)).gap rfl
  refine ⟨⟨.whereKw, "where".toList, _⟩, (show Terminal.whereKw ∈ _ by decide),
    fun B gap hB hmem _ hgap => ?_, fun after hafter => .one (.cons rfl
      (lexes_name (by decide) (by decide) hn (readsAsName_single n) (show isGap [' '] from rfl)
        (endsWord_cons (by decide) _)) (.cons rfl (hcolon _) (.cons rfl hfirstKind
          (.andThen (hfirst _ ?_) ?_)))) hafter⟩
  · rw [htext]
    exact lexes_word (show (Terminal.whereKw, "where") ∈ _ by decide) hB hmem hgap
      (endsWord_cons (by decide) _)
  · exact TerminalSet.mem_of_isWithin (by decide) hm.mem
  · rintro _ ⟨inner, htree, rfl⟩
    refine hmore.behind.weaken ?_
    rintro _ ⟨_, ⟨trees, htrees, hkept⟩, rfl⟩
    obtain ⟨cs, hcs, htexts⟩ := exists_mapM_map
      (List.Forall₂.cons htree (htrees.imp fun _ _ h => h.1))
    have hphrases : ∀ t ∈ Rule.constraint.node inner :: trees, t.isPhrase .constraint :=
      List.forall_mem_cons.mpr ⟨by simp, forall_of_forall₂ (htrees.imp fun _ _ h => h.2)⟩
    rw [List.nil_append, Rule.node, List.filter_append, hkept .constraintClause rfl]
    simp only [List.cons_append, List.nil_append, List.filter_cons, List.filter_nil, Tree.isKept_leaf,
      Tree.isKept_phrase, Ahead.token_terminal, Terminal.isNamed, Rule.keepsTokens, Bool.or_false,
      Bool.false_eq_true, if_false, if_true]
    exact ⟨_, ConstraintClause.ofTree?_of_parts rfl hphrases hcs _, by simp [ConstraintClause.text, htexts]⟩

theorem flatten_ones {α : Type} {r : Rule} {T : α → Tree → Prop} {xs : List α} {news : List (List Tree)}
    (h : List.Forall₂ (fun x => Pattern.One r (T x)) xs news) :
    List.Forall₂ (fun x t => T x t ∧ t.isPhrase r) xs news.flatten := by
  induction h with
  | nil => exact .nil
  | cons hnew _ ih =>
    obtain ⟨inner, ht, rfl⟩ := hnew
    exact .cons ⟨ht, by simp⟩ ih

variable (source) in
/-- **The constraint clauses behind the parameters are read.** -/
theorem takes_constraintClauses (cs : List String) (hcs : ∀ c ∈ cs, LegibleClause c) {rest : List Char}
    {b : Ahead} (hb : Follows (.ofList [.leftBrace, .semicolon]) rest b) {after : TerminalSet}
    (hafter : b.terminal ∈ after) : ∃ a,
      Follows (.ofList [.leftBrace, .semicolon, .whereKw])
        (cs.flatMap (fun c => ' ' :: c.toList) ++ rest) a ∧
      Pattern.constraintClauses.Takes source after a b [] fun new =>
        (∀ tree ∈ new, tree.isPhrase .constraintClause) ∧
        ∃ ds, ConstraintClause.among? new = some ds ∧ ds.map ConstraintClause.text = cs := by
  have hitem : ∀ c ∈ cs, ∀ rest b, Follows (.ofList [.leftBrace, .semicolon, .whereKw]) rest b → ∃ a,
      Follows (.ofList [.leftBrace, .semicolon, .whereKw]) ((' ' :: c.toList) ++ rest) a ∧
      a.terminal ∈ (Pattern.rule .constraintClause).first ∧
      (Pattern.rule .constraintClause).Takes source .afterConstraints a b []
        (Pattern.One .constraintClause fun tree =>
          ∃ d, ConstraintClause.ofTree? tree = some d ∧ d.text = c) := fun c hc rest b hb => by
    obtain ⟨a, ha, hlexes, htakes⟩ := accepts_constraintClause (hcs c hc) rest b hb
    refine ⟨a, ⟨endsWord_cons (by decide) _, TerminalSet.mem_of_isWithin (by decide) ha,
      fun B hB hmem => hlexes B [' '] hB hmem trivial rfl⟩, ha, htakes _ ?_⟩
    exact TerminalSet.mem_of_isWithin (by decide) hb.mem
  obtain ⟨a, ha, -, htakes⟩ := Pattern.Takes.many (hb.mono (by decide)) hafter
    (TerminalSet.not_mem_of_isApart (by decide) hb.mem) cs hitem
  refine ⟨a, ha, htakes.weaken ?_⟩
  rintro _ ⟨news, hnews, rfl⟩
  have hall := flatten_ones hnews
  have hphrases := forall_of_forall₂ (hall.imp fun _ _ h => h.2)
  rw [ConstraintClause.among?, Tree.phrases_of_forall hphrases]
  exact ⟨hphrases, exists_mapM_map (hall.imp fun _ _ h => h.1)⟩

/-! ## Parameters -/

/-- The declared parameter is the forwarded one. -/
structure ParameterSyntax.Says (p : ParameterSyntax) (q : ForwardedParameter) : Prop where
  name : p.name = q.name
  type : p.type.text = q.type
  modifiers : p.modifiers = q.modifiers
  defaultText : p.defaultText = q.defaultText

variable (source) in
theorem ParameterSyntax.ofTree?_of_parts {new inner dnew : List Tree} {tok : Token} {u : TypeSyntax}
    {ms : List String} (hnew : ∀ t ∈ new, t.isPhrase .parameterModifier)
    (hms : Tree.headWords? .parameterModifier new = some ms)
    (hu : TypeSyntax.ofTree? (Rule.type.node inner) = some u) (htok : tok.terminal = .name)
    (hdnew : ∀ t ∈ dnew, t.isPhrase .defaultValue) : ∃ span nameSpan,
    ofTree? source (Rule.parameter.node (new ++ Rule.type.node inner :: .leaf tok :: dnew)) =
      some ⟨tok.text, u, ms, (Tree.phrase? .defaultValue dnew).map (defaultOf source), span, nameSpan⟩ := by
  rw [Rule.node, List.filter_append, Tree.filter_isKept_of_forall hnew, List.filter_cons_of_pos rfl,
    List.filter_cons_of_pos (by simp [htok, Terminal.isNamed]), Tree.filter_isKept_of_forall hdnew]
  generalize hparts : new ++ Rule.type.node inner :: .leaf tok :: dnew = parts
  have hname : Tree.name? parts = some tok := by
    rw [← hparts, Tree.name?_append hnew]
    simp [htok]
  have hphrases : ∀ r, Tree.phrases r parts = Tree.phrases r new ++
      Tree.phrases r (Rule.type.node inner :: .leaf tok :: dnew) := fun r => by
    rw [← hparts, Tree.phrases_append]
  have htype : TypeSyntax.among? parts = some u := by
    rw [TypeSyntax.among?, Tree.phrase?_eq_head?, hphrases, Tree.phrases_eq_nil hnew (by decide)]
    simpa using hu
  have hmodifiers : Tree.headWords? .parameterModifier parts = some ms := by
    rw [← hms, Tree.headWords?, Tree.headWords?, hphrases]
    simp [Tree.phrases_eq_nil hdnew (show Rule.defaultValue ≠ .parameterModifier by decide)]
  have hdefault : Tree.phrase? .defaultValue parts = Tree.phrase? .defaultValue dnew := by
    rw [Tree.phrase?_eq_head?, Tree.phrase?_eq_head?, hphrases, Tree.phrases_eq_nil hnew (by decide)]
    simp
  exact ⟨(Tree.cover parts).map Extent.span, some tok.extent.span,
    by simp [ofTree?, hname, htype, hmodifiers, hdefault]⟩

namespace ForwardedParameter

/-- The parameter is read as it is declared. -/
structure IsLegible (q : ForwardedParameter) : Prop where
  type : LegibleType .parameterStart q.type
  name : Named q.name
  clear : ReadsAsName .nameEnd q.name
  modifiers : ∀ m ∈ q.modifiers, m ∈ parameterWords
  defaultText : ∀ d ∈ q.defaultText, IsDefault d.toList ∧ trimBlanks d = d

variable {q : ForwardedParameter} {rest : List Char} {b : Ahead}

theorem intercalate_concat {α : Type} (sep w : List α) (ws : List (List α)) :
    sep.intercalate (ws ++ [w]) = ws.flatMap (· ++ sep) ++ w := by
  induction ws with
  | nil => simp [List.intercalate]
  | cons v ws ih =>
    rw [List.flatMap_cons, List.append_assoc, ← ih]
    cases ws <;> simp [List.intercalate]

theorem toList_declaration_eq (q : ForwardedParameter) : q.declaration.toList =
    q.modifiers.flatMap (fun m => m.toList ++ [' ']) ++
      (q.type.toList ++ (' ' :: (q.name.toList ++ q.defaultPart))) := by
  have hwords : q.words.map String.toList =
      q.modifiers.map String.toList ++ [q.type.toList] ++ [q.name.toList] := by simp [words]
  rw [toList_declaration, hwords, intercalate_concat]
  simp [List.flatMap_map]

theorem exists_words {ms : List String} (h : ∀ m ∈ ms, m ∈ parameterWords) :
    ∃ ws : List (Terminal × String), ws.map Prod.snd = ms ∧
      ∀ e ∈ ws, e ∈ Terminal.words ∧ e.1 ∈ Rule.parameterModifier.first := by
  have hword : ∀ m ∈ parameterWords, ∃ e ∈ Terminal.words, e.2 = m ∧
      e.1 ∈ Rule.parameterModifier.first := by decide
  induction ms with
  | nil => exact ⟨[], rfl, by simp⟩
  | cons m ms ih =>
    obtain ⟨ws, hws, hall⟩ := ih fun k hk => h k (List.mem_cons_of_mem _ hk)
    obtain ⟨e, he, rfl, hfirst⟩ := hword m (h m List.mem_cons_self)
    exact ⟨e :: ws, by rw [List.map_cons, hws], List.forall_mem_cons.mpr ⟨⟨he, hfirst⟩, hall⟩⟩

variable (source) in
theorem IsLegible.takes_default (hq : q.IsLegible) (hb : ParameterEnds rest b) : ∃ m,
    EndsWord (q.defaultPart ++ rest) ∧ m.terminal ∈ TerminalSet.ofList [.equals, .comma, .rightParen] ∧
    Comes (q.defaultPart ++ rest) m ∧
    (Pattern.opt (.rule .defaultValue)).Takes source Rule.parameter.follow m b [] fun new =>
      (∀ tree ∈ new, tree.isPhrase .defaultValue) ∧
        (Tree.phrase? .defaultValue new).map (ParameterSyntax.defaultOf source) = q.defaultText := by
  unfold defaultPart
  cases hd : q.defaultText with
  | none =>
    exact ⟨b, hb.follows.endsWord, TerminalSet.mem_of_isWithin (by decide) hb.follows.mem,
      hb.follows.comes, .none (TerminalSet.not_mem_of_isApart (by decide) hb.follows.mem)
        ⟨by simp, rfl⟩⟩
  | some d =>
    obtain ⟨hdefault, htrim⟩ := hq.defaultText d hd
    obtain ⟨m, hm, hlexes, htakes⟩ :=
      accepts_defaultValue source hdefault htrim rest b hb
    refine ⟨m, endsWord_cons (by decide) _, TerminalSet.mem_of_isWithin (by decide) hm,
      fun B hB hmem => hlexes B [' '] hB hmem trivial rfl,
      .some hm ((htakes _ (TerminalSet.mem_of_isWithin (by decide) hb.follows.mem)).weaken ?_)⟩
    rintro _ ⟨inner, htext, rfl⟩
    simp [Tree.phrase?, htext]

/-- **A parameter is read as it is declared.** -/
theorem IsLegible.accepts (hq : q.IsLegible) :
    Rule.parameter.Accepts source (·.WordsWithin .parameterStart) ParameterEnds q.declaration.toList
      fun tree => ∃ p, ParameterSyntax.ofTree? source tree = some p ∧ p.Says q := by
  intro rest b hb
  obtain ⟨m, hends, hm, hmcomes, hdefault⟩ := hq.takes_default source hb
  have hname : Lexes .nameEnd (' ' :: (q.name.toList ++ (q.defaultPart ++ rest)))
      ⟨.name, q.name.toList, q.defaultPart ++ rest⟩ :=
    lexes_name (by decide) (by decide) hq.name hq.clear (show isGap [' '] from rfl) hends
  obtain ⟨k, hk, hlexes, htype⟩ := hq.type.accepts source _ _
    ⟨endsWord_cons (by decide) _, (show Terminal.name ∈ _ by decide), hname⟩
  obtain ⟨ws, hws, hwords⟩ := exists_words hq.modifiers
  obtain ⟨a, halexes, hfirst, hmodifiers⟩ := takes_words source (r := .parameterModifier) rfl rfl
    (by decide) (by decide) (by decide) (by decide) ws hwords
    (hlexes _ [] (by decide) (TerminalSet.mem_of_isWithin (by decide) hk) (by decide) rfl)
    hk (by decide) (TerminalSet.not_mem_of_isApart (by decide) hk)
  have htext : q.declaration.toList ++ rest = ws.flatMap (fun e => e.2.toList ++ [' ']) ++
      (q.type.toList ++ ' ' :: (q.name.toList ++ (q.defaultPart ++ rest))) := by
    rw [toList_declaration_eq, ← hws, List.flatMap_map]
    simp
  refine ⟨a, ?_, fun B gap hB hmem hwithin hgap => ?_, fun after hafter => .one ?_ hafter⟩
  · rcases hfirst with ⟨-, rfl⟩ | ⟨-, hfirst, -⟩
    · exact TerminalSet.mem_of_isWithin (by decide) hk
    · exact TerminalSet.mem_of_isWithin (by decide) hfirst
  · rw [htext]
    rcases hfirst with ⟨rfl, rfl⟩ | ⟨-, -, hcomes⟩
    · exact hlexes B gap hB hmem hwithin hgap
    · exact (hcomes B hB hmem).gap hgap
  have hattributes : a.terminal ∉ Rule.attributeSection.first := by
    rcases hfirst with ⟨-, rfl⟩ | ⟨-, hfirst, -⟩
    · exact TerminalSet.not_mem_of_isApart (by decide) hk
    · exact TerminalSet.not_mem_of_isApart (by decide) hfirst
  refine .skip hattributes (.andThen hmodifiers fun new hnew => ?_)
  refine .andThen (htype _ (TerminalSet.mem_single.mpr rfl)) ?_
  rintro _ ⟨inner, ⟨u, hu, htype⟩, rfl⟩
  refine .cons rfl (hmcomes _ (by decide) (TerminalSet.mem_of_isWithin (by decide) hm)) ?_
  refine hdefault.behind.weaken ?_
  rintro _ ⟨dnew, ⟨hdnew, hdefault⟩, rfl⟩
  have htok : (Ahead.token source ⟨.name, q.name.toList, q.defaultPart ++ rest⟩).terminal = .name := rfl
  obtain ⟨span, nameSpan, htree⟩ :=
    ParameterSyntax.ofTree?_of_parts source hnew.2 hnew.1 hu htok hdnew
  simp only [List.nil_append, List.append_assoc, List.cons_append] at htree ⊢
  exact ⟨_, htree, by simp, htype, hws, hdefault⟩

end ForwardedParameter

variable (source) in
/-- **The parameters between the parentheses are read** as they are declared. -/
theorem takes_parameters (qs : List ForwardedParameter) (hqs : ∀ q ∈ qs, q.IsLegible)
    {rest : List Char} {b : Ahead} {after : TerminalSet} (hb : Lexes after rest b) :
    Pattern.parameters.Takes source after
      ⟨.leftParen, ['('], (commaSeparated (qs.map ForwardedParameter.declaration)).toList ++
        ')' :: rest⟩ b [] fun new => ∃ lists,
        new.filter (Tree.isKept .methodDeclaration) = lists ∧
        (∀ tree ∈ lists, tree.isPhrase .parameterList) ∧
        ∃ ps, ParameterSyntax.among? source lists = some ps ∧
          List.Forall₂ ParameterSyntax.Says ps qs := by
  have hclose : ∀ B : TerminalSet, B.isPlain → .rightParen ∈ B →
      Lexes B (')' :: rest) ⟨.rightParen, [')'], rest⟩ := fun B hB hmem =>
    comes_sign (show (Terminal.rightParen, ')') ∈ _ by decide) rest B hB hmem
  cases qs with
  | nil =>
    refine .cons rfl (hclose (Rule.parameterList.first ∪ .single .rightParen) (by decide) (by decide))
      (.skip (show Terminal.rightParen ∉ _ by decide)
        (.token rfl hb ⟨[], ?_, by simp, [], rfl, .nil⟩))
    simp [Terminal.isNamed, Rule.keepsTokens]
  | cons q qs =>
    have htext : (commaSeparated ((q :: qs).map ForwardedParameter.declaration)).toList ++ ')' :: rest =
        q.declaration.toList ++ (qs.flatMap (fun p => ',' :: ' ' :: p.declaration.toList) ++
          ')' :: rest) := by
      simp [commaSeparated, intercalate_cons_eq, List.flatMap_map]
    have hitem : ∀ p ∈ q :: qs, Rule.parameter.Accepts source (·.WordsWithin .parameterStart)
        ParameterEnds p.declaration.toList fun tree =>
          ∃ d, ParameterSyntax.ofTree? source tree = some d ∧ d.Says p := fun p hp =>
      (hqs p hp).accepts
    obtain ⟨m, hm, -, hmore⟩ := Pattern.Takes.commaRest (b := ⟨.rightParen, [')'], rest⟩)
      (fun cs => ParameterEnds.comma)
      (fun rest b h => show b.terminal ∈ TerminalSet.afterParameter ∪ .single .comma from
        TerminalSet.mem_of_isWithin (by decide) h.follows.mem) (by decide) (by intro _ _; decide)
      (fun p hp => hitem p (List.mem_cons_of_mem _ hp)) ParameterEnds.rightParen
      (show Terminal.rightParen ∈ Rule.parameterList.follow by decide)
      (show Terminal.rightParen ≠ .comma by decide)
    obtain ⟨a, ha, hlexes, hfirst⟩ := hitem q List.mem_cons_self _ m hm
    refine .cons rfl (htext ▸ hlexes (Rule.parameterList.first ∪ .single .rightParen) [] (by decide)
      (TerminalSet.mem_of_isWithin (by decide) ha) (by decide) rfl) ?_
    have hlist : (Pattern.rule .parameterList).Takes source (.single .rightParen) a
        ⟨.rightParen, [')'], rest⟩ [] (Pattern.One .parameterList fun tree =>
          ∃ ps, ParameterSyntax.among? source [tree] = some ps ∧
            List.Forall₂ ParameterSyntax.Says ps (q :: qs)) := by
      refine .one (.andThen (hfirst _ (TerminalSet.mem_of_isWithin (by decide) hm.follows.mem)) ?_)
        (show Terminal.rightParen ∈ TerminalSet.single .rightParen by decide)
      rintro _ ⟨inner, htree, rfl⟩
      refine hmore.behind.weaken ?_
      rintro _ ⟨_, ⟨trees, htrees, hkept⟩, rfl⟩
      obtain ⟨ps, hps, hsays⟩ := exists_mapM_of_forall₂
        (List.Forall₂.cons htree (htrees.imp fun _ _ h => h.1))
      refine ⟨ps, ?_, hsays.flip⟩
      rw [List.nil_append, Rule.node, List.filter_append, hkept _ rfl]
      exact hps
    refine .andThen (.some ha hlist) ?_
    rintro _ ⟨inner, hread, rfl⟩
    refine .token rfl hb ⟨_, ?_, ?_, hread⟩
    · simp [List.filter_cons, Terminal.isNamed, Rule.keepsTokens]
    · simp

end Facade
