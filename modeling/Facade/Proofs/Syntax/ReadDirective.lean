import Facade.Proofs.Grammar.Following
import Facade.Proofs.Syntax.NamesRead
import Facade.Proofs.Syntax.Written

/-!
# Directives are read as they are written

The text of a using directive is read as that directive, if the name in it is not the word that makes
another directive of it and the names in its type are read as names.

* `takes_dottedRest`, `accepts_qualifiedName`: dotted names;
* `UsingTarget.IsLegible`: directives whose names are read as names;
* **`UsingDirective.accepts`**: the text of a directive is read as that directive.
-/

namespace Facade

open Scan

variable {source : List Char}

/-! ## Dotted names -/

variable (source) in
/-- The parts of a dotted name after its first one are read. -/
theorem takes_dottedRest (names : List String) (hnames : ∀ n ∈ names, Named n) {rest : List Char}
    {b : Ahead} (hb : Follows (.ofList [.leftBrace, .semicolon]) rest b) {after : TerminalSet}
    (hafter : b.terminal ∈ after) : ∃ a,
      Follows (.ofList [.dot, .leftBrace, .semicolon]) (names.flatMap (fun n => '.' :: n.toList) ++ rest) a ∧
      (a = b ∨ a.terminal = .dot) ∧ Pattern.dottedRest.Takes source after a b [] fun new =>
        Tree.words (new.filter (Tree.isKept .qualifiedName)) = names := by
  have hitem : ∀ n ∈ names, ∀ rest b, Follows (.ofList [.dot, .leftBrace, .semicolon]) rest b → ∃ a,
      Follows (.ofList [.dot, .leftBrace, .semicolon]) ('.' :: n.toList ++ rest) a ∧
      a.terminal ∈ (Pattern.seq (.token .dot) (.token .name)).first ∧
      (Pattern.seq (.token .dot) (.token .name)).Takes source
        (.ofList [.dot, .leftBrace, .less, .leftParen, .semicolon, .arrow]) a b [] fun new =>
          Tree.words (new.filter (Tree.isKept .qualifiedName)) = [n] := fun n hn rest b hb => by
    refine ⟨⟨.dot, ['.'], n.toList ++ rest⟩, .sign (by decide) (by decide) _, TerminalSet.mem_single.mpr rfl,
      .cons rfl (lexes_name (by decide) (by decide) (hnames n hn) (readsAsName_single n)
        (show isGap [] from rfl) hb.endsWord) (.token rfl (hb.lexes (by decide) (by decide)) ?_)⟩
    simp [Terminal.isNamed, Rule.keepsTokens, Tree.words]
  obtain ⟨a, ha, hab, hmany⟩ := Pattern.Takes.many (hb.mono (by decide)) hafter
    (TerminalSet.not_mem_of_isApart (by decide) hb.mem) names hitem
  refine ⟨a, ha, hab.imp_right TerminalSet.mem_single.mp, hmany.weaken ?_⟩
  rintro _ ⟨news, hnews, rfl⟩
  clear hmany hab ha hitem hnames
  induction hnews with
  | nil => rfl
  | cons hnew _ ih => rw [List.flatten_cons, List.filter_append, Tree.words_append, hnew, ih]; rfl

theorem dottedName_node (tok : Token) {new : List Tree} {names : List String}
    (htok : tok.terminal = .name)
    (hnew : Tree.words (new.filter (Tree.isKept .qualifiedName)) = names) :
    Tree.dottedName (Tree.partsOf .qualifiedName [Rule.qualifiedName.node (.leaf tok :: new)]) =
      ".".intercalate (tok.text :: names) := by
  simp [Tree.partsOf, Tree.phrase?, Tree.isPhrase, Rule.node, htok, Terminal.isNamed,
    Tree.dottedName, Tree.words, hnew]

variable (source) in
/-- A dotted name is read where only names are admitted. -/
theorem accepts_qualifiedName {n : String} (hn : Dotted n) :
    Rule.qualifiedName.Accepts source (· = .single .name) (Follows (.ofList [.leftBrace, .semicolon]))
      n.toList fun tree => Tree.dottedName (Tree.partsOf .qualifiedName [tree]) = n := by
  obtain ⟨names, hne, hnames, rfl⟩ := hn
  obtain ⟨m, names, rfl⟩ := List.exists_cons_of_ne_nil hne
  intro rest b hb
  have hafter : b.terminal ∈ Rule.qualifiedName.follow := TerminalSet.mem_of_isWithin (by decide) hb.mem
  obtain ⟨a, ha, -, htakes⟩ := takes_dottedRest source names
    (fun n hn => hnames n (List.mem_cons_of_mem _ hn)) hb hafter
  have htext : (".".intercalate (m :: names)).toList ++ rest =
      m.toList ++ (names.flatMap (fun n => '.' :: n.toList) ++ rest) := by
    rw [toList_intercalate_eq, List.append_assoc]
    rfl
  refine ⟨⟨.name, m.toList, _⟩, (show Terminal.name ∈ _ by decide), fun B gap hB hmem hB' hgap => ?_,
    fun after hafter => .one (.cons rfl (ha.lexes (by decide) (by decide)) (htakes.behind.weaken ?_)) hafter⟩
  · rw [htext]
    exact lexes_name hB hmem (hnames m List.mem_cons_self) (hB' ▸ readsAsName_single m) hgap ha.endsWord
  · rintro _ ⟨new, hnew, rfl⟩
    have hname := dottedName_node (Ahead.token source ⟨.name, m.toList,
      names.flatMap (fun n => '.' :: n.toList) ++ rest⟩) rfl hnew
    simpa using hname

/-! ## Directives -/

/-- The names of the directive are read as names, and none as a word that makes another directive of it. -/
inductive UsingTarget.IsLegible : UsingTarget → Prop
  | space {n names} : (∀ m ∈ n :: names, Named m) → ReadsAsName (.ofList [.staticKw, .name]) n →
      IsLegible (.space (".".intercalate (n :: names)))
  | membersOf {n} : Dotted n → IsLegible (.membersOf n)
  | named {n t} : Named n → ReadsAsName (.ofList [.staticKw, .name]) n → n ≠ "global" →
      TypeSyntax.IsWritten t → t.IsReadInside → IsLegible (.alias n t)

namespace UsingDirective

theorem ofTree?_eq {inner : List Tree} {target : UsingTarget}
    (htarget : UsingTarget.ofParts? inner = some target) (hglobal : "global" ∉ Tree.words inner) :
    ∃ u, ofTree? (Rule.usingDirective.node inner) = some u ∧ u.target = target ∧ u.isGlobal = false := by
  rw [Rule.node, Tree.filter_isKept rfl]
  refine ⟨⟨target, false, (Tree.cover inner).map Extent.span⟩, ?_, rfl, rfl⟩
  simp [ofTree?, htarget, hglobal]

/-- Behind its first word the text is read as what a directive brings into scope. -/
def ReadsTarget (source text : List Char) (target : UsingTarget) : Prop :=
  ∀ rest b, Follows (.ofList [.globalKw, .usingKw, .namespaceKw]) rest b → ∃ m,
    Lexes (.ofList [.staticKw, .name]) (' ' :: (text ++ ';' :: rest)) m ∧
    ∀ tok, Token.terminal tok = .usingKw → Token.text tok = "using" →
      Pattern.usingTarget.Takes source Rule.usingDirective.follow m b [.leaf tok] fun parts =>
        UsingTarget.ofParts? parts = some target ∧ "global" ∉ Tree.words parts

theorem ofParts?_of_space {parts inner : List Tree} {n : String}
    (hparts : Tree.phrases .qualifiedName parts = [Rule.qualifiedName.node inner])
    (hname : Tree.dottedName (Tree.partsOf .qualifiedName [Rule.qualifiedName.node inner]) = n) :
    UsingTarget.ofParts? parts =
      some (if (Tree.words parts).contains "static" then .membersOf n else .space n) := by
  have hsame : Tree.partsOf .qualifiedName parts =
      Tree.partsOf .qualifiedName [Rule.qualifiedName.node inner] :=
    Tree.partsOf_congr (by simpa using hparts)
  rw [UsingTarget.ofParts?, Tree.phrase?_eq_head?, hparts, hsame, hname]
  rfl

theorem readsTarget_space {n : String} {names : List String} (hnames : ∀ m ∈ n :: names, Named m)
    (hread : ReadsAsName (.ofList [.staticKw, .name]) n) :
    ReadsTarget source (".".intercalate (n :: names)).toList (.space (".".intercalate (n :: names))) := by
  intro rest b hb
  have hsemicolon : Follows (.ofList [.leftBrace, .semicolon]) (';' :: rest) ⟨.semicolon, [';'], rest⟩ :=
    .sign (by decide) (by decide) rest
  obtain ⟨a, ha, hab, hdotted⟩ := takes_dottedRest source names
    (fun m hm => hnames m (List.mem_cons_of_mem _ hm)) hsemicolon
    (show Terminal.semicolon ∈ Rule.qualifiedName.follow by decide)
  have hnext : a.terminal ∈ TerminalSet.ofList [.equals, .dot, .semicolon] ∧ a.terminal ≠ .equals := by
    rcases hab with rfl | hab
    · exact (show Terminal.semicolon ∈ TerminalSet.ofList [.equals, .dot, .semicolon] ∧
        Terminal.semicolon ≠ .equals by decide)
    · rw [hab]
      decide
  have hlexes : Lexes (.ofList [.staticKw, .name])
      (' ' :: (n.toList ++ (names.flatMap (fun m => '.' :: m.toList) ++ ';' :: rest)))
      ⟨.name, n.toList, names.flatMap (fun m => '.' :: m.toList) ++ ';' :: rest⟩ :=
    lexes_name (by decide) (by decide) (hnames n List.mem_cons_self) hread (show isGap [' '] from rfl)
      ha.endsWord
  rw [toList_intercalate_eq, List.append_assoc]
  refine ⟨_, hlexes, fun tok hkind htok => .right (show Terminal.name ∉ _ by decide) (.cons rfl
    (ha.comes (.ofList [.equals, .dot, .semicolon]) (by decide) hnext.1)
    (.right (fun h => hnext.2 (TerminalSet.mem_single.mp h)) (.seq (R := fun parts => ∃ inner,
      parts = [.leaf tok, Rule.qualifiedName.node inner] ∧ Tree.dottedName (Tree.partsOf .qualifiedName
        [Rule.qualifiedName.node inner]) = ".".intercalate (n :: names)) (.resume [.leaf tok] _ rfl
      (hdotted.behind.weaken ?_) (show Terminal.semicolon ∈ TerminalSet.single .semicolon by decide)) ?_)))⟩
  · rintro _ ⟨new, hnew, rfl⟩
    refine ⟨_, rfl, ?_⟩
    have hname := dottedName_node (Ahead.token source ⟨.name, n.toList,
      names.flatMap (fun m => '.' :: m.toList) ++ ';' :: rest⟩) rfl hnew
    simpa using hname
  · rintro _ ⟨inner, rfl, hname⟩
    refine .token rfl (hb.lexes (by decide) (by decide)) ⟨?_, by simp [Tree.words, htok, Rule.node]⟩
    rw [ofParts?_of_space (by simp) hname]
    simp [Tree.words, htok, Rule.node, Ahead.token]

theorem readsTarget_membersOf {n : String} (hn : Dotted n) :
    ReadsTarget source ("static ".toList ++ n.toList) (.membersOf n) := by
  intro rest b hb
  have hsemicolon : Follows (.ofList [.leftBrace, .semicolon]) (';' :: rest) ⟨.semicolon, [';'], rest⟩ :=
    .sign (by decide) (by decide) rest
  obtain ⟨a, ha, hlexes, htakes⟩ := accepts_qualifiedName source hn _ _ hsemicolon
  have hstatic : Lexes (.ofList [.staticKw, .name]) (' ' :: ("static ".toList ++ n.toList ++ ';' :: rest))
      ⟨.staticKw, "static".toList, ' ' :: (n.toList ++ ';' :: rest)⟩ :=
    lexes_word (show (Terminal.staticKw, "static") ∈ _ by decide) (by decide) (by decide)
      (show isGap [' '] from rfl) (endsWord_cons (by decide) _)
  refine ⟨_, hstatic, fun tok hkind htok => .left (show Terminal.staticKw ∈ _ by decide)
    (.cons rfl (hlexes (.single .name) [' '] (by decide) ha rfl rfl)
      (.andThen (htakes (.single .semicolon) (show Terminal.semicolon ∈ _ by decide)) ?_))⟩
  rintro _ ⟨inner, hname, rfl⟩
  refine .token rfl (hb.lexes (by decide) (by decide))
    ⟨?_, by simp [Tree.words, htok, Rule.node, Ahead.token]⟩
  rw [ofParts?_of_space (by simp) hname]
  simp [Tree.words, htok, Rule.node, Ahead.token]

theorem readsTarget_alias {n : String} {t : TypeSyntax} (hn : Named n)
    (hread : ReadsAsName (.ofList [.staticKw, .name]) n) (hne : n ≠ "global") (ht : t.IsWritten)
    (hinside : t.IsReadInside) :
    ReadsTarget source (n.toList ++ (" = ".toList ++ t.text.toList)) (.alias n t) := by
  intro rest b hb
  have hend : TypeEnds .afterType (';' :: rest) ⟨.semicolon, [';'], rest⟩ :=
    TypeEnds.sign (by decide) (by decide) (by decide) rest
  have hisRead : t.IsRead source [] := TypeSyntax.isRead ht hinside.2 [] (by simp)
  obtain ⟨a, ha, hlexes, htakes⟩ := hisRead.accepts _ _ hend
  have htype : Lexes .typeStart (' ' :: (t.text.toList ++ ';' :: rest)) a := by
    simpa using hlexes .typeStart [' '] (by decide) ha hinside.1 rfl
  have hequals : Lexes (.ofList [.equals, .dot, .semicolon])
      (" = ".toList ++ t.text.toList ++ ';' :: rest)
      ⟨.equals, "=".toList, ' ' :: (t.text.toList ++ ';' :: rest)⟩ := by
    have hcomes := comes_blank (t := .equals) (w := "=") (by decide) (by decide)
        (t.text.toList ++ ';' :: rest)
    simpa using (hcomes (.ofList [.equals, .dot, .semicolon]) (by decide)
      (show Terminal.equals ∈ _ by decide)).gap
      (show isGap [' '] from rfl)
  have hname : Lexes (.ofList [.staticKw, .name])
      (' ' :: (n.toList ++ (" = ".toList ++ t.text.toList) ++ ';' :: rest))
      ⟨.name, n.toList, " = ".toList ++ t.text.toList ++ ';' :: rest⟩ := by
    have hlexes := lexes_name (by decide) (by decide) hn hread (show isGap [' '] from rfl)
      (endsWord_cons (show Text.isWord ' ' = false by decide) ("= ".toList ++ t.text.toList ++ ';' :: rest))
    simpa using hlexes
  refine ⟨_, hname, fun tok hkind htok => .right (show Terminal.name ∉ _ by decide) (.cons rfl hequals
    (.left (show Terminal.equals ∈ _ by decide) (.cons rfl htype (.andThen (htakes _ ?_) ?_))))⟩
  · exact (show Terminal.semicolon ∈ _ by decide)
  · rintro _ ⟨inner, htree, rfl⟩
    refine .token rfl (hb.lexes (by decide) (by decide)) ⟨?_, ?_⟩
    · have hamong : TypeSyntax.ofTree? (Rule.type.node inner) = some t := htree
      simp [UsingTarget.ofParts?, Tree.phrase?_eq_head?, TypeSyntax.among?, Ahead.token, hamong, hkind]
    · simp [Tree.words, htok, Rule.node, Ahead.token, hne.symm]

theorem accepts_of_readsTarget {target : UsingTarget} {text : List Char}
    (h : ReadsTarget source text target) :
    Rule.usingDirective.Accepts source (fun _ => True) (Follows (.ofList [.globalKw, .usingKw, .namespaceKw]))
      ("using ".toList ++ (text ++ [';'])) fun tree =>
        ∃ u, ofTree? tree = some u ∧ u.target = target ∧ u.isGlobal = false := by
  have htext : "using ".toList ++ (text ++ [';']) = "using".toList ++ ' ' :: (text ++ [';']) := rfl
  rw [htext]
  refine Rule.accepts_of_word (show (Terminal.usingKw, "using") ∈ _ by decide) (by decide)
    (fun _ _ => endsWord_cons (by decide) _) fun rest b hb => ?_
  obtain ⟨m, hm, htarget⟩ := h rest b hb
  have hnext : Lexes (.ofList [.staticKw, .name]) (' ' :: (text ++ [';']) ++ rest) m := by
    simpa using hm
  refine .skip (show Terminal.usingKw ∉ _ by decide)
    (.cons rfl hnext ((htarget _ rfl (by simp)).weaken fun parts hparts => ?_))
  exact ofTree?_eq hparts.1 hparts.2

/-- **The text of a directive is read as that directive.** -/
theorem accepts {u : UsingDirective} (h : u.target.IsLegible) (hglobal : u.isGlobal = false) :
    Rule.usingDirective.Accepts source (fun _ => True) (Follows (.ofList [.globalKw, .usingKw, .namespaceKw]))
      u.text.toList fun tree =>
        ∃ d, ofTree? tree = some d ∧ d.target = u.target ∧ d.isGlobal = false := by
  obtain ⟨target, isGlobal, span⟩ := u
  obtain rfl : isGlobal = false := hglobal
  simp only at h
  cases h with
  | space hnames hread =>
    simpa [text] using accepts_of_readsTarget (readsTarget_space hnames hread)
  | membersOf hn => simpa [text] using accepts_of_readsTarget (readsTarget_membersOf hn)
  | named hn hread hne hwritten hinside =>
    simpa [text] using accepts_of_readsTarget (readsTarget_alias hn hread hne hwritten hinside)

end UsingDirective

end Facade
