import Facade.Proofs.Grammar.Takes
import Facade.Proofs.Syntax.Texts

/-!
# Types are read as they are written

The text of a type is read as that type, wherever the names in it are read as names. A name may be
spelled like a word, and then it is no name where that word is admitted.

* `ReadsAsName`, `TypeSyntax.IsClear`, `TypeSyntax.IsReadable`: where the names of a type are read as
  names;
* `TypeEnds`: what can follow a type, or a part of it;
* `TypeSuffix`, `takes_suffixes`: the suffixes of a type;
* **`TypeSyntax.accepts`**: the text of a type is read as that type.
-/

namespace Facade

open Text Scan

/-- The text is read as a name where these terminals are admitted. -/
abbrev ReadsAsName (admitted : TerminalSet) (n : String) : Prop :=
  classifyName admitted n.toList = .name

theorem readsAsName_single (n : String) : ReadsAsName (.single .name) n := by
  unfold ReadsAsName classifyName
  split
  · split_ifs with h
    · exact TerminalSet.mem_single.mp h
    · rfl
  · rfl

/-- What can stand behind a part of a dotted type name. -/
def TerminalSet.nameEnd : TerminalSet := single .less ∪ afterNamePart

/-- What can follow a type, or a part of it: one of `after` comes next, and no name goes on. -/
structure TypeEnds (after : TerminalSet) (rest : List Char) (b : Ahead) : Prop where
  endsWord : EndsWord rest
  mem : b.terminal ∈ after
  lexes : Lexes .nameEnd rest b

namespace TypeEnds

variable {after B : TerminalSet} {rest : List Char} {b : Ahead}

theorem lexes_of (h : TypeEnds after rest b) (hB : B.isWithin .nameEnd) (hb : b.terminal ∈ B) :
    Lexes B rest b :=
  h.lexes.of_isWithin hB (by decide) hb

theorem mono (h : TypeEnds after rest b) (hB : after.isWithin B) : TypeEnds B rest b :=
  ⟨h.endsWord, TerminalSet.mem_of_isWithin hB h.mem, h.lexes⟩

theorem sign {t : Terminal} {c : Char} (h : (t, c) ∈ plainSigns) (ht : t ∈ after)
    (hafter : after.isWithin .nameEnd) (rest : List Char) :
    TypeEnds after (c :: rest) ⟨t, [c], rest⟩ where
  endsWord := endsWord_cons (goesOnWith_plainSigns _ h).2.2.2.1 rest
  mem := ht
  lexes := lexes_plainSign h (by decide) (TerminalSet.mem_of_isWithin hafter ht) rest (show isGap [] from rfl)

end TypeEnds

/-! ## Suffixes -/

/-- A suffix of a type. -/
inductive TypeSuffix where
  | array (rank : Nat)
  | nullable
  | pointer

namespace TypeSuffix

/-- The suffix as it is written. -/
def text : TypeSuffix → String
  | array rank => arrayBrackets rank
  | nullable => "?"
  | pointer => "*"

/-- A type with the suffix. -/
def apply (t : TypeSyntax) : TypeSuffix → TypeSyntax
  | array rank => .array t rank
  | nullable => .nullable t
  | pointer => .pointer t

/-- The suffix can be written. -/
def IsWritten : TypeSuffix → Prop
  | array rank => 1 ≤ rank
  | nullable | pointer => True

/-- The suffix is that of a tree. -/
def Becomes (suffix : TypeSuffix) (tree : Tree) : Prop :=
  ∀ t ts, TypeSyntax.withSuffixes t (tree :: ts) = TypeSyntax.withSuffixes (suffix.apply t) ts

theorem becomes_node {suffix : TypeSuffix} {inner : List Tree}
    (h : ∀ t : TypeSyntax, t.withSuffix (Tree.words inner) = some (suffix.apply t)) :
    suffix.Becomes (Rule.typeSuffix.node inner) := fun t ts => by
  rw [Rule.node, Tree.filter_isKept (r := .typeSuffix) rfl, TypeSyntax.withSuffixes, h t]
  rfl

variable {source : List Char} {rest : List Char} {b : Ahead}

/-- What stands between the brackets of an array: a comma or the closing bracket comes next. -/
structure ArrayNext (rest : List Char) (b : Ahead) : Prop where
  lexes : ∀ B : TerminalSet, B.isPlain → b.terminal ∈ B → Lexes B rest b
  mem : b.terminal = .comma ∨ b.terminal = .rightBracket
  head : rest.head?.any fun c => c == ',' || c == ']'

theorem arrayNext_sign {t : Terminal} {c : Char} (h : (t, c) ∈ [(.comma, ','), (.rightBracket, ']')])
    (rest : List Char) : ArrayNext (c :: rest) ⟨t, [c], rest⟩ := by
  have hsigns : ∀ e ∈ [(Terminal.comma, ','), (.rightBracket, ']')], e ∈ plainSigns ∧
      (e.1 = .comma ∨ e.1 = .rightBracket) ∧ (e.2 == ',' || e.2 == ']') := by decide
  obtain ⟨hmem, hterminal, hhead⟩ := hsigns _ h
  exact ⟨fun B hB ht => lexes_plainSign hmem hB ht rest (show isGap [] from rfl), hterminal, hhead⟩

theorem takes_commas (n : Nat) :
    ∃ a, ArrayNext (List.replicate n ',' ++ ']' :: rest) a ∧
      (Pattern.many (.ofList [.comma, .rightBracket]) (.token .comma)).Takes source
        (.single .rightBracket) a ⟨.rightBracket, [']'], rest⟩ [] fun new =>
          Tree.words new = List.replicate n "," := by
  have hmany : ∃ a, ArrayNext ((List.replicate n ()).flatMap (fun _ => [',']) ++ ']' :: rest) a ∧
      (a = ⟨.rightBracket, [']'], rest⟩ ∨ a.terminal ∈ (Pattern.token .comma).first) ∧
      (Pattern.many (.ofList [.comma, .rightBracket]) (.token .comma)).Takes source
        (.single .rightBracket) a ⟨.rightBracket, [']'], rest⟩ [] fun post => ∃ news,
          List.Forall₂ (fun _ new => ∃ tok, Token.text tok = "," ∧ new = [.leaf tok])
            (List.replicate n ()) news ∧ post = news.flatten :=
    Pattern.Takes.many (arrayNext_sign (by simp) rest) (TerminalSet.mem_single.mpr rfl)
      (fun h => absurd (TerminalSet.mem_single.mp h)
        (show Terminal.rightBracket ≠ .comma by decide)) _ fun _ _ rest b hb => by
        refine ⟨⟨.comma, [','], rest⟩, arrayNext_sign (by simp) rest, TerminalSet.mem_single.mpr rfl,
          .token rfl (hb.lexes _ (by decide) ?_) ⟨_, rfl, rfl⟩⟩
        rcases hb.mem with h | h <;> rw [h] <;> decide
  obtain ⟨a, hnext, -, htakes⟩ := hmany
  refine ⟨a, ?_, htakes.weaken ?_⟩
  · simpa [List.flatMap_replicate] using hnext
  · rintro _ ⟨news, hnews, rfl⟩
    clear htakes hnext
    induction n generalizing news with
    | zero =>
      cases hnews
      rfl
    | succ n ih =>
      rw [List.replicate_succ] at hnews
      cases hnews with
      | cons hnew hnews =>
        obtain ⟨tok, htok, rfl⟩ := hnew
        rw [List.replicate_succ, ← ih _ hnews, ← htok]
        rfl

/-- **A suffix is read as it is written.** -/
theorem takes (suffix : TypeSuffix) (hsuffix : suffix.IsWritten)
    (h : TypeEnds .afterTypeCore rest b) : ∃ a,
      TypeEnds .afterTypeCore (suffix.text.toList ++ rest) a ∧
      a.terminal ∈ TerminalSet.typeSuffixStart ∧
      (Pattern.rule .typeSuffix).Takes source .afterTypeCore a b []
        (Pattern.One .typeSuffix suffix.Becomes) := by
  have hlex : Lexes .afterTypeCore rest b := h.lexes_of (by decide) h.mem
  cases suffix with
  | nullable =>
    refine ⟨⟨.question, ['?'], rest⟩, TypeEnds.sign (by decide) (by decide) (by decide) rest,
      (show Terminal.question ∈ _ by decide), Pattern.Takes.one ?_ h.mem⟩
    exact .left (show Terminal.question ∈ _ by decide)
      (.token rfl hlex (becomes_node fun t => rfl))
  | pointer =>
    refine ⟨⟨.star, ['*'], rest⟩, TypeEnds.sign (by decide) (by decide) (by decide) rest,
      (show Terminal.star ∈ _ by decide), Pattern.Takes.one ?_ h.mem⟩
    exact .right (show Terminal.star ∉ _ by decide) (.right (show Terminal.star ∉ _ by decide)
      (.token rfl hlex (becomes_node fun t => rfl)))
  | array rank =>
    obtain ⟨m, hm, hcommas⟩ := @takes_commas source rest (rank - 1)
    have htext : (array rank).text.toList ++ rest =
        '[' :: (List.replicate (rank - 1) ',' ++ ']' :: rest) := by
      simp [text, arrayBrackets]
    have hopen : ∀ B : TerminalSet, B.isPlain → .leftBracket ∈ B → Lexes B ((array rank).text.toList ++ rest)
        ⟨.leftBracket, ['['], List.replicate (rank - 1) ',' ++ ']' :: rest⟩ := fun B hB ht =>
      htext ▸ lexes_leftBracket hB ht (show isGap [] from rfl) hm.head
    refine ⟨⟨.leftBracket, ['['], List.replicate (rank - 1) ',' ++ ']' :: rest⟩,
      ⟨htext ▸ endsWord_cons (by decide) _, (show Terminal.leftBracket ∈ _ by decide),
        hopen _ (by decide) (by decide)⟩, (show Terminal.leftBracket ∈ _ by decide),
      Pattern.Takes.one ?_ h.mem⟩
    refine .right (show Terminal.leftBracket ∉ _ by decide) (.left (show Terminal.leftBracket ∈ _ by decide)
      (.cons rfl (hm.lexes _ (by decide) ?_) (.andThen hcommas fun new hnew =>
        .token rfl hlex (becomes_node fun t => ?_))))
    · rcases hm.mem with h | h <;> rw [h] <;> decide
    · have hrank : 1 ≤ rank := hsuffix
      have hcount : (List.replicate (rank - 1) "," ++ ["]"]).count "," + 1 = rank := by
        rw [List.count_append, List.count_replicate_self]
        simpa using Nat.sub_add_cancel hrank
      rw [Tree.words_append, Tree.words_append, hnew]
      change some (TypeSyntax.array t ((List.replicate (rank - 1) "," ++ ["]"]).count "," + 1)) = _
      rw [hcount]
      rfl

end TypeSuffix

variable {source : List Char}

/-- **The suffixes of a type are read as they are written.** -/
theorem takes_suffixes {rest : List Char} {b : Ahead} (suffixes : List TypeSuffix)
    (hsuffixes : ∀ s ∈ suffixes, s.IsWritten) (h : TypeEnds .afterType rest b) : ∃ a,
      TypeEnds .afterTypeCore (suffixes.flatMap (fun s => s.text.toList) ++ rest) a ∧
      (a = b ∨ a.terminal ∈ TerminalSet.typeSuffixStart) ∧
      (Pattern.many .afterTypeCore (.rule .typeSuffix)).Takes source .afterType a b [] fun post =>
        (∀ tree ∈ post, tree.isPhrase .typeSuffix) ∧
        ∀ t, TypeSyntax.withSuffixes t post = some (suffixes.foldl TypeSuffix.apply t) := by
  have hmany : ∃ a, TypeEnds .afterTypeCore
        (suffixes.flatMap (fun s => s.text.toList) ++ rest) a ∧
      (a = b ∨ a.terminal ∈ TerminalSet.typeSuffixStart) ∧
      (Pattern.many .afterTypeCore (.rule .typeSuffix)).Takes source .afterType a b [] fun post =>
        ∃ news, List.Forall₂ (fun s => Pattern.One .typeSuffix (TypeSuffix.Becomes s)) suffixes news ∧
          post = news.flatten :=
    Pattern.Takes.many (p := .rule .typeSuffix) (h.mono (by decide)) h.mem
      (TerminalSet.not_mem_of_isApart (by decide) h.mem) suffixes fun s hs rest b hb =>
        s.takes (hsuffixes s hs) hb
  obtain ⟨a, hnext, ha, htakes⟩ := hmany
  refine ⟨a, hnext, ha, htakes.weaken ?_⟩
  rintro _ ⟨news, hnews, rfl⟩
  clear htakes hnext hsuffixes
  induction hnews with
  | nil => exact ⟨by simp, fun t => rfl⟩
  | @cons s new ss news hnew _ ih =>
    obtain ⟨inner, hbecomes, rfl⟩ := hnew
    refine ⟨?_, fun t => ?_⟩
    · intro tree htree
      rcases List.mem_append.mp htree with htree | htree
      · rw [List.mem_singleton.mp htree]
        rfl
      · exact ih.1 tree htree
    · exact (hbecomes t news.flatten).trans (ih.2 (s.apply t))

/-! ## Where the names of a type are read -/

/-- The name that a type begins with, if it begins with one. -/
def TypeSyntax.firstName? : TypeSyntax → Option String
  | .named false (q :: _) => some q.name
  | .array e _ | .nullable e | .pointer e => e.firstName?
  | _ => none

/-- The name that a type begins with is read as a name where these terminals are admitted. -/
def TypeSyntax.IsClear (t : TypeSyntax) (admitted : TerminalSet) : Prop :=
  ∀ n ∈ t.firstName?, ReadsAsName admitted n

/-- All names in a type but its first one are read as names where they stand. -/
inductive TypeSyntax.IsReadable : TypeSyntax → Prop
  | predefined {k} : IsReadable (.predefined k)
  | named {isGlobal parts} : (∀ q ∈ parts, ∀ a ∈ NamePart.arguments q, a.IsClear .typeStart) →
      (∀ q ∈ parts, ∀ a ∈ NamePart.arguments q, IsReadable a) → IsReadable (.named isGlobal parts)
  | array {e rank} : IsReadable e → IsReadable (.array e rank)
  | nullable {e} : IsReadable e → IsReadable (.nullable e)
  | pointer {e} : IsReadable e → IsReadable (.pointer e)
  | tuple {es} : (∀ e ∈ es, (Prod.fst e).IsClear .typeStart) → (∀ e ∈ es, IsReadable (Prod.fst e)) →
      (∀ e ∈ es, ∀ n ∈ e.2, ReadsAsName .nameEnd n) → IsReadable (.tuple es)

/-- The text is read as this type, with more suffixes. If it begins with a name, that name may have been
read before what the type belongs to is known. -/
structure TypeSyntax.IsRead (source : List Char) (t : TypeSyntax) (suffixes : List TypeSuffix) :
    Prop where
  accepts : Rule.type.Accepts source t.IsClear (TypeEnds .afterType)
    (t.text.toList ++ suffixes.flatMap fun s => s.text.toList)
    fun tree => TypeSyntax.ofTree? tree = some (suffixes.foldl TypeSuffix.apply t)
  goesOn : ∀ n ∈ t.firstName?, Named n ∧ ∃ tail, t.text.toList = n.toList ++ tail ∧
    ∀ rest b, TypeEnds .afterType rest b → ∃ a,
      TypeEnds .nameEnd (tail ++ (suffixes.flatMap fun s => s.text.toList) ++ rest) a ∧
      (a = b ∨ a.terminal ∈ TerminalSet.ofList [.less, .dot, .question, .leftBracket, .star]) ∧
      ∀ tok after, Token.terminal tok = .name → tok.text = n → b.terminal ∈ after →
        Pattern.typeAfterName.Takes source after a b [.leaf tok] (Pattern.One .type fun tree =>
          TypeSyntax.ofTree? tree = some (suffixes.foldl TypeSuffix.apply t))

/-! ## Lists of types -/

theorem ofTrees?_eq {ts : List TypeSyntax} {trees : List Tree}
    (h : List.Forall₂ (fun t tree => TypeSyntax.ofTree? tree = some t) ts trees) :
    TypeSyntax.ofTrees? trees = some ts := by
  induction h with
  | nil => rfl
  | cons ht _ ih => simp [TypeSyntax.ofTrees?, ht, ih]

/-- The elements of a list between brackets. -/
def TerminalSet.listEnd (close : Terminal) : TerminalSet := single close ∪ single .comma

/-- **Type arguments are read.** -/
theorem accepts_typeArguments (t : TypeSyntax) (ts : List TypeSyntax)
    (hclear : ∀ u ∈ t :: ts, u.IsClear .typeStart) (hread : ∀ u ∈ t :: ts, u.IsRead source []) :
    Rule.typeArgumentList.Accepts source (fun _ => True) (TypeEnds .afterNamePart)
      ('<' :: (t.text.toList ++ ts.flatMap (fun u => ',' :: ' ' :: u.text.toList) ++ ['>']))
      fun tree => ∃ children extent, tree = .node .typeArgumentList children extent ∧
        TypeSyntax.ofTrees? children = some (t :: ts) := by
  intro rest b hb
  have hitem : ∀ u ∈ t :: ts, Rule.type.Accepts source u.IsClear
      (TypeEnds (.listEnd .greater)) u.text.toList
      fun tree => TypeSyntax.ofTree? tree = some u := fun u hu => by
    simpa using (hread u hu).accepts.mono (fun _ h => h) fun _ _ h => h.mono (by decide)
  obtain ⟨m, hm, -, hmore⟩ := Pattern.Takes.commaRest (b := ⟨.greater, ['>'], rest⟩)
    (fun cs => TypeEnds.sign (by decide) (by decide) (by decide) _) (fun rest b h => h.mem)
    (by decide) (fun u hu => hclear u (List.mem_cons_of_mem _ hu))
    (fun u hu => hitem u (List.mem_cons_of_mem _ hu))
    (TypeEnds.sign (by decide) (by decide) (by decide) rest) (TerminalSet.mem_single.mpr rfl)
    (show Terminal.greater ≠ .comma by decide)
  obtain ⟨a, ha, hlex, hfirst⟩ := hitem t List.mem_cons_self _ m hm
  have htype := hlex .typeStart [] (by decide) ha (hclear t List.mem_cons_self) rfl
  refine ⟨⟨.less, ['<'], t.text.toList ++ ts.flatMap (fun u => ',' :: ' ' :: u.text.toList) ++ ['>'] ++
      rest⟩, (show Terminal.less ∈ _ by decide),
    fun B gap hB hmem _ hgap =>
      lexes_plainSign (show (Terminal.less, '<') ∈ plainSigns by decide) hB hmem _ hgap,
    fun after hafter => .one ?_ hafter⟩
  refine .cons rfl (show Lexes .typeStart _ a by simpa using htype)
    (.andThen (hfirst _ (TerminalSet.mem_of_isWithin (by decide) hm.mem)) ?_)
  rintro _ ⟨inner, htree, rfl⟩
  refine .andThen hmore ?_
  rintro post ⟨trees, htrees, hkept⟩
  refine .token rfl (hb.lexes_of (by decide) hb.mem) ⟨_, _, rfl, ?_⟩
  have hlist : TypeSyntax.ofTrees? (Rule.type.node inner :: trees) = some (t :: ts) :=
    ofTrees?_eq (.cons htree (htrees.imp fun _ _ h => h.1))
  rw [List.filter_append, List.filter_append, hkept _ rfl]
  simpa [List.filter_cons, Terminal.isNamed, Rule.keepsTokens] using hlist

/-! ## Dotted names -/

theorem toList_intercalate_eq (sep item : String) (items : List String) :
    (sep.intercalate (item :: items)).toList =
      item.toList ++ items.flatMap fun i => sep.toList ++ i.toList := by
  rw [String.toList_intercalate, List.map_cons, intercalate_cons_eq, List.flatMap_map]

namespace NamePart

/-- The type arguments of the part as they are written behind its name. -/
def argumentText (q : NamePart) : List Char :=
  match q.arguments with
  | [] => []
  | t :: ts => '<' :: (t.text.toList ++ ts.flatMap (fun u => ',' :: ' ' :: u.text.toList) ++ ['>'])

theorem toList_text (q : NamePart) : q.text.toList = q.name.toList ++ q.argumentText := by
  obtain ⟨n, as⟩ := q
  rw [text, TypeSyntax.texts_eq_map]
  cases as with
  | nil => simp [withArguments, argumentText, arguments, name]
  | cons t ts =>
    simp [withArguments, argumentText, arguments, name, commaSeparated, intercalate_cons_eq,
      List.flatMap_map]

/-- The part is that of a tree. -/
def Becomes (q : NamePart) (tree : Tree) : Prop :=
  ∀ trees qs, ofTrees? trees = some qs → ofTrees? (tree :: trees) = some (q :: qs)

/-- **The type arguments behind a name are read.** -/
theorem takes_arguments (q : NamePart) (hclear : ∀ u ∈ q.arguments, u.IsClear .typeStart)
    (hread : ∀ u ∈ q.arguments, u.IsRead source []) {rest : List Char} {b : Ahead}
    (hb : TypeEnds .afterNamePart rest b) : ∃ a, TypeEnds .nameEnd (q.argumentText ++ rest) a ∧
      (a = b ∨ a.terminal = .less) ∧
      ∀ tok, Token.terminal tok = .name → tok.text = q.name →
        (Pattern.opt (.rule .typeArgumentList)).Takes source .afterNamePart a b [.leaf tok]
          fun inner => q.Becomes (Rule.simpleName.node inner) := by
  obtain ⟨n, as⟩ := q
  cases as with
  | nil =>
    refine ⟨b, hb.mono (by decide), Or.inl rfl, fun tok hname htext => ?_⟩
    refine .none (TerminalSet.not_mem_of_isApart (by decide) hb.mem) fun trees qs h => ?_
    simp [Rule.node, hname, Terminal.isNamed, ofTrees?, h, htext, name]
  | cons t ts =>
    obtain ⟨a, ha, hlex, htakes⟩ := accepts_typeArguments t ts hclear hread rest b hb
    have hless : a.terminal = .less := TerminalSet.mem_single.mp ha
    refine ⟨a, ⟨endsWord_cons (by decide) _, ?_, ?_⟩, Or.inr hless, fun tok hname htext => ?_⟩
    · rw [hless]
      decide
    · exact hlex .nameEnd [] (by decide) (by rw [hless]; decide) trivial rfl
    · refine .some ha ((htakes _ hb.mem).behind.weaken ?_)
      rintro _ ⟨_, ⟨inner, ⟨children, extent, htree, harguments⟩, rfl⟩, rfl⟩ trees qs h
      rw [htree]
      simp [Rule.node, List.filter_cons, hname, Terminal.isNamed, ofTrees?, harguments, h, htext,
        name]

/-- A part that begins with a name. -/
theorem accepts (q : NamePart) (hname : Named q.name)
    (hclear : ∀ u ∈ q.arguments, u.IsClear .typeStart) (hread : ∀ u ∈ q.arguments, u.IsRead source []) :
    Rule.simpleName.Accepts source (ReadsAsName · q.name) (TypeEnds .afterNamePart) q.text.toList
      q.Becomes := by
  intro rest b hb
  obtain ⟨m, hm, hmb, harguments⟩ := q.takes_arguments hclear hread hb
  have hends : EndsWord (q.argumentText ++ rest) := hm.endsWord
  refine ⟨⟨.name, q.name.toList, q.argumentText ++ rest⟩, (show Terminal.name ∈ _ by decide),
    fun B gap hB hmem hn hgap => ?_, fun after hafter => .one ?_ hafter⟩
  · rw [toList_text, List.append_assoc]
    exact lexes_name hB hmem hname hn hgap hends
  · refine .cons rfl (hm.lexes_of (by decide) ?_) (harguments _ rfl (by simp))
    rcases hmb with rfl | hmb
    · exact TerminalSet.mem_union.mpr (Or.inr hb.mem)
    · rw [hmb]
      decide

theorem ofTrees?_eq {qs : List NamePart} {trees : List Tree}
    (h : List.Forall₂ (fun q tree => NamePart.Becomes q tree ∧ tree.isPhrase .simpleName) qs trees) :
    ofTrees? trees = some qs := by
  induction h with
  | nil => rfl
  | cons hq _ ih => exact hq.1 _ _ ih

theorem takes_dotted (qs : List NamePart) (hnames : ∀ q ∈ qs, Named q.name)
    (hclear : ∀ q ∈ qs, ∀ u ∈ q.arguments, u.IsClear .typeStart)
    (hread : ∀ q ∈ qs, ∀ u ∈ q.arguments, u.IsRead source []) {rest : List Char} {b : Ahead}
    (hb : TypeEnds .afterTypeCore rest b) : ∃ a,
      TypeEnds .afterNamePart (qs.flatMap (fun q => '.' :: q.text.toList) ++ rest) a ∧
      (a = b ∨ a.terminal = .dot) ∧
      (Pattern.many .afterNamePart (.seq (.token .dot) (.rule .simpleName))).Takes source
        .afterTypeCore a b [] fun post =>
          ofTrees? (post.filter (Tree.isKept .namedType)) = some qs := by
  have hmany : ∃ a,
      TypeEnds .afterNamePart (qs.flatMap (fun q => '.' :: q.text.toList) ++ rest) a ∧
      (a = b ∨ a.terminal ∈ (Pattern.seq (.token .dot) (.rule .simpleName)).first) ∧
      (Pattern.many .afterNamePart (.seq (.token .dot) (.rule .simpleName))).Takes source
        .afterTypeCore a b [] fun post => ∃ news,
          List.Forall₂ (fun q new => ∃ tok inner, Token.terminal tok = .dot ∧
            NamePart.Becomes q (Rule.simpleName.node inner) ∧
            new = [.leaf tok, Rule.simpleName.node inner]) qs news ∧ post = news.flatten :=
    Pattern.Takes.many (p := .seq (.token .dot) (.rule .simpleName)) (hb.mono (by decide)) hb.mem
      (TerminalSet.not_mem_of_isApart (by decide) hb.mem) qs fun q hq rest b hb => by
        obtain ⟨a, ha, hlex, htakes⟩ := q.accepts (hnames q hq) (hclear q hq) (hread q hq) rest b hb
        refine ⟨⟨.dot, ['.'], q.text.toList ++ rest⟩,
          TypeEnds.sign (show (Terminal.dot, '.') ∈ _ by decide) (by decide) (by decide) _,
          TerminalSet.mem_single.mpr rfl, .cons rfl
            (hlex (.single .name) [] (by decide) ha (readsAsName_single _) rfl) ?_⟩
        refine (htakes _ hb.mem).behind.weaken ?_
        rintro _ ⟨_, ⟨inner, hq, rfl⟩, rfl⟩
        exact ⟨_, inner, rfl, hq, rfl⟩
  obtain ⟨a, hnext, ha, htakes⟩ := hmany
  refine ⟨a, hnext, ha.imp_right fun h => TerminalSet.mem_single.mp h, htakes.weaken ?_⟩
  rintro _ ⟨news, hnews, rfl⟩
  obtain ⟨trees, htrees, hkept⟩ := Pattern.Takes.filter_divided rfl hnews
  rw [hkept _ rfl]
  exact ofTrees?_eq htrees

end NamePart

/-! ## Types without suffixes -/

theorem ofTree?_eq {r : Rule} {inner post : List Tree} {t u : TypeSyntax}
    (hbase : TypeSyntax.ofBase? (r.node inner) = some t)
    (hphrases : ∀ tree ∈ post, tree.isPhrase .typeSuffix)
    (hsuffixes : TypeSyntax.withSuffixes t post = some u) :
    TypeSyntax.ofTree? (Rule.type.node (r.node inner :: post)) = some u := by
  have hkept : post.filter (Tree.isKept .type) = post := List.filter_eq_self.mpr fun tree htree => by
    have hphrase := hphrases tree htree
    cases tree with
    | leaf => cases hphrase
    | node => rfl
  rw [Rule.node, List.filter_cons_of_pos rfl, hkept, TypeSyntax.ofTree?, hbase]
  exact hsuffixes

theorem accepts_of_base {r : Rule} (hr : r ∈ [.namedType, .predefinedType, .tupleType])
    {t : TypeSyntax} {Clear : TerminalSet → Prop} {text : List Char}
    (h : r.Accepts source Clear (TypeEnds .afterTypeCore) text
      fun tree => TypeSyntax.ofBase? tree = some t)
    (suffixes : List TypeSuffix) (hsuffixes : ∀ s ∈ suffixes, s.IsWritten) :
    Rule.type.Accepts source Clear (TypeEnds .afterType)
      (text ++ suffixes.flatMap fun s => s.text.toList)
      fun tree => TypeSyntax.ofTree? tree = some (suffixes.foldl TypeSuffix.apply t) := by
  intro rest b hb
  obtain ⟨m, hm, -, hmore⟩ := takes_suffixes suffixes hsuffixes hb
  obtain ⟨a, ha, hlex, htakes⟩ := h _ m hm
  have hany : (Pattern.any (.rule .namedType) [.rule .predefinedType, .rule .tupleType]).Takes
      source .afterTypeCore a m [] (Pattern.One r fun tree => TypeSyntax.ofBase? tree = some t) := by
    simp only [List.mem_cons, List.not_mem_nil, or_false] at hr
    rcases hr with rfl | rfl | rfl
    · exact .left ha (htakes _ hm.mem)
    · exact .right (TerminalSet.not_mem_of_isApart (by decide) ha) (.left ha (htakes _ hm.mem))
    · exact .right (TerminalSet.not_mem_of_isApart (by decide) ha)
        (.right (TerminalSet.not_mem_of_isApart (by decide) ha) (htakes _ hm.mem))
  refine ⟨a, ?_, fun B gap hB hmem hclear hgap => ?_, fun after hafter => .one ?_ hafter⟩
  · have hfirst : ∀ q ∈ [Rule.namedType, .predefinedType, .tupleType],
        q.first.isWithin Rule.type.first := by decide
    exact TerminalSet.mem_of_isWithin (hfirst r hr) ha
  · simpa using hlex B gap hB hmem hclear hgap
  · refine .andThen hany ?_
    rintro _ ⟨inner, hbase, rfl⟩
    refine hmore.behind.weaken ?_
    rintro _ ⟨post, ⟨hphrases, happly⟩, rfl⟩
    exact ofTree?_eq hbase hphrases (happly t)

theorem accepts_predefined {k : String} (hk : k ∈ predefinedWords) :
    Rule.predefinedType.Accepts source (fun _ => True) (TypeEnds .afterTypeCore) k.toList
      fun tree => TypeSyntax.ofBase? tree = some (.predefined k) := by
  have hwords : ∀ k ∈ predefinedWords, ∃ e ∈ Terminal.words, e.2 = k ∧
      e.1 ∈ Rule.predefinedType.body.first := by
    decide
  obtain ⟨⟨t, w⟩, hmem, rfl, hfirst⟩ := hwords k hk
  intro rest b hb
  refine ⟨⟨t, w.toList, rest⟩, hfirst, fun B gap hB hmem' _ hgap =>
    lexes_word hmem hB hmem' hgap hb.endsWord, fun after hafter => .one ?_ hafter⟩
  refine .oneOf hfirst (hb.lexes_of (by decide) hb.mem) ?_
  simp [Rule.node, Rule.keepsTokens, TypeSyntax.ofBase?]

theorem ofBase?_eq {q : NamePart} {qs : List NamePart} {inner post : List Tree}
    (hq : q.Becomes (Rule.simpleName.node inner))
    (hqs : NamePart.ofTrees? (post.filter (Tree.isKept .namedType)) = some qs) :
    TypeSyntax.ofBase? (Rule.namedType.node (Rule.simpleName.node inner :: post)) =
      some (.named false (q :: qs)) := by
  change (do return TypeSyntax.named false (← NamePart.ofTrees? (Rule.simpleName.node inner ::
    post.filter (Tree.isKept .namedType)))) = _
  rw [hq _ _ hqs]
  rfl

section

variable {q : NamePart} {qs : List NamePart} (hnames : ∀ p ∈ q :: qs, Named p.name)
  (hclear : ∀ p ∈ q :: qs, ∀ u ∈ p.arguments, u.IsClear .typeStart)
  (hread : ∀ p ∈ q :: qs, ∀ u ∈ p.arguments, u.IsRead source [])

include hnames hclear hread

theorem accepts_named : Rule.namedType.Accepts source (ReadsAsName · q.name)
    (TypeEnds .afterTypeCore) (q.text.toList ++ qs.flatMap fun p => '.' :: p.text.toList)
    fun tree => TypeSyntax.ofBase? tree = some (.named false (q :: qs)) := by
  intro rest b hb
  obtain ⟨m, hm, -, hmore⟩ := NamePart.takes_dotted qs
    (fun p hp => hnames p (List.mem_cons_of_mem _ hp))
    (fun p hp => hclear p (List.mem_cons_of_mem _ hp))
    (fun p hp => hread p (List.mem_cons_of_mem _ hp)) hb
  obtain ⟨a, ha, hlex, htakes⟩ := q.accepts (hnames q List.mem_cons_self)
    (hclear q List.mem_cons_self) (hread q List.mem_cons_self) _ m hm
  refine ⟨a, TerminalSet.mem_of_isWithin (by decide) ha, fun B gap hB hmem hn hgap => ?_,
    fun after hafter => .one (.skip ?_ (.andThen (htakes _ ?_) ?_)) hafter⟩
  · simpa using hlex B gap hB hmem hn hgap
  · exact TerminalSet.not_mem_of_isApart (by decide) ha
  · exact TerminalSet.mem_of_isWithin (by decide) hm.mem
  · rintro _ ⟨inner, hq, rfl⟩
    refine hmore.behind.weaken ?_
    rintro _ ⟨post, hqs, rfl⟩
    exact ofBase?_eq hq hqs

theorem accepts_globalNamed : Rule.namedType.Accepts source (fun _ => True)
    (TypeEnds .afterTypeCore)
    ("global::".toList ++ (q.text.toList ++ qs.flatMap fun p => '.' :: p.text.toList))
    fun tree => TypeSyntax.ofBase? tree = some (.named true (q :: qs)) := by
  intro rest b hb
  obtain ⟨m, hm, -, hmore⟩ := NamePart.takes_dotted qs
    (fun p hp => hnames p (List.mem_cons_of_mem _ hp))
    (fun p hp => hclear p (List.mem_cons_of_mem _ hp))
    (fun p hp => hread p (List.mem_cons_of_mem _ hp)) hb
  obtain ⟨a, ha, hlex, htakes⟩ := q.accepts (hnames q List.mem_cons_self)
    (hclear q List.mem_cons_self) (hread q List.mem_cons_self) _ m hm
  have hname := hlex (.single .name) [] (by decide) ha (readsAsName_single _) rfl
  have htext : "global::".toList ++ (q.text.toList ++ qs.flatMap fun p => '.' :: p.text.toList) ++
      rest = "global".toList ++ (':' :: ':' :: (q.text.toList ++
        (qs.flatMap (fun p => '.' :: p.text.toList) ++ rest))) := by
    simp
  have hnone : goesOnWith "::".toList = [] := by decide
  have hcolons : ∀ cs, Lexes (.single .doubleColon) ("::".toList ++ cs)
      ⟨.doubleColon, "::".toList, cs⟩ := fun cs =>
    lexes_sign (t := .doubleColon) (w := "::") (by decide) (by decide) (by decide) (show isGap [] from rfl)
      (by rw [hnone]; simp) (by simp)
  refine ⟨⟨.globalKw, "global".toList, ':' :: ':' :: (q.text.toList ++
    (qs.flatMap (fun p => '.' :: p.text.toList) ++ rest))⟩, (show Terminal.globalKw ∈ _ by decide),
    fun B gap hB hmem _ hgap => ?_, fun after hafter => .one (.andThen (.some ?_ (.one
      (T := fun _ => True) (.cons rfl (hcolons _) (.token rfl hname trivial)) ha)) ?_) hafter⟩
  · rw [htext]
    exact lexes_word (show (Terminal.globalKw, "global") ∈ _ by decide) hB hmem hgap
      (endsWord_cons (by decide) _)
  · exact (show Terminal.globalKw ∈ _ by decide)
  · rintro _ ⟨inner, -, rfl⟩
    refine .andThen (htakes _ (TerminalSet.mem_of_isWithin (by decide) hm.mem)) ?_
    rintro _ ⟨inner', hq, rfl⟩
    refine hmore.behind.weaken ?_
    rintro _ ⟨post, hqs, rfl⟩
    change (do return TypeSyntax.named true (← NamePart.ofTrees? (Rule.simpleName.node inner' ::
      post.filter (Tree.isKept .namedType)))) = _
    rw [hq _ _ hqs]
    rfl

end

/-! ## Tuples -/

/-- An element of a tuple, with its name if it has one. -/
abbrev TupleElement := TypeSyntax × Option String

namespace TupleElement

/-- The element as it is written. -/
def text (e : TupleElement) : String := withElementName e.1.text e.2

/-- The element is that of a tree. -/
def Becomes (e : TupleElement) (tree : Tree) : Prop :=
  ∀ trees es, TypeSyntax.ofElements? trees = some es →
    TypeSyntax.ofElements? (tree :: trees) = some (e :: es)

theorem accepts (e : TupleElement) (hread : e.1.IsRead source []) (hname : ∀ n ∈ e.2, Named n)
    (hclear : ∀ n ∈ e.2, ReadsAsName .nameEnd n) :
    Rule.tupleElement.Accepts source e.1.IsClear (TypeEnds (.listEnd .rightParen)) e.text.toList
      e.Becomes := by
  obtain ⟨t, n⟩ := e
  intro rest b hb
  cases n with
  | none =>
    obtain ⟨a, ha, hlex, htakes⟩ := hread.accepts rest b (hb.mono (by decide))
    refine ⟨a, ha, fun B gap hB hmem hn hgap => ?_, fun after hafter => .one (.andThen
      (htakes _ (TerminalSet.mem_of_isWithin (by decide) hb.mem)) ?_) hafter⟩
    · simpa [text, withElementName] using hlex B gap hB hmem hn hgap
    · rintro _ ⟨inner, htree, rfl⟩
      refine .none (TerminalSet.not_mem_of_isApart (by decide) hb.mem) fun trees es h => ?_
      rw [Rule.node, List.nil_append, List.filter_cons_of_pos rfl]
      simp [TypeSyntax.ofElements?, htree, h]
  | some n =>
    have hn : Named n := hname n rfl
    have htext : (TupleElement.text (t, some n)).toList = t.text.toList ++ ' ' :: n.toList := by
      have hne : n.isEmpty = false := by
        have := hn.ne_nil
        simpa using this
      simp [text, withElementName, hne]
    have hlexn : Lexes .nameEnd (' ' :: (n.toList ++ rest)) ⟨.name, n.toList, rest⟩ :=
      lexes_name (by decide) (by decide) hn (hclear n rfl) (show isGap [' '] from rfl) hb.endsWord
    obtain ⟨a, ha, hlex, htakes⟩ := hread.accepts (' ' :: (n.toList ++ rest))
      ⟨.name, n.toList, rest⟩ ⟨endsWord_cons (by decide) _, (show Terminal.name ∈ _ by decide), hlexn⟩
    refine ⟨a, ha, fun B gap hB hmem hn hgap => ?_, fun after hafter => .one (.andThen
      (htakes _ (show Terminal.name ∈ _ by decide)) ?_) hafter⟩
    · simpa [htext] using hlex B gap hB hmem hn hgap
    · rintro _ ⟨inner, htree, rfl⟩
      refine .some (show Terminal.name ∈ _ by decide)
        (.token rfl (hb.lexes_of (by decide) hb.mem) fun trees es h => ?_)
      rw [Rule.node, List.nil_append, List.singleton_append, List.filter_cons_of_pos rfl]
      simp [TypeSyntax.ofElements?, htree, h, Terminal.isNamed]

theorem ofElements?_eq {es : List TupleElement} {trees : List Tree}
    (h : List.Forall₂ (fun e tree => TupleElement.Becomes e tree ∧ tree.isPhrase .tupleElement)
      es trees) : TypeSyntax.ofElements? trees = some es := by
  induction h with
  | nil => rfl
  | cons he _ ih => exact he.1 _ _ ih

end TupleElement

theorem accepts_tuple (e f : TupleElement) (es : List TupleElement)
    (hread : ∀ g ∈ e :: f :: es, g.1.IsRead source [])
    (hclear : ∀ g ∈ e :: f :: es, g.1.IsClear .typeStart)
    (hnames : ∀ g ∈ e :: f :: es, ∀ n ∈ g.2, Named n ∧ ReadsAsName .nameEnd n) :
    Rule.tupleType.Accepts source (fun _ => True) (TypeEnds .afterTypeCore)
      ('(' :: (e.text.toList ++ (f :: es).flatMap (fun g => ',' :: ' ' :: g.text.toList) ++ [')']))
      fun tree => TypeSyntax.ofBase? tree = some (.tuple (e :: f :: es)) := by
  intro rest b hb
  have hitem : ∀ g ∈ e :: f :: es, Rule.tupleElement.Accepts source g.1.IsClear
      (TypeEnds (.listEnd .rightParen)) g.text.toList g.Becomes := fun g hg =>
    g.accepts (hread g hg) (fun n hn => (hnames g hg n hn).1) fun n hn => (hnames g hg n hn).2
  obtain ⟨m, hm, hcomma, hmore⟩ := Pattern.Takes.plus (b := ⟨.rightParen, [')'], rest⟩)
    (p := .seq (.token .comma) (.rule .tupleElement))
    (TypeEnds.sign (by decide) (by decide) (by decide) rest)
    (show Terminal.rightParen ∈ TerminalSet.single .rightParen by decide)
    (show Terminal.rightParen ∉ TerminalSet.single .comma by decide) f es
    (Pattern.Takes.commaItem
      (fun cs => TypeEnds.sign (by decide) (by decide) (by decide) _)
      (fun rest b h => show b.terminal ∈ TerminalSet.ofList [.comma, .rightParen] from h.mem)
      (by decide) (fun g hg => hclear g (List.mem_cons_of_mem _ hg))
      (fun g hg => hitem g (List.mem_cons_of_mem _ hg)))
  obtain ⟨a, ha, hlex, hfirst⟩ := hitem e List.mem_cons_self _ m hm
  have hopen := hlex .typeStart [] (by decide) ha (hclear e List.mem_cons_self) rfl
  refine ⟨⟨.leftParen, ['('], e.text.toList ++ (f :: es).flatMap (fun g => ',' :: ' ' ::
      g.text.toList) ++ [')'] ++ rest⟩, (show Terminal.leftParen ∈ _ by decide),
    fun B gap hB hmem _ hgap =>
      lexes_plainSign (show (Terminal.leftParen, '(') ∈ plainSigns by decide) hB hmem _ hgap,
    fun after hafter => .one ?_ hafter⟩
  refine .cons rfl (show Lexes .typeStart _ a by simpa using hopen)
    (.andThen (hfirst _ hcomma) ?_)
  rintro _ ⟨inner, htree, rfl⟩
  refine .andThen hmore ?_
  rintro _ ⟨news, hnews, rfl⟩
  obtain ⟨trees, htrees, hkept⟩ := Pattern.Takes.filter_divided rfl hnews
  refine .token rfl (hb.lexes_of (by decide) hb.mem) ?_
  have hlist : TypeSyntax.ofElements? (Rule.tupleElement.node inner :: trees) =
      some (e :: f :: es) := TupleElement.ofElements?_eq (.cons ⟨htree, rfl⟩ htrees)
  rw [Rule.node, List.filter_append, List.filter_append, hkept _ rfl]
  simp [List.filter_cons, Terminal.isNamed, Rule.keepsTokens, TypeSyntax.ofBase?, hlist]

/-! ## All types -/

namespace TypeSuffix

theorem toList_text_apply (s : TypeSuffix) (t : TypeSyntax) :
    (s.apply t).text.toList = t.text.toList ++ s.text.toList := by
  cases s <;> simp [apply, TypeSyntax.text, text]

theorem firstName?_apply (s : TypeSuffix) (t : TypeSyntax) :
    (s.apply t).firstName? = t.firstName? := by
  cases s <;> simp [apply, TypeSyntax.firstName?]

theorem isRead {s : TypeSuffix} {t : TypeSyntax} {suffixes : List TypeSuffix}
    (h : t.IsRead source (s :: suffixes)) : (s.apply t).IsRead source suffixes where
  accepts := by
    have hclear : (s.apply t).IsClear = t.IsClear := by
      funext admitted
      simp only [TypeSyntax.IsClear, firstName?_apply]
    rw [toList_text_apply, hclear]
    simpa using h.accepts
  goesOn n hn := by
    rw [firstName?_apply] at hn
    obtain ⟨hname, tail, htail, hgoes⟩ := h.goesOn n hn
    refine ⟨hname, tail ++ s.text.toList, ?_, fun rest b hb => ?_⟩
    · rw [toList_text_apply, htail, List.append_assoc]
    · simpa using hgoes rest b hb

end TypeSuffix

namespace TypeSyntax

theorem toList_text_named (isGlobal : Bool) (q : NamePart) (qs : List NamePart) :
    (named isGlobal (q :: qs)).text.toList = (if isGlobal then "global::" else "").toList ++
      (q.text.toList ++ qs.flatMap fun p => '.' :: p.text.toList) := by
  rw [text, NamePart.texts_eq_map, List.map_cons, String.toList_append, toList_intercalate_eq,
    List.flatMap_map]
  rfl

theorem toList_text_tuple (e f : TupleElement) (es : List TupleElement) :
    (tuple (e :: f :: es)).text.toList = '(' :: (e.text.toList ++
      (f :: es).flatMap (fun g => ',' :: ' ' :: g.text.toList) ++ [')']) := by
  simp [text, elementTexts_eq_map, commaSeparated, intercalate_cons_eq, List.flatMap_map,
    TupleElement.text]

theorem goesOn_named {q : NamePart} {qs : List NamePart}
    (hnames : ∀ p ∈ q :: qs, Named p.name)
    (hclear : ∀ p ∈ q :: qs, ∀ u ∈ p.arguments, u.IsClear .typeStart)
    (hread : ∀ p ∈ q :: qs, ∀ u ∈ p.arguments, u.IsRead source [])
    (suffixes : List TypeSuffix) (hsuffixes : ∀ s ∈ suffixes, s.IsWritten)
    {rest : List Char} {b : Ahead} (hb : TypeEnds .afterType rest b) : ∃ a,
      TypeEnds .nameEnd (q.argumentText ++ qs.flatMap (fun p => '.' :: p.text.toList) ++
        (suffixes.flatMap fun s => s.text.toList) ++ rest) a ∧
      (a = b ∨ a.terminal ∈ TerminalSet.ofList [.less, .dot, .question, .leftBracket, .star]) ∧
      ∀ tok after, Token.terminal tok = .name → tok.text = q.name → b.terminal ∈ after →
        Pattern.typeAfterName.Takes source after a b [.leaf tok] (Pattern.One .type fun tree =>
          ofTree? tree = some (suffixes.foldl TypeSuffix.apply (named false (q :: qs)))) := by
  obtain ⟨m₁, hm₁, hmb₁, hsuffix⟩ := @takes_suffixes source rest b suffixes hsuffixes hb
  obtain ⟨m₂, hm₂, hmb₂, hdotted⟩ := NamePart.takes_dotted qs
    (fun p hp => hnames p (List.mem_cons_of_mem _ hp))
    (fun p hp => hclear p (List.mem_cons_of_mem _ hp))
    (fun p hp => hread p (List.mem_cons_of_mem _ hp)) hm₁
  obtain ⟨a, ha, hab, harguments⟩ := q.takes_arguments (hclear q List.mem_cons_self)
    (hread q List.mem_cons_self) hm₂
  refine ⟨a, by simpa using ha, ?_, fun tok after hname htext hafter => ?_⟩
  · rcases hab with rfl | hless
    · rcases hmb₂ with rfl | hdot
      · exact hmb₁.imp_right (TerminalSet.mem_of_isWithin (by decide))
      · exact Or.inr (by rw [hdot]; decide)
    · exact Or.inr (by rw [hless]; decide)
  · have hpart : (Pattern.resume .simpleName 1 (.opt (.rule .typeArgumentList))).Takes source
        .afterNamePart a m₂ [.leaf tok] (Pattern.One .simpleName q.Becomes) :=
      .resume [] [.leaf tok] rfl ((harguments tok hname htext).weaken fun inner h => ⟨inner, h, rfl⟩)
        hm₂.mem
    have hbase : (Pattern.resume .namedType 1 (.seq
        (.resume .simpleName 1 (.opt (.rule .typeArgumentList)))
        (.many .afterNamePart (.seq (.token .dot) (.rule .simpleName))))).Takes source
        .afterTypeCore a m₁ [.leaf tok]
        (Pattern.One .namedType fun tree => ofBase? tree = some (named false (q :: qs))) := by
      refine .resume [] [.leaf tok] rfl (.seq hpart ?_) hm₁.mem
      rintro _ ⟨inner, hq, rfl⟩
      refine hdotted.behind.weaken ?_
      rintro _ ⟨post, hqs, rfl⟩
      exact ⟨_, ofBase?_eq hq hqs, rfl⟩
    refine .resume [] [.leaf tok] rfl (.seq hbase ?_) hafter
    rintro _ ⟨inner, hbase, rfl⟩
    refine hsuffix.behind.weaken ?_
    rintro _ ⟨post, ⟨hphrases, happly⟩, rfl⟩
    exact ⟨_, ofTree?_eq hbase hphrases (happly _), rfl⟩

/-- **Every type that can be written is read from its text**, if the names in it are read as names. -/
theorem isRead {t : TypeSyntax} (ht : t.IsWritten) (hreadable : t.IsReadable) :
    ∀ suffixes : List TypeSuffix, (∀ s ∈ suffixes, s.IsWritten) → t.IsRead source suffixes := by
  induction ht with
  | @predefined k hk =>
    intro suffixes hsuffixes
    exact ⟨(accepts_of_base (by simp) (accepts_predefined hk) suffixes hsuffixes).mono
      (fun _ _ => trivial) fun _ _ h => h, fun n hn => by cases hn⟩
  | @named isGlobal parts hne hnames _ ih =>
    intro suffixes hsuffixes
    obtain ⟨q, qs, rfl⟩ := List.exists_cons_of_ne_nil hne
    cases hreadable with
    | named hclear hread =>
      have hargs : ∀ p ∈ q :: qs, ∀ u ∈ p.arguments, u.IsRead source [] := fun p hp u hu =>
        ih p hp u hu (hread p hp u hu) [] (by simp)
      cases isGlobal with
      | true =>
        refine ⟨?_, fun n hn => by cases hn⟩
        rw [toList_text_named]
        exact (accepts_of_base (by simp) (accepts_globalNamed hnames hclear hargs) suffixes
          hsuffixes).mono (fun _ _ => trivial) fun _ _ h => h
      | false =>
        refine ⟨?_, fun n hn => ?_⟩
        · rw [toList_text_named]
          exact (accepts_of_base (by simp) (accepts_named hnames hclear hargs) suffixes
            hsuffixes).mono (fun _ h => h _ rfl) fun _ _ h => h
        · cases hn
          refine ⟨hnames q List.mem_cons_self, _, ?_, fun rest b hb =>
            goesOn_named hnames hclear hargs suffixes hsuffixes hb⟩
          rw [toList_text_named, NamePart.toList_text]
          simp
  | array _ hrank ih =>
    intro suffixes hsuffixes
    cases hreadable with
    | array hread =>
      exact TypeSuffix.isRead (s := .array _) (ih hread _ (List.forall_mem_cons.mpr ⟨hrank, hsuffixes⟩))
  | nullable _ ih =>
    intro suffixes hsuffixes
    cases hreadable with
    | nullable hread =>
      exact TypeSuffix.isRead (s := .nullable)
        (ih hread _ (List.forall_mem_cons.mpr ⟨trivial, hsuffixes⟩))
  | pointer _ ih =>
    intro suffixes hsuffixes
    cases hreadable with
    | pointer hread =>
      exact TypeSuffix.isRead (s := .pointer)
        (ih hread _ (List.forall_mem_cons.mpr ⟨trivial, hsuffixes⟩))
  | @tuple es hlength _ hnames ih =>
    intro suffixes hsuffixes
    cases hreadable with
    | tuple hclear hread hclearnames =>
      obtain ⟨e, f, es, rfl⟩ : ∃ e f es', es = e :: f :: es' := by
        match es, hlength with
        | e :: f :: es', _ => exact ⟨e, f, es', rfl⟩
      refine ⟨?_, fun n hn => by cases hn⟩
      rw [toList_text_tuple]
      exact (accepts_of_base (by simp) (accepts_tuple e f es
        (fun g hg => ih g hg (hread g hg) [] (by simp)) hclear
        fun g hg n hn => ⟨hnames g hg n hn, hclearnames g hg n hn⟩) suffixes hsuffixes).mono
        (fun _ _ => trivial) fun _ _ h => h

end TypeSyntax

end Facade
