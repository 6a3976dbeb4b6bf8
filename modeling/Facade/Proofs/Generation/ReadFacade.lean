import Facade.Proofs.Generation.Indentation
import Facade.Proofs.Generation.ReadContainer
import Facade.Proofs.Syntax.ReadDirective

/-!
# Facades are read as they are printed

The text of a facade is laid out code: using directives, and a namespace with types in each other. The
innermost one has the accessor and a method for each method of the interface.

* `Code.laid`, `ReadsCode`: the text of a piece of code at its depth, and what it is read as;
* `Target.readsMethod_accessor`, `ForwardedMethod.IsLegible.readsMethod_printed`: the members;
* `readsCode_within`: types in each other;
* `CompilationUnit.DeclaresFacade`: a source declares the facade of a container and nothing else;
* **`Container.IsLegible.parse_text`**: the text of a facade is read as the facade.
-/

namespace Facade

open Text Scan

variable {source : List Char}

/-! ## Laid out code -/

namespace Code

/-- What stands before the text of a line at this depth. -/
def margin (d : Nat) : List Char := '\n' :: List.replicate (4 * d) ' '

/-- The text of a piece of code at this depth, with a line end before each line. -/
def laid (d : Nat) (c : Code) : List Char := (c.lines d).flatMap fun l => '\n' :: l.toList

theorem forall_mem_margin (d : Nat) : ∀ c ∈ margin d, c = '\n' ∨ c = ' ' := by
  simp +contextual [margin, or_imp]

theorem isGap_margin (d : Nat) : isGap (margin d) := List.all_eq_true.mpr fun c hc => by
  rcases forall_mem_margin d c hc with rfl | rfl <;> rfl

theorem inert_margin (d : Nat) : Inert (margin d) := .plain (List.all_eq_true.mpr fun c hc => by
  rcases forall_mem_margin d c hc with rfl | rfl <;> decide)

theorem toList_indented {t : String} (ht : t ≠ "") (d : Nat) :
    '\n' :: (indented d t).toList = margin d ++ t.toList := by
  have hne : t.isEmpty = false := by simpa using ht
  simp [indented, hne, margin]

@[simp] theorem laid_empty (d : Nat) : (line "").laid d = ['\n'] := rfl

theorem laid_line {t : String} (ht : t ≠ "") (d : Nat) : (line t).laid d = margin d ++ t.toList := by
  simp [laid, lines, toList_indented ht]

theorem flatMap_linesAll (d : Nat) (cs : List Code) :
    (linesAll d cs).flatMap (fun l => '\n' :: l.toList) = cs.flatMap (laid d) := by
  induction cs with
  | nil => rfl
  | cons c cs ih => rw [linesAll, List.flatMap_append, ih, List.flatMap_cons, laid]

theorem laid_block {header : String} (h : header ≠ "") (body : List Code) (d : Nat) :
    (block header body).laid d = margin d ++ (header.toList ++ (margin d ++
      '\x7b' :: (body.flatMap (laid (d + 1)) ++ (margin d ++ ['\x7d'])))) := by
  have hbraces : "\x7b" ≠ "" ∧ "\x7d" ≠ "" := by decide
  simp only [laid, lines, List.cons_append, List.flatMap_cons, List.flatMap_append, flatMap_linesAll,
    List.flatMap_nil, List.append_nil]
  rw [← List.cons_append, toList_indented h, ← List.cons_append, toList_indented hbraces.1,
    toList_indented hbraces.2]
  simp

theorem toList_text (c : Code) (cs : List Code) :
    '\n' :: (text (c :: cs)).toList = (c :: cs).flatMap (laid 0) ++ ['\n'] := by
  obtain ⟨l, ls, hlines⟩ : ∃ l ls, linesAll 0 (c :: cs) = l :: ls :=
    List.exists_cons_of_ne_nil (by cases c <;> simp [linesAll, lines])
  rw [← flatMap_linesAll, text, hlines, String.toList_append, toList_intercalate_eq]
  simp

end Code

/-! ## The members of a facade -/

/-- The member is a method that is declared like the forwarded one. -/
def Member.Forwards (f : ForwardedMethod) (m : Member) : Prop := ∃ d, m = .method d ∧ d.Says f

/-- The method that supplies the implementation. -/
def Target.accessor (t : Target) : ForwardedMethod := ⟨accessorName, t.displayName, false, [], [], []⟩

/-- The text is read as a member that forwards the method. -/
def ReadsMethod (source text : List Char) (f : ForwardedMethod) : Prop :=
  Rule.member.Accepts source (fun _ => True) (Follows .afterMember) text fun tree =>
    ∃ m, Member.ofTree? source tree = some m ∧ m.Forwards f

theorem ForwardedMethod.IsLegible.readsMethod {f : ForwardedMethod} (hf : f.IsLegible)
    (ws : List (Terminal × String)) (hne : ws ≠ [])
    (hws : ∀ e ∈ ws, e ∈ Terminal.words ∧ e.1 ∈ Rule.modifier.first) {body : List Char}
    (hbody : ReadsBody source body) : ReadsMethod source (ws.flatMap (fun e => e.2.toList ++ [' ']) ++
      (f.returnType.toList ++ ' ' :: (f.name.toList ++ (f.parts ++ body)))) f := by
  intro rest b hb
  obtain ⟨a, ha, hlexes, htakes⟩ := hf.accepts hne hws hbody rest b hb
  refine ⟨a, ha, hlexes, fun after hafter => (htakes after hafter).weaken ?_⟩
  rintro _ ⟨inner, ⟨d, hd, hsays⟩, rfl⟩
  exact ⟨inner, ⟨_, hd, d, rfl, hsays⟩, rfl⟩

theorem Target.toList_accessor (t : Target) :
    ("private partial " ++ t.displayName ++ " " ++ accessorName ++ "();").toList =
      [(Terminal.privateKw, "private"), (.partialKw, "partial")].flatMap (fun e => e.2.toList ++ [' ']) ++
        (t.displayName.toList ++ ' ' :: (accessorName.toList ++ (t.accessor.parts ++ [';']))) := by
  simp [accessor, ForwardedMethod.parts, ForwardedMethod.genericSuffix, withArguments, commaSeparated]

/-- **The accessor is read as it is printed.** -/
theorem Target.readsMethod_accessor {t : Target} (ht : t.accessor.IsLegible) : ReadsMethod source
    ("private partial " ++ t.displayName ++ " " ++ accessorName ++ "();").toList t.accessor := by
  rw [toList_accessor]
  exact ht.readsMethod _ (by simp) (by decide) readsBody_semicolon

namespace ForwardedMethod

variable {m : ForwardedMethod}

theorem toList_header (m : ForwardedMethod) : m.header.toList =
    [(Terminal.publicKw, "public")].flatMap (fun e => e.2.toList ++ [' ']) ++
      (m.returnType.toList ++ ' ' :: (m.name.toList ++ m.parts)) := by
  have hclauses : ∀ cs : List String, cs ≠ [] →
      ' ' :: (" ".intercalate cs).toList = cs.flatMap fun c => ' ' :: c.toList := fun cs hcs => by
    obtain ⟨c, cs, rfl⟩ := List.exists_cons_of_ne_nil hcs
    rw [toList_intercalate_eq]
    rfl
  unfold header parts
  cases hempty : m.constraintClauses.isEmpty with
  | true => simp [List.isEmpty_iff.mp hempty]
  | false =>
    have hne : m.constraintClauses ≠ [] := by simpa using hempty
    simp [← hclauses _ hne]

/-- The text of a forwarding method at this depth, without the margin of its first line. -/
def printed (d : Nat) (m : ForwardedMethod) : List Char :=
  m.header.toList ++ (Code.margin d ++ '\x7b' :: (Code.margin (d + 1) ++
    (if m.returnsVoid then m.call else "return " ++ m.call).toList ++ (Code.margin d ++ ['\x7d'])))

theorem laid_code (d : Nat) (m : ForwardedMethod) : m.code.laid d = Code.margin d ++ m.printed d := by
  have hheader : m.header ≠ "" := fun h => by simpa [h] using toList_header m
  have hcall : (if m.returnsVoid then m.call else "return " ++ m.call) ≠ "" := by
    split_ifs <;> exact fun h => by simpa [call] using congrArg String.toList h
  rw [code, Code.laid_block hheader, List.flatMap_singleton, Code.laid_line hcall, printed]

/-- **A forwarding method is read as it is printed.** -/
theorem IsLegible.readsMethod_printed (hm : m.IsLegible) (d : Nat) :
    ReadsMethod source (m.printed d) m := by
  have hcall : Inert (if m.returnsVoid then m.call else "return " ++ m.call).toList := by
    split_ifs
    · exact hm.inert_call
    · rw [String.toList_append]
      exact (Inert.plain (by decide)).append hm.inert_call
  have hbody := ((Code.inert_margin (d + 1)).append hcall).append (Code.inert_margin d)
  have htext : m.printed d = [(Terminal.publicKw, "public")].flatMap (fun e => e.2.toList ++ [' ']) ++
      (m.returnType.toList ++ ' ' :: (m.name.toList ++ (m.parts ++ (Code.margin d ++ '\x7b' ::
        ((Code.margin (d + 1) ++ (if m.returnsVoid then m.call else "return " ++ m.call).toList ++
          Code.margin d) ++ ['\x7d']))))) := by
    simp [printed, toList_header]
  rw [htext]
  exact hm.readsMethod _ (by simp) (by decide)
    (readsBody_block (Code.isGap_margin d) (by simpa using hbody.balanced [] .nil) hbody.layout)

end ForwardedMethod

/-! ## Types -/

/-- Where a type can be declared: in a type, or in a namespace as the last member of it. -/
def DeclaredIn (r : Rule) (after : TerminalSet) : Prop :=
  r = .member ∧ after = .afterMember ∨ r = .typeDeclaration ∧ after = .single .rightBrace

/-- The code is read at this depth as a member of a type or of a namespace. -/
def ReadsCode (source : List Char) (r : Rule) (after : TerminalSet) (d : Nat) (c : Code)
    (T : Member → Prop) : Prop :=
  ∃ core, c.laid d = Code.margin d ++ core ∧
    r.Accepts source (fun _ => True) (Follows after) core fun tree =>
      ∃ m, Member.ofTree? source tree = some m ∧ T m

/-- **A type is read as it is printed**, if its members are. -/
theorem PrintedHead.IsLegible.readsCode {h : PrintedHead} (hh : h.IsLegible)
    (ws : List (Terminal × String)) (hne : ws ≠ [])
    (hws : ∀ e ∈ ws, e ∈ Terminal.words ∧ e.1 ∈ Rule.modifier.first) {header : String}
    (hheader : header.toList = ws.flatMap (fun e => e.2.toList ++ [' ']) ++ h.text)
    {r : Rule} {after : TerminalSet} (hr : DeclaredIn r after) {α : Type} (xs : List α)
    (gap core : α → List Char) (T : α → Member → Prop) {d : Nat}
    (hxs : ∀ x ∈ xs, isGap (gap x) ∧ gap x ≠ [] ∧
      Rule.member.Accepts source (fun _ => True) (Follows .afterMember) (core x)
        fun tree => ∃ m, Member.ofTree? source tree = some m ∧ T x m)
    {body : List Code}
    (hbody : body.flatMap (Code.laid (d + 1)) = xs.flatMap fun x => gap x ++ core x) :
    ReadsCode source r after d (.block header body) fun m =>
      ∃ head ms, m = .type head ms ∧ head.Says h ∧ List.Forall₂ T xs ms := by
  have hrule : (r = .member ∨ r = .typeDeclaration) ∧ after.isWithin r.follow ∧
      after.isWithin .afterMember ∧ after.isWithin Rule.classBody.follow := by
    rcases hr with ⟨rfl, rfl⟩ | ⟨rfl, rfl⟩ <;> decide
  have hheader' : header ≠ "" := by
    rintro rfl
    simp [PrintedHead.text] at hheader
  have htype : ∀ rest b, Follows after rest b → h.TakesType source (List.Forall₂ T xs)
      (h.text ++ (Code.margin d ++ '\x7b' :: (xs.flatMap (fun x => gap x ++ core x) ++
        (Code.margin d ++ ['\x7d']))) ++ rest) b := fun rest b hb => by
    have hopen : Follows (.single .leftBrace) (Code.margin d ++ '\x7b' ::
        (xs.flatMap (fun x => gap x ++ core x) ++ (Code.margin d ++ '\x7d' :: rest))) _ :=
      (Follows.sign (t := .leftBrace) (by decide) (by decide) _).gap (Code.isGap_margin d)
    have htakes := hh.takesType hopen (TerminalSet.mem_of_isWithin hrule.2.2.1 hb.mem) fun hafter =>
      takes_classBody hxs (Code.isGap_margin d) (hb.lexes (by decide) hrule.2.2.2) hafter
    simpa using htakes
  refine ⟨_, Code.laid_block hheader' body d, ?_⟩
  rw [hheader, hbody, List.append_assoc]
  intro rest b hb
  obtain ⟨a, ha, hlexes, htakes⟩ := accepts_modified hrule.1 hne hws htype hrule.2.1 rest b hb
  refine ⟨a, ha, hlexes, fun after hafter => (htakes after hafter).weaken ?_⟩
  rintro _ ⟨inner, ⟨head, ms, htree, hsays, hms⟩, rfl⟩
  exact ⟨inner, ⟨_, htree, head, ms, rfl, hsays, hms⟩, rfl⟩

/-- Types in each other with these keywords and headings, the outermost first, and a member in the
innermost. -/
def Member.Nests (inner : Member → Prop) : List (String × String) → Member → Prop
  | [], m => inner m
  | o :: os, m => ∃ head n, m = .type head [n] ∧ head.form.keyword = o.1 ∧ head.heading = o.2 ∧
      Nests inner os n

theorem Accessibility.exists_words {a : Accessibility} {access : String} (h : a.keyword? = some access) :
    ∃ ws : List (Terminal × String), ws ≠ [] ∧
      (∀ e ∈ ws, e ∈ Terminal.words ∧ e.1 ∈ Rule.modifier.first) ∧
      access.toList ++ [' '] = ws.flatMap fun e => e.2.toList ++ [' '] := by
  cases a <;> cases h
  · exact ⟨[(.privateKw, "private")], by decide⟩
  · exact ⟨[(.privateKw, "private"), (.protectedKw, "protected")], by decide⟩
  · exact ⟨[(.protectedKw, "protected")], by decide⟩
  · exact ⟨[(.internalKw, "internal")], by decide⟩
  · exact ⟨[(.publicKw, "public")], by decide⟩

namespace Container

/-- The head of the declaration that extends the container with this base type. -/
def head (c : Container) (base : Option String) : PrintedHead :=
  ⟨c.keyword, c.name, c.typeParameters, base⟩

/-- The texts of the container are read as what they were made of. -/
structure IsLegible (c : Container) : Prop where
  space : ∀ s ∈ c.space, Dotted s
  head : (c.head none).IsLegible
  outerTypes : ∀ o ∈ c.outerTypes, ∃ h : PrintedHead, h.IsLegible ∧ h.baseType = none ∧
    o = (h.keyword, withArguments h.name h.typeParameters)

end Container

theorem ReadsCode.mono {r : Rule} {after : TerminalSet} {d : Nat} {c : Code} {T T' : Member → Prop}
    (h : ReadsCode source r after d c T) (hT : ∀ m, T m → T' m) : ReadsCode source r after d c T' := by
  obtain ⟨core, hlaid, haccepts⟩ := h
  refine ⟨core, hlaid, fun rest b hb => ?_⟩
  obtain ⟨a, ha, hlexes, htakes⟩ := haccepts rest b hb
  refine ⟨a, ha, hlexes, fun after hafter => (htakes after hafter).weaken ?_⟩
  rintro _ ⟨inner, ⟨m, htree, hm⟩, rfl⟩
  exact ⟨inner, ⟨m, htree, hT m hm⟩, rfl⟩

/-- The member declares the part of the container that is a facade of the target. -/
def Member.IsFacade (c : Container) (t : Target) (m : Member) : Prop :=
  ∃ head ms, m = .type head ms ∧ head.Says (c.head t.displayName) ∧
    List.Forall₂ Member.Forwards (t.accessor :: t.methods) ms

variable {c : Container} {t : Target}

variable (source) in
/-- **The part of the container is read as it is printed**, with its members. -/
theorem Container.readsCode (hhead : (c.head t.displayName).IsLegible) (haccessor : t.accessor.IsLegible)
    (hmethods : ∀ m ∈ t.methods, m.IsLegible) {access : String}
    (haccess : c.accessibility.keyword? = some access) (r : Rule) (after : TerminalSet) (d : Nat)
    (hr : DeclaredIn r after) :
    ReadsCode source r after d (.block (c.header access t) t.members) (Member.IsFacade c t) := by
  obtain ⟨ws, hne, hws, htext⟩ := Accessibility.exists_words haccess
  have hheader : (c.header access t).toList =
      (ws ++ [(Terminal.partialKw, "partial")]).flatMap (fun e => e.2.toList ++ [' ']) ++
        (c.head t.displayName).text := by
    rw [List.flatMap_append, ← htext]
    simp [Container.header, Container.head, PrintedHead.text, PrintedHead.baseText, Container.displayName]
  have hwords : ∀ e ∈ ws ++ [(.partialKw, "partial")],
      e ∈ Terminal.words ∧ e.1 ∈ Rule.modifier.first := fun e he =>
    (List.mem_append.mp he).elim (hws e) fun he => by
      rw [List.mem_singleton.mp he]
      decide
  have haccessorLine : "private partial " ++ t.displayName ++ " " ++ accessorName ++ "();" ≠ "" :=
    fun h => by simpa using congrArg String.toList h
  refine (hhead.readsCode _ (by simp) hwords hheader hr (none :: t.methods.map some)
    (fun x => (if x.isSome then ['\n'] else []) ++ Code.margin (d + 1))
    (fun x => (x.map (ForwardedMethod.printed (d + 1))).getD
      ("private partial " ++ t.displayName ++ " " ++ accessorName ++ "();").toList)
    (fun x => Member.Forwards (x.getD t.accessor)) ?_ ?_).mono ?_
  · refine List.forall_mem_cons.mpr ⟨⟨Code.isGap_margin _, by simp [Code.margin],
      Target.readsMethod_accessor haccessor⟩, fun x hx => ?_⟩
    obtain ⟨m, hm, rfl⟩ := List.mem_map.mp hx
    exact ⟨Code.isGap_margin _, by simp, (hmethods m hm).readsMethod_printed (d + 1)⟩
  · simp [Target.members, Code.laid_line haccessorLine, ForwardedMethod.laid_code, List.flatMap_assoc,
      List.flatMap_map]
  · rintro m ⟨head, ms, rfl, hsays, hms⟩
    refine ⟨head, ms, rfl, hsays, ?_⟩
    have hxs : t.accessor :: t.methods = (none :: t.methods.map some).map (·.getD t.accessor) := by
      simp
    rw [hxs]
    exact List.forall₂_map_left_iff.mpr hms

/-- **Types are read in each other as they are printed**, if the innermost one is. -/
theorem readsCode_within {inner : Code} {P : Member → Prop}
    (hinner : ∀ r after d, DeclaredIn r after → ReadsCode source r after d inner P)
    (outers : List (String × String)) (houters : ∀ o ∈ outers, ∃ h : PrintedHead, h.IsLegible ∧
      h.baseType = none ∧ o = (h.keyword, withArguments h.name h.typeParameters))
    (r : Rule) (after : TerminalSet) (d : Nat) (hr : DeclaredIn r after) :
    ReadsCode source r after d (Code.within (outers.map fun o => "partial " ++ o.1 ++ " " ++ o.2) inner)
      (Member.Nests P outers) := by
  induction outers generalizing r after d with
  | nil => exact hinner r after d hr
  | cons o os ih =>
    obtain ⟨h, hh, hbase, rfl⟩ := houters o List.mem_cons_self
    obtain ⟨core, hlaid, haccepts⟩ := ih (fun o ho => houters o (List.mem_cons_of_mem _ ho)) .member
      .afterMember (d + 1) (Or.inl ⟨rfl, rfl⟩)
    have hheader : ("partial " ++ h.keyword ++ " " ++ withArguments h.name h.typeParameters).toList =
        [(Terminal.partialKw, "partial")].flatMap (fun e => e.2.toList ++ [' ']) ++ h.text := by
      simp [PrintedHead.text, PrintedHead.baseText, hbase]
    refine (hh.readsCode _ (by simp) (by decide) hheader hr [()] (fun _ => Code.margin (d + 1))
      (fun _ => core) (fun _ => Member.Nests P os) ?_ ?_).mono ?_
    · exact fun _ _ => ⟨Code.isGap_margin _, by simp [Code.margin], haccepts⟩
    · simpa [Code.within] using hlaid
    · rintro m ⟨head, ms, rfl, hsays, hms⟩
      cases hms with
      | cons hn hnil =>
        cases hnil
        refine ⟨head, _, rfl, hsays.keyword, ?_, hn⟩
        rw [TypeHead.heading, hsays.name, hsays.typeParameters]

/-! ## Namespaces and sources -/

/-- The texts of the target are read as what they were made of. -/
structure Target.IsLegible (t : Target) : Prop where
  displayName : LegibleType Rule.modifier.follow t.displayName
  methods : ∀ m ∈ t.methods, m.IsLegible
  imports : ∀ i ∈ t.imports, ∃ u : UsingDirective, u.target.IsLegible ∧ u.isGlobal = false ∧ u.text = i

theorem Target.IsLegible.accessor (ht : t.IsLegible) : t.accessor.IsLegible :=
  ⟨ht.displayName, Or.inl (show IsPlainName accessorName.toList by decide),
    show ReadsAsName .nameEnd accessorName by decide, by simp [Target.accessor],
    by simp [Target.accessor], by simp [Target.accessor]⟩

theorem LegibleType.mono {A B : TerminalSet} {text : String} (h : LegibleType A text)
    (hwords : B.WordsWithin A) : LegibleType B text := by
  obtain ⟨u, hwritten, hreadable, hclear, htext⟩ := h
  exact ⟨u, hwritten, hreadable, fun n hn => (hclear n hn).mono hwords, htext⟩

theorem Container.IsLegible.head_displayName (hc : c.IsLegible) (ht : t.IsLegible) :
    (c.head t.displayName).IsLegible := by
  refine ⟨hc.head.keyword, hc.head.name, hc.head.clear, hc.head.typeParameters, fun s hs => ?_⟩
  rw [← Option.mem_some.mp hs]
  exact ht.displayName.mono (by decide)

theorem follows_atEnd : Follows (.single .endOfInput) ['\n'] .atEnd :=
  ⟨endsWord_cons (by decide) _, TerminalSet.mem_single.mpr rfl, fun _ hB hmem =>
    (Lexes.atEnd hmem).gap (show isGap ['\n'] from rfl)⟩

variable (source) in
theorem takes_imports (ht : t.IsLegible) {rest : List Char} {b : Ahead}
    (hb : Follows (.single .namespaceKw) rest b) {after : TerminalSet} (hafter : b.terminal ∈ after) :
    ∃ a, Follows (.ofList [.globalKw, .usingKw, .namespaceKw])
        (t.imports.flatMap (fun i => '\n' :: i.toList) ++ rest) a ∧
      Pattern.usings.Takes source after a b [] fun new =>
        (∀ tree ∈ new, tree.isPhrase .usingDirective) ∧
        ∃ us, new.mapM UsingDirective.ofTree? = some us ∧ us.map UsingDirective.text = t.imports := by
  have hitem : ∀ i ∈ t.imports, ∀ rest b,
      Follows (.ofList [.globalKw, .usingKw, .namespaceKw]) rest b → ∃ a,
        Follows (.ofList [.globalKw, .usingKw, .namespaceKw]) (('\n' :: i.toList) ++ rest) a ∧
        a.terminal ∈ (Pattern.rule .usingDirective).first ∧
        (Pattern.rule .usingDirective).Takes source .afterUsing a b []
          (Pattern.One .usingDirective fun tree =>
            ∃ u, UsingDirective.ofTree? tree = some u ∧ u.text = i) := fun i hi rest b hb => by
    obtain ⟨u, hu, hglobal, rfl⟩ := ht.imports i hi
    obtain ⟨a, ha, hlexes, htakes⟩ := UsingDirective.accepts hu hglobal rest b hb
    refine ⟨a, ⟨endsWord_cons (by decide) _, TerminalSet.mem_of_isWithin (by decide) ha,
      fun B hB hmem => hlexes B ['\n'] hB hmem trivial rfl⟩, ha,
      (htakes _ (TerminalSet.mem_of_isWithin (by decide) hb.mem)).weaken ?_⟩
    rintro _ ⟨inner, ⟨d, hd, htarget, hplain⟩, rfl⟩
    exact ⟨inner, ⟨d, hd, by simp only [UsingDirective.text, htarget, hplain, hglobal]⟩, rfl⟩
  obtain ⟨a, ha, -, htakes⟩ := Pattern.Takes.many (hb.mono (by decide)) hafter
    (TerminalSet.not_mem_of_isApart (by decide) hb.mem) t.imports hitem
  refine ⟨a, ha, htakes.weaken ?_⟩
  rintro _ ⟨news, hnews, rfl⟩
  have hall := flatten_ones hnews
  exact ⟨forall_of_forall₂ (hall.imp fun _ _ h => h.2), exists_mapM_map (hall.imp fun _ _ h => h.1)⟩

/-- What is read as a namespace with one type in it. -/
def ReadsSpace (source : List Char) (space : String) (P : Member → Prop) (parts : List Tree) : Prop :=
  ∃ head m, NamespaceMember.ofParts? source parts = some [.space head [.type m]] ∧ head.name = space ∧
    P (.type m.head m.members)

theorem readsSpace_of_parts {space : String} {P : Member → Prop} {head : TypeHead} {ms : List Member}
    {keyword opening closing : Token} {q inner : List Tree} (hkeyword : keyword.terminal = .namespaceKw)
    (hopening : opening.terminal = .leftBrace) (hclosing : closing.terminal = .rightBrace)
    (hq : Tree.dottedName (Tree.partsOf .qualifiedName [Rule.qualifiedName.node q]) = space)
    (htree : Member.ofTree? source (Rule.typeDeclaration.node inner) = some (.type head ms))
    (hP : P (.type head ms)) : ReadsSpace source space P [Rule.namespaceDeclaration.node
      [.leaf keyword, Rule.qualifiedName.node q, .leaf opening, Rule.typeDeclaration.node inner,
        .leaf closing]] := by
  have hkept : [Tree.leaf keyword, Rule.qualifiedName.node q, .leaf opening, Rule.typeDeclaration.node inner,
      .leaf closing].filter (Tree.isKept .namespaceDeclaration) =
        [Rule.qualifiedName.node q, Rule.typeDeclaration.node inner] := by
    simp [List.filter_cons, hkeyword, hopening, hclosing, Terminal.isNamed, Rule.keepsTokens]
  rw [Rule.node, hkept]
  have hphrase : Tree.phrase? .qualifiedName [Rule.qualifiedName.node q, Rule.typeDeclaration.node inner] =
      some (Rule.qualifiedName.node q) := by simp [Tree.phrase?_eq_head?]
  have hname : Tree.dottedName (Tree.partsOf .qualifiedName [Rule.qualifiedName.node q,
      Rule.typeDeclaration.node inner]) = space := by
    rw [← hq]
    exact congrArg _ (Tree.partsOf_congr (by simp))
  have hmembers : NamespaceMember.ofParts? source
      [Rule.qualifiedName.node q, Rule.typeDeclaration.node inner] = some [.type ⟨head, ms⟩] := by
    have htype : TypeDeclaration.ofTree? source (Rule.typeDeclaration.node inner) = some ⟨head, ms⟩ := by
      rw [TypeDeclaration.ofTree?, htree]
    rw [Rule.node] at htype ⊢
    simp [Rule.node, NamespaceMember.ofParts?, NamespaceMember.ofTree?, htype]
  obtain ⟨h, hhead, hspace⟩ : ∃ h, NamespaceHead.ofParts? false
      [Rule.qualifiedName.node q, Rule.typeDeclaration.node inner]
        (Tree.cover [.leaf keyword, Rule.qualifiedName.node q, .leaf opening,
          Rule.typeDeclaration.node inner, .leaf closing]) = some h ∧ h.name = space := by
    simp [NamespaceHead.ofParts?, hphrase, hname]
  exact ⟨h, ⟨head, ms⟩, by simp [NamespaceMember.ofParts?, NamespaceMember.ofTree?, hhead, hmembers],
    hspace, hP⟩

/-- What a namespace has between its braces and behind them. -/
def Pattern.spaceBody : Pattern := .all (.token .leftBrace)
  (Pattern.namespaceBody ++ [.token .rightBrace, .opt (.token .semicolon)])

theorem takes_spaceBody {core cs : List Char} {T : Tree → Prop}
    (htype : Rule.typeDeclaration.Accepts source (fun _ => True) (Follows (.single .rightBrace)) core T)
    {gap last : List Char} (hgap : isGap gap) (hlast : isGap last) {b : Ahead}
    (hb : Follows (.single .endOfInput) cs b) (pre : List Tree) :
    Pattern.spaceBody.Takes source Rule.namespaceDeclaration.follow
      ⟨.leftBrace, ['\x7b'], gap ++ (core ++ (last ++ '\x7d' :: cs))⟩ b pre fun post =>
        ∃ opening inner closing,
          post = pre ++ [.leaf opening, Rule.typeDeclaration.node inner, .leaf closing] ∧
          opening.terminal = .leftBrace ∧ closing.terminal = .rightBrace ∧
          T (Rule.typeDeclaration.node inner) := by
  have hclose : Follows (.single .rightBrace) (last ++ '\x7d' :: cs) ⟨.rightBrace, ['\x7d'], cs⟩ :=
    (Follows.sign (t := .rightBrace) (by decide) (by decide) _).gap hlast
  obtain ⟨a, ha, hlexes, htakes⟩ := htype _ _ hclose
  have hother : ∀ p : Pattern, Rule.typeDeclaration.first.isApart p.first → a.terminal ∉ p.first :=
    fun p hp => TerminalSet.not_mem_of_isApart hp ha
  have hmember : Pattern.namespaceMember.Takes source .afterNamespaceMember a ⟨.rightBrace, ['\x7d'], cs⟩
      [] (Pattern.One .typeDeclaration T) :=
    .right (hother _ (by decide)) (htakes _ (show Terminal.rightBrace ∈ _ by decide))
  refine .cons rfl (hlexes _ gap (by decide) (TerminalSet.mem_of_isWithin (by decide) ha) trivial hgap)
    (.skip (hother _ (by decide)) (.andThen (.some (TerminalSet.mem_of_isWithin (by decide) ha)
      (.once hmember (show Terminal.rightBrace ∈ _ by decide) (show Terminal.rightBrace ∉ _ by decide))) ?_))
  rintro _ ⟨inner, hT, rfl⟩
  refine .cons rfl (hb.lexes (by decide) (by decide))
    (.none (TerminalSet.not_mem_of_isApart (by decide) hb.mem) ?_)
  exact ⟨_, inner, _, by simp; exact ⟨rfl, rfl⟩, rfl, rfl, hT⟩

/-- **A namespace at the beginning of a source is read** with the code in it. -/
theorem takes_namespace {space : String} (hspace : Dotted space) {inner : Code} {P : Member → Prop}
    (hinner : ReadsCode source .typeDeclaration (.single .rightBrace) 1 inner P)
    (hP : ∀ m, P m → ∃ head ms, m = .type head ms) : ∃ cs,
      (Code.block ("namespace " ++ space) [inner]).laid 0 ++ ['\n'] = '\n' :: ("namespace".toList ++ cs) ∧
      EndsWord cs ∧ ∀ pre,
        Pattern.leadingNamespace.Takes source Rule.source.follow ⟨.namespaceKw, "namespace".toList, cs⟩ .atEnd
          pre fun post => ∃ parts, post = pre ++ [Rule.namespaceDeclaration.node parts] ∧
            ReadsSpace source space P [Rule.namespaceDeclaration.node parts] := by
  obtain ⟨core, hlaid, haccepts⟩ := hinner
  have hopen : Follows (.ofList [.leftBrace, .semicolon]) (Code.margin 0 ++ '\x7b' :: (Code.margin 1 ++
      (core ++ (Code.margin 0 ++ '\x7d' :: ['\n'])))) _ :=
    (Follows.sign (t := .leftBrace) (by decide) (by decide) _).gap (Code.isGap_margin 0)
  obtain ⟨n, hn, hlexes, hname⟩ := accepts_qualifiedName source hspace _ _ hopen
  refine ⟨' ' :: (space.toList ++ (Code.margin 0 ++ '\x7b' :: (Code.margin 1 ++
    (core ++ (Code.margin 0 ++ '\x7d' :: ['\n']))))), ?_, endsWord_cons (by decide) _, fun pre => ?_⟩
  · have hne : "namespace " ++ space ≠ "" := fun h => by simpa using congrArg String.toList h
    rw [Code.laid_block hne, List.flatMap_singleton, hlaid]
    simp [Code.margin]
  refine .cons rfl (hlexes (.single .name) [' '] (by decide) hn rfl rfl)
    (.andThen (hname _ (show Terminal.leftBrace ∈ _ by decide)) ?_)
  rintro _ ⟨q, hq, rfl⟩
  have hbody := takes_spaceBody haccepts (Code.isGap_margin 1) (Code.isGap_margin 0) follows_atEnd
  rw [List.append_assoc]
  refine .left (show Terminal.leftBrace ∈ _ by decide) (.seq (R := fun post => ∃ parts,
    post = pre ++ [Rule.namespaceDeclaration.node parts] ∧
      ReadsSpace source space P [Rule.namespaceDeclaration.node parts]) (.resume pre _ rfl
        ((hbody _).weaken ?_) (show Terminal.endOfInput ∈ _ by decide))
    fun post hpost => .none (show Terminal.endOfInput ∉ _ by decide) hpost)
  rintro _ ⟨opening, inner, closing, rfl, hopening, hclosing, m, htree, hm⟩
  obtain ⟨head, ms, rfl⟩ := hP m hm
  exact ⟨_, rfl, readsSpace_of_parts rfl hopening hclosing hq htree hm⟩

/-- The unit declares the facade of a container for a target, and nothing else: one namespace with the
types around the container in it, and the directives of the target before it. -/
structure CompilationUnit.DeclaresFacade (u : CompilationUnit) (c : Container) (t : Target) : Prop where
  usings : u.usings.map UsingDirective.text = t.imports
  members : ∃ head m, u.members = [.space head [.type m]] ∧ some head.name = c.space ∧
    Member.Nests (Member.IsFacade c t) c.outerTypes (.type m.head m.members)

theorem NamespaceMember.ofParts?_usings {us : List Tree} (hus : ∀ t ∈ us, t.isPhrase .usingDirective)
    (parts : List Tree) : ofParts? source (us ++ parts) = ofParts? source parts := by
  induction us with
  | nil => rfl
  | cons t us ih =>
    have hmore := ih fun s hs => hus s (List.mem_cons_of_mem _ hs)
    cases t with
    | leaf => cases hus _ List.mem_cons_self
    | node r =>
      obtain rfl : r = .usingDirective := by simpa [Tree.isPhrase] using hus _ List.mem_cons_self
      rw [List.cons_append, ofParts?, hmore]

theorem Member.Nests.type {os : List (String × String)} {m : Member}
    (h : Member.Nests (Member.IsFacade c t) os m) : ∃ head ms, m = .type head ms := by
  cases os with
  | nil =>
    obtain ⟨head, ms, rfl, -⟩ := h
    exact ⟨head, ms, rfl⟩
  | cons =>
    obtain ⟨head, n, rfl, -⟩ := h
    exact ⟨head, [n], rfl⟩

theorem CompilationUnit.ofTree?_of_parts {space : String} {P : Member → Prop} {us inner : List Tree}
    {ds : List UsingDirective} (hus : ∀ tree ∈ us, tree.isPhrase .usingDirective)
    (hds : us.mapM UsingDirective.ofTree? = some ds)
    (hspace : ReadsSpace source space P [Rule.namespaceDeclaration.node inner]) (path : String) :
    ∃ unit head m, CompilationUnit.ofTree? source path
        (Rule.source.node (us ++ [Rule.namespaceDeclaration.node inner])) = some unit ∧
      unit.usings = ds ∧ unit.members = [.space head [.type m]] ∧ head.name = space ∧
      P (.type m.head m.members) := by
  obtain ⟨head, m, hmembers, hname, hP⟩ := hspace
  have hkept : (us ++ [Rule.namespaceDeclaration.node inner]).filter (Tree.isKept .source) =
      us ++ [Rule.namespaceDeclaration.node inner] := by
    rw [List.filter_append, Tree.filter_isKept_of_forall hus]
    rfl
  have hphrases : Tree.phrases .usingDirective (us ++ [Rule.namespaceDeclaration.node inner]) = us := by
    rw [Tree.phrases_append, Tree.phrases_of_forall hus]
    simp
  rw [Rule.node, hkept]
  simp [CompilationUnit.ofTree?, hphrases, hds, NamespaceMember.ofParts?_usings hus, hmembers, hname, hP]

theorem Target.IsLegible.ne_empty (ht : t.IsLegible) : ∀ i ∈ t.imports, i ≠ "" := by
  intro i hi h
  obtain ⟨u, -, hglobal, rfl⟩ := ht.imports i hi
  simpa [UsingDirective.text, hglobal] using congrArg String.toList h

theorem Container.toList_text (c : Container) (himports : ∀ i ∈ t.imports, i ≠ "") (space access : String) :
    (Code.text (c.code space access t)).toList = "#nullable enable".toList ++
      (t.imports.flatMap (fun i => '\n' :: i.toList) ++ '\n' :: ((Code.block ("namespace " ++ space)
        [.within c.outerHeaders (.block (c.header access t) t.members)]).laid 0 ++ ['\n'])) := by
  have hlaid : (t.imports.map Code.line).flatMap (Code.laid 0) =
      t.imports.flatMap fun i => '\n' :: i.toList := by
    rw [List.flatMap_map]
    exact List.flatMap_congr fun i hi => Code.laid_line (himports i hi) 0
  have hlines := Code.toList_text (.line "#nullable enable") (t.imports.map Code.line ++ [.line "",
    .block ("namespace " ++ space) [.within c.outerHeaders (.block (c.header access t) t.members)]])
  refine List.cons_injective (a := '\n') (hlines.trans ?_)
  rw [List.flatMap_cons, List.flatMap_append, hlaid, Code.laid_line (by decide)]
  simp [Code.margin]

/-- The first line of a facade is left out where its imports are read. -/
theorem lexes_nullable {B : TerminalSet} (hB : B.isPlain) {imports : List String} {z : List Char} {a : Ahead}
    (h : Lexes B (imports.flatMap (fun i => '\n' :: i.toList) ++ '\n' :: z) a) :
    Lexes B ("#nullable enable".toList ++ (imports.flatMap (fun i => '\n' :: i.toList) ++ '\n' :: z)) a := by
  obtain ⟨tail, htail⟩ : ∃ tail, imports.flatMap (fun i => '\n' :: i.toList) ++ '\n' :: z = '\n' :: tail := by
    cases imports <;> exact ⟨_, rfl⟩
  rw [htail] at h ⊢
  have hdirective : Lexes B ('#' :: ("nullable enable".toList ++ '\n' :: tail)) a :=
    .directive h hB (by decide)
  exact hdirective

/-- **The text of a facade is read as the facade.** -/
theorem Container.IsLegible.parse_text (hc : c.IsLegible) (ht : t.IsLegible) {space access : String}
    (hspace : c.space = some space) (haccess : c.accessibility.keyword? = some access) (path : String) :
    ∃ unit, CompilationUnit.parse path (Code.text (c.code space access t)) = .ok unit ∧
      unit.DeclaresFacade c t := by
  generalize hsource : (Code.text (c.code space access t)).toList = source
  have hinner := readsCode_within (fun r after d hr =>
    Container.readsCode source (hc.head_displayName ht) ht.accessor ht.methods haccess r after d hr)
    c.outerTypes hc.outerTypes .typeDeclaration (.single .rightBrace) 1 (Or.inr ⟨rfl, rfl⟩)
  obtain ⟨cs, hlaid, hends, hnamespace⟩ := takes_namespace (hc.space space hspace) hinner
    fun m hm => hm.type
  have hkeyword : Follows (.single .namespaceKw) ('\n' :: '\n' :: ("namespace".toList ++ cs))
      ⟨.namespaceKw, "namespace".toList, cs⟩ :=
    ⟨endsWord_cons (by decide) _, TerminalSet.mem_single.mpr rfl,
      (comes_word (show (Terminal.namespaceKw, "namespace") ∈ _ by decide) hends).gap
        (show isGap ['\n', '\n'] from rfl)⟩
  have hadmits : Terminal.namespaceKw ∈ (Pattern.opt (.alt .leadingNamespace
      (.seq (.rule .typeDeclaration) .namespaceMembers))).admits Rule.source.follow := by decide
  obtain ⟨a, ha, husings⟩ := takes_imports source ht hkeyword hadmits
  generalize hrest : t.imports.flatMap (fun i => '\n' :: i.toList) ++
    '\n' :: '\n' :: ("namespace".toList ++ cs) = rest at ha
  have htext : source = "#nullable enable".toList ++ rest := by
    rw [← hsource, Container.toList_text c ht.ne_empty, ← hrest]
    exact congrArg (fun x => "#nullable enable".toList ++
      (t.imports.flatMap (fun i => '\n' :: i.toList) ++ '\n' :: x)) hlaid
  have hfirst : Lexes (Rule.source.body.admits Rule.source.follow) source a := by
    rw [htext, ← hrest]
    exact lexes_nullable (by decide) (hrest ▸ ha.lexes (by decide) (by decide))
  obtain ⟨parts, hparse, us, inner, hparts, hus, ⟨ds, hds, hdirectives⟩, hreads⟩ :=
    Tree.parse_of_takes (Q := fun parts => ∃ us inner,
      parts = us ++ [Rule.namespaceDeclaration.node inner] ∧
      (∀ tree ∈ us, tree.isPhrase .usingDirective) ∧
      (∃ ds, us.mapM UsingDirective.ofTree? = some ds ∧ ds.map UsingDirective.text = t.imports) ∧
      ReadsSpace source space (Member.Nests (Member.IsFacade c t) c.outerTypes)
        [Rule.namespaceDeclaration.node inner]) hfirst
      (.andThen husings fun us hus => .some (show Terminal.namespaceKw ∈ _ by decide)
        (.left (show Terminal.namespaceKw ∈ _ by decide) ((hnamespace _).weaken fun post hpost => by
          obtain ⟨inner, rfl, hreads⟩ := hpost
          exact ⟨us, inner, rfl, hus.1, hus.2, hreads⟩)))
  obtain ⟨unit, head, m, hunit, hus', hmembers, hname, hnests⟩ :=
    CompilationUnit.ofTree?_of_parts hus hds hreads path
  refine ⟨unit, ?_, by rw [hus', hdirectives], head, m, hmembers, by rw [hname, hspace], hnests⟩
  rw [CompilationUnit.parse_eq_ok, hsource]
  exact ⟨_, hparse, by rw [hparts, hunit]⟩

end Facade
