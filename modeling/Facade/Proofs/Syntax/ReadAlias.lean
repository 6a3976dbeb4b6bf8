import Facade.Proofs.Syntax.ReadType

/-!
# A type by itself

The text of a type is read by itself where it is given another name. It is read as the type it was
written for, if the names in it are read as names.

* `Tree.parse_of_takes`: a source is parsed whose phrases are read one after the other;
* **`TypeSyntax.parse_text`**: the text of a type is read as that type.
-/

namespace Facade

open Scan

/-- **A source whose phrases are read one after the other is parsed.** -/
theorem Tree.parse_of_takes {source : List Char} {a b : Ahead} {Q : List Tree → Prop}
    (hfirst : Lexes (Rule.source.body.admits Rule.source.follow) source a)
    (h : Rule.source.body.Takes source Rule.source.follow a b [] Q) :
    ∃ parts, Tree.parse source = .ok (Rule.source.node parts) ∧ Q parts := by
  have hstart : Position.ofRest source source = .start := by
    simp [Position.ofRest, Position.after]
  obtain ⟨s, hread, hs⟩ := hfirst.read (List.suffix_refl _) .start
  rw [hstart] at hread
  obtain ⟨post, s', hreads, -, hpost⟩ := h s hs []
  refine ⟨post, ?_, hpost⟩
  have hparse := Tree.parse_of_reads hread hreads
  simpa using hparse

namespace TypeSyntax

theorem toList_aliasSource (text : String) :
    (aliasSource text).toList = "using".toList ++ ([' '] ++ ("X".toList ++
      ([' '] ++ ("=".toList ++ ([' '] ++ (text.toList ++ [';'])))))) := by
  simp [aliasSource]

/-- The parts of a directive that gives another name to a type. -/
def IsAlias (t : TypeSyntax) (parts : List Tree) : Prop :=
  ∃ inner, parts = [Rule.usingDirective.node inner] ∧
    UsingTarget.ofParts? (inner.filter (Tree.isKept .usingDirective)) = some (.alias "X" t)

theorem takes_alias {t : TypeSyntax} (ht : t.IsWritten) (hreadable : t.IsReadable)
    (hclear : t.IsClear .typeStart) :
    ∃ a, Lexes (Rule.source.body.admits Rule.source.follow) (aliasSource t.text).toList a ∧
      Rule.source.body.Takes (aliasSource t.text).toList Rule.source.follow a .atEnd []
        t.IsAlias := by
  have hend : TypeEnds .afterType [';'] ⟨.semicolon, [';'], []⟩ :=
    TypeEnds.sign (by decide) (by decide) (by decide) []
  have hread : t.IsRead (aliasSource t.text).toList [] := isRead ht hreadable [] (by simp)
  obtain ⟨b, hb, hlexes, htakes⟩ := hread.accepts _ _ hend
  have htype : Lexes .typeStart ([' '] ++ (t.text.toList ++ [';'])) b := by
    simpa using hlexes .typeStart [' '] (by decide) hb hclear rfl
  have hequals : Lexes (.ofList [.equals, .dot, .semicolon])
      ([' '] ++ ("=".toList ++ ([' '] ++ (t.text.toList ++ [';']))))
      ⟨.equals, "=".toList, [' '] ++ (t.text.toList ++ [';'])⟩ := by
    refine lexes_sign (by decide) (by decide) (by decide) rfl (fun c hc => ?_)
      fun h => absurd h (by decide)
    obtain rfl : ' ' = c := by simpa using hc
    decide
  have hname : Lexes (.ofList [.staticKw, .name])
      ([' '] ++ ("X".toList ++ ([' '] ++ ("=".toList ++ ([' '] ++ (t.text.toList ++ [';']))))))
      ⟨.name, "X".toList, [' '] ++ ("=".toList ++ ([' '] ++ (t.text.toList ++ [';'])))⟩ :=
    lexes_name (by decide) (by decide) (Or.inl (by decide)) (by decide) rfl
      (endsWord_cons (by decide) _)
  have husing : Lexes (Rule.source.body.admits Rule.source.follow) (aliasSource t.text).toList
      ⟨.usingKw, "using".toList, [' '] ++ ("X".toList ++
        ([' '] ++ ("=".toList ++ ([' '] ++ (t.text.toList ++ [';'])))))⟩ := by
    rw [toList_aliasSource]
    exact lexes_word (show (Terminal.usingKw, "using") ∈ _ by decide) (by decide) (by decide)
      (show isGap [] from rfl) (endsWord_cons (by decide) _)
  refine ⟨_, husing, .seq (R := t.IsAlias) (.some (show Terminal.usingKw ∈ _ by decide)
    (.once (.rule ?_ (by decide)) (by decide) (by decide))) fun mid hmid => .none (by decide) hmid⟩
  refine .skip (show Terminal.usingKw ∉ _ by decide) (.cons rfl hname
    (.right (show Terminal.name ∉ _ by decide) (.cons rfl hequals
      (.left (show Terminal.equals ∈ _ by decide) (.cons rfl htype (.andThen (htakes _ ?_) ?_))))))
  · decide
  · rintro _ ⟨inner, htree, rfl⟩
    refine .token rfl (.atEnd (by decide)) ⟨_, rfl, ?_⟩
    have hamong : TypeSyntax.ofTree? (Rule.type.node inner) = some t := htree
    rw [Tree.filter_isKept rfl]
    rw [Rule.node] at hamong
    simp [UsingTarget.ofParts?, Tree.phrase?, Tree.isPhrase, Tree.name?, among?, Rule.node, hamong]

/-- **The text of a type is read as that type**, if the names in it are read as names. -/
theorem parse_text {t : TypeSyntax} (ht : t.IsWritten) (hreadable : t.IsReadable)
    (hclear : t.IsClear .typeStart) : TypeSyntax.parse t.text = .ok t := by
  obtain ⟨a, hfirst, htakes⟩ := takes_alias ht hreadable hclear
  obtain ⟨parts, hparse, inner, rfl, htarget⟩ := Tree.parse_of_takes hfirst htakes
  obtain ⟨directive, hdirective, halias⟩ : ∃ u : UsingDirective,
      UsingDirective.ofTree? (Rule.usingDirective.node inner) = some u ∧ u.target = .alias "X" t := by
    simp [Rule.node, UsingDirective.ofTree?, htarget]
  obtain ⟨unit, hunit, husings⟩ : ∃ unit, CompilationUnit.ofTree? (aliasSource t.text).toList ""
      (Rule.source.node [Rule.usingDirective.node inner]) = some unit ∧ unit.usings = [directive] := by
    have hkept : [Rule.usingDirective.node inner].filter (Tree.isKept .source) =
        [Rule.usingDirective.node inner] := rfl
    rw [Rule.node, hkept]
    rw [Rule.node] at hdirective ⊢
    simp [CompilationUnit.ofTree?, Tree.phrases, Tree.isPhrase, hdirective, NamespaceMember.ofParts?]
  have hparsed : CompilationUnit.parse "" (aliasSource t.text) = .ok unit := by
    refine Pattern.bind_eq_ok.mpr ⟨(Rule.source.node [Rule.usingDirective.node inner], unit),
      Pattern.bind_eq_ok.mpr ⟨_, hparse, ?_⟩, rfl⟩
    rw [hunit]
    rfl
  refine Pattern.bind_eq_ok.mpr ⟨_, hparsed, ?_⟩
  rw [husings, List.head?_cons, Option.map_some, halias]
  rfl

end TypeSyntax

end Facade
