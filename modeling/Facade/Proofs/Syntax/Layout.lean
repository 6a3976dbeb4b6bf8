import Facade.Proofs.Grammar.Layout
import Facade.Proofs.Syntax.BareTree
import Facade.Proofs.Syntax.WrittenSource

/-!
# Layout between the tokens of a source

White space and comments between two tokens have no say in what a source declares, unless something before
them is open.

* **`CompilationUnit.insert_layout`**: a source with more layout declares the same;
* `CompilationUnit.not_insert_of_open`: a quote in a body before the place can make the difference.
-/

namespace Facade

open Scan

instance (e : Extent) (p : Position) : Decidable (e.IsApart p) :=
  inferInstanceAs (Decidable (_ ∨ _))

namespace CompilationUnit

/-- **Layout has no say in what a source declares.** White space, comments that end with their line and closed
comments may be put between two tokens if white space comes first. The place is to be outside of the opaque
regions and not at the end of one, and if there is a quote in the text no literal may be open in front of it. -/
theorem insert_layout {path source : String} {t : Tree} {unit : CompilationUnit}
    (h : parseWithTree path source = .ok (t, unit)) {p : Position} (hp : p.IsBreak source.toList)
    (hapart : ∀ e ∈ t.places Rule.isOpaque, e.IsApart p) {text : List Char} (htext : IsFiller text)
    (hblank : BeginsBlank text)
    (hopen : IsQuoteless text ∨ t.IsShutBefore source.toList p.offset) :
    ∃ unit', parse path (String.ofList (p.insert source.toList text)) = .ok unit' ∧
      unit'.withoutSpans = unit.withoutSpans := by
  obtain ⟨htree, hunit⟩ := parseWithTree_eq_ok.mp h
  obtain ⟨t', htree', hbare⟩ : ∃ t', Tree.parse (p.insert source.toList text) = .ok t' ∧
      t.bare (source.toList ++ p.insert source.toList text) source.toList =
        t'.bare (source.toList ++ p.insert source.toList text) (p.insert source.toList text) := by
    rcases hp with rfl | ⟨ts, hts, c, hc, rfl⟩
    · exact Tree.parse_prepend _ htext htree
    · exact Tree.parse_insert _ htext hblank htree hts hc hapart hopen
  obtain ⟨unit', hunit', hforget⟩ := exists_ofTree?_of_bare hunit hbare
  exact ⟨unit', parse_eq_ok.mpr ⟨t', by rwa [String.toList_ofList], by rwa [String.toList_ofList]⟩,
    hforget⟩

/-- The tree and the declarations of a source, and one of its tokens. -/
def tokenAt? (source : String) (k : Nat) : Option (Tree × CompilationUnit × Token) := do
  let (t, unit) ← (parseWithTree "src0.cs" source).toOption
  let ts ← (parsedTokens source.toList).toOption
  return (t, unit, ← ts[k]?)

theorem of_tokenAt? {source : String} {k : Nat} {t : Tree} {unit : CompilationUnit} {c : Token}
    (h : tokenAt? source k = some (t, unit, c)) : parseWithTree "src0.cs" source = .ok (t, unit) ∧
      c.extent.stop.IsBreak source.toList := by
  simp only [tokenAt?, Option.pure_def, Option.bind_eq_bind, Option.bind_eq_some_iff,
    Option.some.injEq, Prod.mk.injEq] at h
  obtain ⟨⟨t', unit'⟩, hparse, ts, hts, c', hc, rfl, rfl, rfl⟩ := h
  exact ⟨eq_ok_of_toOption hparse,
    Or.inr ⟨ts, eq_ok_of_toOption hts, _, List.mem_of_getElem? hc, rfl⟩⟩

/-- A source with a lone quote in a body; an initial value is on another line. -/
def initializedSource : String := "class C \x7b\n  void A() \x7b don't \x7d\n  int x = 5;\n\x7d\n"

/-- White space, a comment up to the end of its line, and a closed one, with quotes. -/
def quotedComments : List Char :=
  ' ' :: '/' :: '/' :: (" it's".toList ++ '\n' :: ' ' :: '/' :: '*' :: (" \"x\" ".toList ++ ['*', '/']))

theorem isFiller_quotedComments : IsFiller quotedComments :=
  .blank (by decide) (.line (by decide) (.blank (by decide) (.comment (by decide) .nil)))

/-- **Comments may stand behind the sign before an initial value**, even with quotes. -/
theorem insert_layout_initialized : ∃ t unit unit', ∃ c : Token,
    parseWithTree "src0.cs" initializedSource = .ok (t, unit) ∧ c.text = "=" ∧
      c.extent.stop.IsBreak initializedSource.toList ∧
      (∀ e ∈ t.places Rule.isOpaque, e.IsApart c.extent.stop) ∧
      t.IsShutBefore initializedSource.toList c.extent.stop.offset ∧
      parse "src0.cs"
        (String.ofList (c.extent.stop.insert initializedSource.toList quotedComments)) = .ok unit' ∧
      unit'.withoutSpans = unit.withoutSpans := by
  have htoken : (tokenAt? initializedSource 12).any (fun x =>
      decide (x.2.2.text = "=" ∧ (∀ e ∈ x.1.places Rule.isOpaque, e.IsApart x.2.2.extent.stop) ∧
        x.1.IsShutBefore initializedSource.toList x.2.2.extent.stop.offset)) = true := by
    decide +kernel
  obtain ⟨⟨t, unit, c⟩, hfound, htoken⟩ := (Option.any_eq_true _ _).mp htoken
  obtain ⟨htext, hapart, hshut⟩ := of_decide_eq_true htoken
  obtain ⟨hparse, hbreak⟩ := of_tokenAt? hfound
  obtain ⟨unit', hparse', hforget⟩ := insert_layout hparse hbreak hapart isFiller_quotedComments
    ⟨' ', _, rfl, rfl⟩ (Or.inr hshut)
  exact ⟨t, unit, unit', c, hparse, htext, hbreak, hapart, hshut, hparse', hforget⟩

/-- A source with a lone quote in a body; another method is on the same line. -/
def openLine : String := "class C \x7b void A() \x7b don't \x7d void M(); \x7d"

/-- A comment with a quote. -/
def quoteComment : List Char := ' ' :: '/' :: '*' :: (['\''] ++ ['*', '/'])

theorem isFiller_quoteComment : IsFiller quoteComment :=
  .blank (by decide) (.comment (by decide) .nil)

/-- **A lone quote in front of the place can make a difference**: with a quote in the text it opens a literal,
and the source cannot be parsed. -/
theorem not_insert_of_open : ∃ t unit, ∃ c : Token,
    parseWithTree "src0.cs" openLine = .ok (t, unit) ∧ c.text = "void" ∧
      c.extent.stop.IsBreak openLine.toList ∧
      (∀ e ∈ t.places Rule.isOpaque, e.stop.place < c.extent.stop.place) ∧
      IsFiller quoteComment ∧ BeginsBlank quoteComment ∧
      ¬ ∃ unit', parse "src0.cs" (String.ofList (c.extent.stop.insert openLine.toList quoteComment)) =
        .ok unit' ∧ unit'.withoutSpans = unit.withoutSpans := by
  have hlost : (tokenAt? openLine 10).any (fun x =>
      decide (x.2.2.text = "void" ∧
        (∀ e ∈ x.1.places Rule.isOpaque, e.stop.place < x.2.2.extent.stop.place) ∧
        (parse "src0.cs" (String.ofList
          (x.2.2.extent.stop.insert openLine.toList quoteComment))).toOption.isNone = true)) = true := by
    decide +kernel
  obtain ⟨⟨t, unit, c⟩, hfound, hlost⟩ := (Option.any_eq_true _ _).mp hlost
  obtain ⟨htext, hbehind, hlost⟩ := of_decide_eq_true hlost
  obtain ⟨hparse, hbreak⟩ := of_tokenAt? hfound
  refine ⟨t, unit, c, hparse, htext, hbreak, hbehind, isFiller_quoteComment, ⟨' ', _, rfl, rfl⟩, ?_⟩
  rintro ⟨unit', hparse', -⟩
  rw [hparse'] at hlost
  cases hlost

end CompilationUnit

end Facade
