import Facade.Proofs.Generation.Spans
import Facade.Proofs.Grammar.BlockText
import Facade.Proofs.Syntax.BareTree

/-!
# What is between the braces of a body

What a block holds has no say in what a source declares. Other text can stand there if its braces are
balanced, and nothing but spans changes, unless something before the block is open.

* `Extent.refill`, `Extent.IsBlock.refill`: a source with other text in the place of a block's;
* `CompilationUnit.parse_refill`: the other source declares the same;
* **`CompilationUnit.refill_block`**: and the same is generated from it;
* `not_refill_of_open`: a quote in a body before the block can make the difference.
-/

namespace Facade

open Text

/-- The source with other text between the braces of the block at this place. -/
def Extent.refill (e : Extent) (source text : List Char) : List Char :=
  source.take (e.start.offset + 1) ++ text ++ source.drop (e.stop.offset - 1)

theorem Extent.IsBlock.refill {e : Extent} {before body behind : List Char}
    (h : e.IsBlock before (body ++ '\x7d' :: behind) behind) (text : List Char) :
    e.refill (before ++ '\x7b' :: (body ++ '\x7d' :: behind)) text =
      before ++ '\x7b' :: (text ++ '\x7d' :: behind) := by
  have htake : (before ++ '\x7b' :: (body ++ '\x7d' :: behind)).take (before.length + 1) =
      before ++ ['\x7b'] := by
    rw [← List.singleton_append, ← List.append_assoc]
    exact List.take_left' (by simp)
  have hdrop : (before ++ '\x7b' :: (body ++ '\x7d' :: behind)).drop (e.stop.offset - 1) =
      '\x7d' :: behind := by
    rw [← List.singleton_append, ← List.append_assoc, ← List.append_assoc]
    refine List.drop_left' ?_
    rw [h.stop]
    simp only [List.length_append, List.length_cons, List.length_nil]
    omega
  rw [Extent.refill, h.start, htake, hdrop]
  simp

namespace CompilationUnit

/-- **A source with another block declares the same**, but for spans. -/
theorem parse_refill {path source : String} {t : Tree} {unit : CompilationUnit}
    (h : parseWithTree path source = .ok (t, unit)) {e : Extent} (he : e ∈ t.blocks)
    (hshut : t.IsShutBefore source.toList e.start.offset) {text : List Char}
    (htext : Scan.BracesBalanced text) (hlayout : ∀ c ∈ text, isBlank c → Scan.isLayout c) :
    ∃ unit', parse path (String.ofList (e.refill source.toList text)) = .ok unit' ∧
      unit'.withoutSpans = unit.withoutSpans := by
  obtain ⟨htree, hunit⟩ := parseWithTree_eq_ok.mp h
  obtain ⟨before, body, behind, hsource, hblock⟩ := Tree.exists_isBlock htree he
  have hrefill := hblock.refill text
  rw [← hsource] at hrefill
  rw [hblock.start] at hshut
  rw [hsource] at htree hshut
  obtain ⟨t', htree', hbare⟩ := Tree.parse_around (source.toList ++ e.refill source.toList text) htree he
    hblock ⟨text ++ ['\x7d'], by simp⟩ hshut (Pattern.readsBlock_of_balanced htext hlayout before behind)
  rw [← hrefill] at htree' hbare
  rw [← hsource] at hbare
  obtain ⟨unit', hunit', hforget⟩ := exists_ofTree?_of_bare hunit hbare
  exact ⟨unit', parse_eq_ok.mpr ⟨t', by rwa [String.toList_ofList], by rwa [String.toList_ofList]⟩,
    hforget⟩

/-- **What a block holds has no say in what is generated.** A source with other text between the braces
of a block is parsed and declares the same, but for spans, and with it in the place of the source every
run generates the same units. The braces of the text are to be balanced when literals and comments are
skipped, all its white space is to be such as may stand between tokens, and no literal may be open in
front of the block. -/
theorem refill_block {path source : String} {t : Tree} {unit : CompilationUnit}
    (h : parseWithTree path source = .ok (t, unit)) {e : Extent} (he : e ∈ t.blocks)
    (hshut : t.IsShutBefore source.toList e.start.offset) {text : List Char}
    (htext : Scan.BracesBalanced text) (hlayout : ∀ c ∈ text, isBlank c → Scan.isLayout c) :
    ∃ unit', parse path (String.ofList (e.refill source.toList text)) = .ok unit' ∧
      unit'.withoutSpans = unit.withoutSpans ∧
      ∀ (incremental : Bool) (g : Generator),
        g.fingerprint? = (Generator.forRuns incremental).fingerprint? →
        ∀ (earlier later : List CompilationUnit) (moment : Moment),
          (g.run (earlier ++ unit' :: later) moment).map (fun s => s.1.registry.units) =
            (g.run (earlier ++ unit :: later) moment).map fun s => s.1.registry.units := by
  obtain ⟨unit', hparse, hforget⟩ := parse_refill h he hshut htext hlayout
  refine ⟨unit', hparse, hforget, fun incremental g hg earlier later moment => ?_⟩
  have hignores : g.IgnoresSpans := by
    unfold Generator.IgnoresSpans
    rw [hg]
    exact Generator.ignoresSpans_forRuns incremental
  exact Generator.units_run_congr hignores (by simp only [List.map_append, List.map_cons, hforget])
    moment

/-- The tree and the declarations of a source, and the last block of the tree. -/
def lastBlock? (source : String) : Option (Tree × CompilationUnit × Extent) := do
  let (t, unit) ← (parseWithTree "src0.cs" source).toOption
  return (t, unit, ← t.blocks.getLast?)

theorem of_lastBlock? {source : String} {t : Tree} {unit : CompilationUnit} {e : Extent}
    (h : lastBlock? source = some (t, unit, e)) :
    parseWithTree "src0.cs" source = .ok (t, unit) ∧ e ∈ t.blocks := by
  simp only [lastBlock?, Option.pure_def, Option.bind_eq_bind, Option.bind_eq_some_iff,
    Option.some.injEq, Prod.mk.injEq] at h
  obtain ⟨⟨t', unit'⟩, hparse, e', he, rfl, rfl, rfl⟩ := h
  exact ⟨eq_ok_of_toOption hparse, List.mem_of_getLast? he⟩

/-- A source with a lone quote in a body; the body behind it is on another line. -/
def quotedSource : String :=
  "using FacadeGenerator;\nnamespace N \x7b\n public interface I \x7b void M(); \x7d\n" ++
    " public partial class C : IFacadeGenerator<I> \x7b\n  void A() \x7b don't \x7d\n" ++
    "  void B() \x7b f(); \x7d\n \x7d\n\x7d\n"

/-- Text with a literal that holds a brace, and with a block. -/
def bracedText : List Char :=
  " s = ".toList ++ '"' :: (['\x7d'] ++ '"' :: ("; if (b) ".toList ++
    '\x7b' :: (" f(); ".toList ++ '\x7d' :: [' '])))

theorem balanced_bracedText : Scan.BracesBalanced bracedText := by
  have hcall : Scan.BracesBalanced " f(); ".toList := by
    rw [← List.append_nil " f(); ".toList]
    exact .plain (by decide) .nil
  have hblank : Scan.BracesBalanced [' '] := .plain (w := [' ']) (by decide) .nil
  have hliteral : Scan.InLiteral '"' ['\x7d'] := .char (by decide) (by decide) (by decide) .nil
  exact .plain (by decide) (.literal (Or.inl rfl) hliteral (.plain (by decide) (.block hcall hblank)))

/-- **The body may hold a brace in a literal, and a block**, and the facade stays the same. -/
theorem refill_block_braced : ∃ t unit e unit' u,
    parseWithTree "src0.cs" quotedSource = .ok (t, unit) ∧ e ∈ t.blocks ∧
      t.IsShutBefore quotedSource.toList e.start.offset ∧
      parse "src0.cs" (String.ofList (e.refill quotedSource.toList bracedText)) = .ok unit' ∧
      unit'.withoutSpans = unit.withoutSpans ∧
      ((Generator.forRuns false).run [unit] .never).map (fun s => s.1.registry.units) = .ok [u] ∧
      ((Generator.forRuns false).run [unit'] .never).map (fun s => s.1.registry.units) = .ok [u] := by
  have hprogram : (lastBlock? quotedSource).any (fun x =>
      decide (x.1.IsShutBefore quotedSource.toList x.2.2.start.offset ∧
        (((Generator.forRuns false).run [x.2.1] .never).toOption.any fun s =>
          s.1.registry.units.length == 1) = true)) = true := by
    decide +kernel
  have hlayout : bracedText.all (fun c => !isBlank c || Scan.isLayout c) = true := by decide +kernel
  obtain ⟨⟨t, unit, e⟩, hblock, hprogram⟩ := (Option.any_eq_true _ _).mp hprogram
  obtain ⟨hparse, he⟩ := of_lastBlock? hblock
  obtain ⟨hshut, hunits⟩ := of_decide_eq_true hprogram
  obtain ⟨⟨result, after⟩, hresult, hunits⟩ := (Option.any_eq_true _ _).mp hunits
  obtain ⟨u, hu⟩ := List.length_eq_one_iff.mp (beq_iff_eq.mp hunits)
  have hbefore : ((Generator.forRuns false).run [unit] .never).map (fun s => s.1.registry.units) =
      .ok [u] := by
    rw [eq_ok_of_toOption hresult]
    exact congrArg Except.ok hu
  obtain ⟨unit', hparse', hforget, hrun⟩ := refill_block hparse he hshut balanced_bracedText
    fun c hc hblank => by simpa [hblank] using List.all_eq_true.mp hlayout c hc
  exact ⟨t, unit, e, unit', u, hparse, he, hshut, hparse', hforget, hbefore,
    (hrun false (Generator.forRuns false) rfl [] [] .never).trans hbefore⟩

/-- A source with a lone quote in a body; the body behind it is on the same line. -/
def openSource : String := "class C \x7b void A() \x7b don't \x7d void M() \x7b f(); \x7d \x7d"

/-- Text with a character literal. -/
def characterText : List Char := " x = ".toList ++ '\'' :: (['a'] ++ '\'' :: "; ".toList)

theorem balanced_characterText : Scan.BracesBalanced characterText := by
  have hend : Scan.BracesBalanced "; ".toList := by
    rw [← List.append_nil "; ".toList]
    exact .plain (by decide) .nil
  have hliteral : Scan.InLiteral '\'' ['a'] := .char (by decide) (by decide) (by decide) .nil
  exact .plain (by decide) (.literal (Or.inr rfl) hliteral hend)

/-- How many members the types of a source have. -/
def memberCounts (unit : CompilationUnit) : List Nat :=
  (unit.typeSites 0).map fun t => t.declaration.members.length

/-- **A lone quote in front of a block can make a difference**: with a character literal in the block it
opens a literal, and the first method has the second one in its body. -/
theorem not_refill_of_open : ∃ t unit e,
    parseWithTree "src0.cs" openSource = .ok (t, unit) ∧ e ∈ t.blocks ∧
      e.text openSource.toList = "\x7b f(); \x7d" ∧ Scan.BracesBalanced characterText ∧
      (∀ c ∈ characterText, isBlank c → Scan.isLayout c) ∧
      ¬ ∃ unit', parse "src0.cs" (String.ofList (e.refill openSource.toList characterText)) =
        .ok unit' ∧ unit'.withoutSpans = unit.withoutSpans := by
  have hlost : (lastBlock? openSource).any (fun x =>
      decide (x.2.2.text openSource.toList = "\x7b f(); \x7d" ∧
        ((parse "src0.cs"
            (String.ofList (x.2.2.refill openSource.toList characterText))).toOption.any fun u =>
          u.withoutSpans.memberCounts == x.2.1.withoutSpans.memberCounts) = false)) = true := by
    decide +kernel
  have hlayout : characterText.all (fun c => !isBlank c || Scan.isLayout c) = true := by
    decide +kernel
  obtain ⟨⟨t, unit, e⟩, hblock, hlost⟩ := (Option.any_eq_true _ _).mp hlost
  obtain ⟨hparse, he⟩ := of_lastBlock? hblock
  obtain ⟨htext, hlost⟩ := of_decide_eq_true hlost
  refine ⟨t, unit, e, hparse, he, htext, balanced_characterText,
    fun c hc hblank => by simpa [hblank] using List.all_eq_true.mp hlayout c hc, ?_⟩
  rintro ⟨unit', hparse', hforget⟩
  rw [hparse'] at hlost
  change (unit'.withoutSpans.memberCounts == unit.withoutSpans.memberCounts) = false at hlost
  rw [hforget, beq_self_eq_true] at hlost
  cases hlost

end CompilationUnit

end Facade
