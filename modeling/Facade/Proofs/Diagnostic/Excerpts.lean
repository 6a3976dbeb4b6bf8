import Facade.Proofs.Grammar.ErrorPlaces
import Facade.Proofs.Text.Lines

/-!
# The excerpt of a syntax error

A syntax error is shown with the line it is on, and the mark is below the character that it is about, as long
as nothing but line feeds ends the lines up to there.

* `SyntaxError.diagnostic`: what is said of a source without a tree;
* `SyntaxError.IsIn.line`: the line of an error, and the character at its column;
* **`Reporter.lines_addSyntaxError`**: what is shown of the error of a source;
* `not_excerpt_of_pageBreak`: a line behind another line end.
-/

namespace Facade

open Text

namespace SyntaxError

/-- The place of an error. -/
def span (e : SyntaxError) : Span := ⟨e.line, e.column, e.line, e.column⟩

/-- What is said of a source without a tree. -/
def diagnostic (e : SyntaxError) (filename : String) : Diagnostic :=
  ⟨.error, "FG1001", "syntax error: " ++ e.fault.message, some e.span, filename⟩

/-- **The line of an error** holds, at its column, the character that the error is about. -/
theorem IsIn.line {source : String} {e : SyntaxError} (h : e.IsIn source.toList) :
    ∃ n line, e.line = n + 1 ∧ 0 < e.column ∧ (split '\n' source)[n]? = some line ∧
      (e.fault.isAboutText →
        ∃ c, e.fault.offending = some c ∧ line.toList[e.column - 1]? = some c ∧ c ≠ '\r') := by
  obtain ⟨cursor, ⟨before, hsource, hposition⟩, hline, hcolumn, hoffending⟩ := h
  obtain ⟨n, line, hn, hpos, hsplit, hrest⟩ := line_of_after before cursor.rest
  rw [← hsource, String.ofList_toList] at hsplit
  rw [← hposition] at hn hpos hrest
  refine ⟨n, line, hline.trans hn, hcolumn ▸ hpos, hsplit, fun htext => ?_⟩
  obtain ⟨c, hc, hhead, hlayout⟩ := hoffending htext
  have hne : ∀ d, Scan.isLayout d = true → c ≠ d := by
    rintro d hd rfl
    rw [hlayout] at hd
    cases hd
  obtain ⟨cs, hcs⟩ := List.head?_eq_some_iff.mp hhead
  have hfirst : (line.toList.drop (e.column - 1))[0]? = some c := by
    rw [hcolumn, hrest, hcs, List.takeWhile_cons_of_pos (by simpa using hne '\n' rfl)]
    rfl
  rw [List.getElem?_drop, Nat.add_zero] at hfirst
  exact ⟨c, hc, hfirst, hne '\r' rfl⟩

end SyntaxError

namespace Reporter

variable {path source : String} {e : SyntaxError} {r : Reporter} {filename : Option String}

theorem addSyntaxError_eq (hline : 0 < e.line) (hfile : ∀ f ∈ filename, f = "" ∨ f = r.filename) :
    r.addSyntaxError e filename = { r with items := r.items ++ [e.diagnostic r.filename] } := by
  have hspan : (e.finding filename).span = some e.span := if_pos hline
  have htext : (e.finding filename).text = "syntax error: " ++ e.fault.message := by
    have hvalue : Arguments.get? [("message", e.fault.message)] "message" = some e.fault.message := rfl
    simp [Finding.text, SyntaxError.finding, Catalog.syntaxError, Template.fill, hvalue]
  have hreport : r.addSyntaxError e filename =
      r.add .error "FG1001" ("syntax error: " ++ e.fault.message) (some e.span) filename := by
    rw [addSyntaxError, report, hspan, htext]
    rfl
  rw [hreport]
  cases filename with
  | none => rfl
  | some f =>
    rcases hfile f rfl with rfl | rfl
    · rfl
    · simp only [add, ite_self, SyntaxError.diagnostic]

/-- **A syntax error is shown with the line it is on.** The error of a source is on one of its lines, as
line feeds divide it. A reporter that holds the source shows the error after the others, with an excerpt. If
no other line end stands in the lines before, carriage returns at their ends aside, then the excerpt is that
line, without the carriage return at its end, if and only if no other line end stands in the line itself.
The mark is below the character that the error is about, in every style; only the end of a source and faults
of the tree as a whole are about no character. -/
theorem lines_addSyntaxError (h : CompilationUnit.parse path source = .error e)
    (hsource : r.source = some source) (hfile : ∀ f ∈ filename, f = "" ∨ f = r.filename)
    (hbefore : ∀ l ∈ (split '\n' source).take (e.line - 1), IsWhole l) (base : Location)
    (files : String → Option String) (useUnicode : Bool) :
    ∃ line shown, 0 < e.line ∧ (split '\n' source)[e.line - 1]? = some line ∧
      (r.addSyntaxError e filename).lines base files useUnicode =
        r.lines base files useUnicode ++
          (e.diagnostic r.filename).excerpt useUnicode base e.span shown ∧
      (shown = withoutReturn line ↔ IsWhole line) ∧
      Diagnostic.indent e.span = String.ofList (List.replicate (e.column - 1) ' ') ∧
      (IsWhole line → e.fault.isAboutText →
        ∃ c, e.fault.offending = some c ∧ shown.toList[e.column - 1]? = some c) := by
  obtain ⟨n, line, hn, hpos, hline, hoffending⟩ := (CompilationUnit.isIn_of_parse h).line
  have hindex : e.line - 1 = n := by omega
  rw [hindex] at hbefore ⊢
  have hshown := lineAt_eq_iff hline hbefore
  rw [← hn] at hshown
  refine ⟨line, lineAt source e.line, by omega, hline, ?lines, hshown, ?indent, ?mark⟩
  case lines =>
    have hown : r.sourceOf files (e.diagnostic r.filename) = source := by
      simp [sourceOf, SyntaxError.diagnostic, hsource]
    have hlast : r.linesOf base files useUnicode (e.diagnostic r.filename) =
        (e.diagnostic r.filename).excerpt useUnicode base e.span (lineAt source e.line) := by
      rw [← hown]
      rfl
    rw [addSyntaxError_eq (by omega) hfile, ← hlast]
    simp only [lines, List.flatMap_append, List.flatMap_cons, List.flatMap_nil, List.append_nil]
    rfl
  case indent =>
    have hblanks : (e.span.column - 1).toNat = e.column - 1 := by
      change ((e.column : Int) - 1).toNat = _
      omega
    rw [Diagnostic.indent, hblanks]
  case mark =>
    intro hwhole htext
    obtain ⟨c, hc, hat, hreturn⟩ := hoffending htext
    rw [hshown.mpr hwhole]
    exact ⟨c, hc, getElem?_withoutReturn hat hreturn⟩

end Reporter

section Example

/-- The error of a source, if it has no tree. -/
def CompilationUnit.error? (path source : String) : Option SyntaxError :=
  match CompilationUnit.parse path source with
  | .error e => some e
  | .ok _ => none

theorem CompilationUnit.parse_of_error? {path source : String} {e : SyntaxError}
    (h : CompilationUnit.error? path source = some e) :
    CompilationUnit.parse path source = .error e := by
  unfold CompilationUnit.error? at h
  split at h
  · next heq =>
    cases h
    exact heq
  · cases h

/-- A brace is missing in a source whose lines end with a carriage return and a line feed. -/
def returnSource : String := "class A \x7b \x7d\r\nclass B \x7d\r\n"

/-- A brace is missing behind a page break. -/
def pageSource : String := "class A \x7b \x7d\n\x0c\nclass B \x7d"

/-- The line is shown without its carriage return. -/
theorem lines_addSyntaxError_of_returns :
    ∃ e, CompilationUnit.parse "a.cs" returnSource = .error e ∧ e.line = 2 ∧ e.column = 9 ∧
      e.fault.offending = some '\x7d' ∧
      ((Reporter.empty (some returnSource) "a.cs").addSyntaxError e none).lines [] (fun _ => none) false =
        (e.diagnostic "a.cs").excerpt false [] e.span "class B \x7d" := by
  have hparse : (CompilationUnit.error? "a.cs" returnSource).any (fun e =>
      decide (e.line = 2 ∧ e.column = 9 ∧ e.fault.offending = some '\x7d')) = true := by
    decide +kernel
  obtain ⟨e, herror, hfacts⟩ := (Option.any_eq_true _ _).mp hparse
  obtain ⟨hline, hcolumn, hoffending⟩ := of_decide_eq_true hfacts
  have he := CompilationUnit.parse_of_error? herror
  have hfile : ∀ f ∈ (none : Option String), f = "" ∨ f = "a.cs" := by simp
  obtain ⟨line, shown, -, hat, hlines, hshown, -, -⟩ :=
    Reporter.lines_addSyntaxError (r := .empty (some returnSource) "a.cs") he rfl hfile
      (by rw [hline]; decide) [] (fun _ => none) false
  have hsecond : (split '\n' returnSource)[2 - 1]? = some "class B \x7d\r" := by decide
  rw [hline, hsecond] at hat
  cases hat
  have htext : shown = "class B \x7d" := (hshown.mpr (by decide)).trans (by decide)
  rw [htext] at hlines
  exact ⟨e, he, hline, hcolumn, hoffending, hlines⟩

/-- **A line behind a page break is not shown**: the excerpt is the empty line that ends at the break. -/
theorem not_excerpt_of_pageBreak :
    ¬ ∀ (path source : String) (e : SyntaxError) (r : Reporter) (filename : Option String)
        (line : String), CompilationUnit.parse path source = .error e → r.source = some source →
      (∀ f ∈ filename, f = "" ∨ f = r.filename) → (split '\n' source)[e.line - 1]? = some line →
      ∀ (base : Location) (files : String → Option String) (useUnicode : Bool),
        (r.addSyntaxError e filename).lines base files useUnicode = r.lines base files useUnicode ++
          (e.diagnostic r.filename).excerpt useUnicode base e.span line := by
  intro h
  have hparse : (CompilationUnit.error? "a.cs" pageSource).any (fun e =>
      decide ((split '\n' pageSource)[e.line - 1]? = some "class B \x7d" ∧
        ((Reporter.empty (some pageSource) "a.cs").addSyntaxError e none).lines [] (fun _ => none) false ≠
          (e.diagnostic "a.cs").excerpt false [] e.span "class B \x7d")) = true := by
    decide +kernel
  obtain ⟨e, herror, hfacts⟩ := (Option.any_eq_true _ _).mp hparse
  obtain ⟨hline, hdiffers⟩ := of_decide_eq_true hfacts
  exact hdiffers (h "a.cs" pageSource e (.empty (some pageSource) "a.cs") none "class B \x7d"
    (CompilationUnit.parse_of_error? herror) rfl (by simp) hline [] (fun _ => none) false)

end Example

end Facade
