import Mathlib.Data.List.Find
import Facade.Proofs.Binding.MetadataNames
import Facade.Proofs.Generation.ReadBack

/-!
# How the marker is recognised

The marker is recognised by the text of its definition. That text ends with the name of the type
parameter, and two other symbols can have it: a nested type, and a type that is not declared.

* `DefinitionKey.metadataName_eq_marker_iff`: only the marker has its metadata name;
* `Program.display_eq_generic`: the symbols whose texts are a plain name with one type argument;
* `Program.RealizesMarker`, `Program.LooksLikeMarker`: the marker, and what has its text;
* **`Service.isMarker_iff`**, **`Service.marker_recognition`**: what is taken for the marker;
* `marker_recognition_spelled`: a program with the marker;
* `not_isMarker_iff_realizesMarker`: programs where the text and the definition tell different things.
-/

namespace Facade

open Text Scan

/-! ## The marker -/

/-- The identity of the marker. -/
def Marker.key : DefinitionKey := .topLevel (some "FacadeGenerator") Marker.name 1

/-- The metadata name of the marker. -/
def Marker.metadataName : String := "FacadeGenerator.IFacadeGenerator`1"

/-- The definition behind the symbol is the one with the metadata name of the marker. -/
def Program.RealizesMarker (p : Program) (t : TypeSymbol) : Prop :=
  ∃ d, p.byMetadataName? Marker.metadataName = some d ∧ Program.unconstructed t = .definition d.key

/-- The type parameters of the declared type, by their names. -/
def Program.CallsParameters (p : Program) (k : DefinitionKey) (names : List String) : Prop :=
  (p.typeParameters k).map TypeParameter.name = names

/-- A type named like the marker, nested in a type named like its namespace. -/
def Marker.nestedKey : DefinitionKey := .nested (.topLevel none "FacadeGenerator" 0) Marker.name 1

/-- The symbol has the text of the marker, and is another type: a nested one, or one that the program
does not declare. -/
inductive Program.LooksLikeMarker (p : Program) (t : TypeSymbol) : Prop
  | nested : Program.unconstructed t = .definition Marker.nestedKey →
      p.CallsParameters Marker.nestedKey ["T"] → LooksLikeMarker p t
  | unresolved (a : TypeSymbol) : t = .unresolved "FacadeGenerator.IFacadeGenerator" [a] →
      p.display a = "T" → LooksLikeMarker p t

/-- **Only the marker has its metadata name.** -/
theorem DefinitionKey.metadataName_eq_marker_iff {k : DefinitionKey} (hk : k.IsWritten) :
    k.metadataName = Marker.metadataName ↔ k = Marker.key := by
  have hname : ∀ n ∈ ["FacadeGenerator", Marker.name], Named n := fun n hn =>
    Or.inl ((by decide : ∀ m ∈ ["FacadeGenerator", Marker.name], IsPlainName m.toList) n hn)
  have hmarker : Marker.key.IsWritten :=
    ⟨fun s hs => (hname s (by simp_all)).dotted, hname _ (by simp)⟩
  rw [show Marker.metadataName = Marker.key.metadataName by decide]
  exact ⟨fun h => metadataName_injective hk hmarker h, fun h => by rw [h]⟩

/-! ## Texts with one type argument -/

/-- The text of a name that is no closing bracket at its end. -/
def EndsInName (n : String) : Prop := ∃ before last, Named last ∧ n.toList = before ++ last.toList

theorem Qualified.endsInName {n : String} (h : Qualified n) : EndsInName n := by
  obtain ⟨before, last, -, hlast, rfl⟩ := h
  cases before with
  | nil => exact ⟨[], last, hlast, by simp⟩
  | cons q before =>
    refine ⟨(".".intercalate ((q :: before).map NamePart.text) ++ ".").toList, last, hlast, ?_⟩
    rw [String.intercalate_append_of_ne_nil (by simp) (by simp), String.intercalate_singleton,
      String.toList_append]

theorem EndsInName.prepend {n : String} (h : EndsInName n) (s : String) : EndsInName (s ++ n) := by
  obtain ⟨before, last, hlast, heq⟩ := h
  exact ⟨s.toList ++ before, last, hlast, by rw [String.toList_append, heq, List.append_assoc]⟩

theorem EndsInName.ne_append {n : String} (h : EndsInName n) {c : Char} (hc : isWord c = false)
    (hat : c ≠ '@') (x : List Char) : n.toList ≠ x ++ [c] := by
  obtain ⟨before, last, hlast, heq⟩ := h
  intro hx
  rw [heq] at hx
  have hend := congrArg List.getLast? hx
  rw [List.getLast?_append_of_ne_nil _ (IsName.ne_nil hlast), List.getLast?_concat] at hend
  exact hlast.without hc hat c (List.mem_of_getLast? hend) rfl

theorem withArguments_eq_generic {n m a : String} {as : List String} (hn : EndsInName n)
    (hm : Without (· = '<') m.toList) (ha : Without (· ∈ ['<', ',']) a.toList)
    (h : withArguments n as = m ++ "<" ++ a ++ ">") : n = m ∧ as = [a] := by
  have hlist := congrArg String.toList h
  unfold withArguments at hlist
  split_ifs at hlist with hempty
  · exact absurd (by simpa using hlist)
      (hn.ne_append (c := '>') (by decide) (by decide) (m.toList ++ '<' :: a.toList))
  · simp only [String.toList_append, List.append_assoc] at hlist
    have hopen : n.toList ++ '<' :: (commaSeparated as).toList = m.toList ++ '<' :: a.toList := by
      refine (List.append_left_inj ['>']).mp ?_
      simpa using hlist
    obtain ⟨hname, harguments⟩ :
        n.toList = m.toList ∧ (commaSeparated as).toList = a.toList := by
      rcases List.append_eq_append_iff.mp hopen with ⟨w, hw, hrest⟩ | ⟨w, hw, hrest⟩
      all_goals
        cases w with
        | nil => exact ⟨by simpa [eq_comm] using hw, by simpa [eq_comm] using hrest⟩
        | cons c w => _
      · obtain ⟨rfl, -⟩ := List.cons.inj hrest
        exact absurd rfl (hm '<' (by simp [hw]))
      · obtain ⟨-, hrest⟩ := List.cons.inj hrest
        exact absurd (by simp) (ha '<' (by simp [hrest]))
    refine ⟨String.toList_inj.mp hname, ?_⟩
    match as, hempty, harguments with
    | [b], _, harguments => simpa [commaSeparated, String.toList_inj] using harguments
    | b :: c :: as, _, harguments =>
      refine absurd (by simp) (ha ',' ?_)
      rw [← harguments, commaSeparated, String.intercalate_cons_cons]
      simp

namespace Program

variable {p : Program}

theorem qualifiedName_eq_dotted {s n : String} (hs : Named s) (hn : Named n) {k : DefinitionKey}
    (hk : k.IsWritten) (h : p.qualifiedName k = s ++ "." ++ n) :
    (∃ a, k = .topLevel (some s) n a) ∨
      ∃ a b, k = .nested (.topLevel none s b) n a ∧ p.typeParameters (.topLevel none s b) = [] := by
  have hdot : ∀ {m : String}, Named m → Without (· = '.') m.toList :=
    fun hm => hm.without (by decide) (by decide)
  have hcut : ∀ {x m : String}, Named m → x ++ "." ++ m = s ++ "." ++ n → x = s ∧ m = n := by
    intro x m hm heq
    have hlist := congrArg String.toList heq
    simp only [String.toList_append, List.append_assoc] at hlist
    obtain ⟨hx, -, hm⟩ := cut_at_last (hdot hm) (hdot hn) rfl rfl hlist
    exact ⟨String.toList_inj.mp hx, String.toList_inj.mp hm⟩
  cases k with
  | topLevel space m a =>
    cases space with
    | none =>
      have hmem : '.' ∈ m.toList := by
        rw [show m = s ++ "." ++ n from h]
        simp
      exact absurd rfl (hdot hk.2 _ hmem)
    | some x =>
      rw [qualifiedName, qualify_dotted (hk.1 x rfl)] at h
      obtain ⟨rfl, rfl⟩ := hcut hk.2 h
      exact Or.inl ⟨a, rfl⟩
  | nested o m a =>
    obtain ⟨houter, rfl⟩ := hcut hk.2 h
    -- The text of the containing type is a name: it has neither type parameters nor a dot.
    have hnone : p.typeParameters o = [] := by
      by_contra hne
      have hmem : '>' ∈ s.toList := by
        rw [← houter]
        simp [withArguments, hne]
      exact hs.without (c := '>') (by decide) (by decide) _ hmem rfl
    rw [hnone] at houter
    change p.qualifiedName o = s at houter
    have hoDot : '.' ∉ (p.qualifiedName o).toList := houter ▸ fun hmem => hdot hs _ hmem rfl
    cases o with
    | topLevel space q b =>
      cases space with
      | none =>
        obtain rfl : q = s := houter
        exact Or.inr ⟨a, b, rfl, hnone⟩
      | some x =>
        rw [qualifiedName, qualify_dotted (hk.1.1 x rfl)] at hoDot
        exact absurd (by simp) hoDot
    | nested o' q b => exact absurd (by simp [qualifiedName]) hoDot

/-- **The symbols whose text is a plain name with one plain type argument.** -/
theorem display_eq_generic (hp : p.HasNamedParameters) {t : TypeSymbol} (ht : t.IsWritten)
    {m a : String} (hm : Without (· = '<') m.toList) (ha : Without (· ∈ ['<', ',']) a.toList)
    (h : p.display (unconstructed t) = m ++ "<" ++ a ++ ">") :
    (∃ k, k.IsWritten ∧ unconstructed t = .definition k ∧ p.qualifiedName k = m ∧
        p.CallsParameters k [a]) ∨
      ∃ b, t = .unresolved m [b] ∧ p.display b = a := by
  have hdefinition : ∀ k : DefinitionKey, k.IsWritten → p.definitionText k = m ++ "<" ++ a ++ ">" →
      p.qualifiedName k = m ∧ p.CallsParameters k [a] := fun k hk h =>
    withArguments_eq_generic (qualified_qualifiedName hp hk).endsInName hm ha h
  -- A text that ends in another sign is not that of a generic type.
  have hsign : ∀ (x : String) (c : Char), c ≠ '>' → x ++ c.toString ≠ m ++ "<" ++ a ++ ">" := by
    intro x c hc heq
    have hend := congrArg (fun s => s.toList.getLast?) heq
    simp only [String.toList_append, Char.toString, String.toList_singleton] at hend
    rw [List.getLast?_concat, List.getLast?_append_of_ne_nil _ (by simp)] at hend
    exact hc (by simpa using hend)
  have hname : ∀ n : String, Named n → n ≠ m ++ "<" ++ a ++ ">" := fun n hn heq =>
    (hn.qualified.endsInName).ne_append (c := '>') (by decide) (by decide)
      (m.toList ++ '<' :: a.toList) (by rw [heq]; simp)
  cases ht with
  | special hk =>
    exact absurd h (hname _ (Or.inl ((by decide : ∀ w ∈ predefinedWords, IsPlainName w.toList) _ hk)))
  | parameter hq => exact absurd h (hname _ hq)
  | @unresolved isGlobal n as hn _ =>
    have hend : EndsInName (if isGlobal then "global::" ++ n else n) := by
      cases isGlobal with
      | true => exact hn.endsInName.prepend _
      | false => exact hn.endsInName
    obtain ⟨hm', has⟩ := withArguments_eq_generic hend hm ha h
    rw [displayAll_eq_map, List.map_eq_singleton_iff] at has
    obtain ⟨b, rfl, hb⟩ := has
    exact Or.inr ⟨b, by rw [hm'], hb⟩
  | @array e rank =>
    refine absurd h ?_
    change p.display e ++ arrayBrackets rank ≠ _
    rw [arrayBrackets, ← String.append_assoc]
    exact hsign _ ']' (by decide)
  | nullable => exact absurd h (hsign _ '?' (by decide))
  | pointer => exact absurd h (hsign _ '*' (by decide))
  | tuple => exact absurd h (hsign _ ')' (by decide))
  | definition hk => exact Or.inl ⟨_, hk, rfl, hdefinition _ hk h⟩
  | constructed hk => exact Or.inl ⟨_, hk, rfl, hdefinition _ hk h⟩

end Program

/-! ## Recognition -/

namespace Service

variable {units : List CompilationUnit}

theorem realizesMarker_iff {P : String → Prop} (hunits : ∀ u ∈ units, u.IsWritten P)
    {t : TypeSymbol} :
    (Model.ofUnits units).program.RealizesMarker t ↔
      Program.unconstructed t = .definition Marker.key ∧
        ∃ d, (Model.ofUnits units).program.definition? Marker.key = some d := by
  have hnames : ∀ d ∈ (Model.ofUnits units).program.definitions,
      d.key.metadataName = Marker.metadataName ↔ d.key = Marker.key :=
    fun d hd => DefinitionKey.metadataName_eq_marker_iff (Model.isWritten_key hunits hd)
  have hfind : (Model.ofUnits units).program.byMetadataName? Marker.metadataName =
      (Model.ofUnits units).program.definition? Marker.key :=
    List.find?_congr fun d hd => by
      rw [Bool.eq_iff_iff, beq_iff_eq, beq_iff_eq, hnames d hd]
  rw [Program.RealizesMarker, hfind]
  constructor
  · rintro ⟨d, hd, ht⟩
    exact ⟨(Program.definition?_eq_some hd).2 ▸ ht, d, hd⟩
  · rintro ⟨ht, d, hd⟩
    exact ⟨d, hd, (Program.definition?_eq_some hd).2 ▸ ht⟩

/-- **What is taken for the marker**: the marker, if its type parameter is called as in its own
source, and what looks like that. -/
theorem isMarker_iff {P : String → Prop} (hunits : ∀ u ∈ units, u.IsWritten P) {t : TypeSymbol}
    (ht : t.IsWritten) :
    (Model.ofUnits units).service.isMarker t = true ↔
      (Model.ofUnits units).program.RealizesMarker t ∧
          (Model.ofUnits units).program.CallsParameters Marker.key ["T"] ∨
        (Model.ofUnits units).program.LooksLikeMarker t := by
  set p := (Model.ofUnits units).program with hprogram
  have hp : p.HasNamedParameters := (Model.isWritten_ofUnits hunits).hasNamedParameters
  have hnamed : Named "FacadeGenerator" ∧ Named Marker.name := ⟨Or.inl (by decide), Or.inl (by decide)⟩
  have hdisplay : Marker.displayName = "FacadeGenerator.IFacadeGenerator" ++ "<" ++ "T" ++ ">" := by
    decide
  have hmarker : (Model.ofUnits units).service.isMarker t = true ↔
      p.display (Program.unconstructed t) = Marker.displayName := beq_iff_eq
  rw [hmarker]
  constructor
  case mp =>
    intro h
    rw [hdisplay] at h
    obtain ⟨k, hk, hkey, hname, hparameters⟩ | ⟨b, rfl, hb⟩ :=
      Program.display_eq_generic hp ht (by decide) (by decide) h
    case inr => exact Or.inr (.unresolved b rfl hb)
    -- With a type parameter the type is declared, and has as many as its identity says.
    have harity : (p.typeParameters k).length = 1 := by
      rw [← List.length_map (f := TypeParameter.name), hparameters, List.length_singleton]
    obtain ⟨d, hd⟩ : ∃ d, p.definition? k = some d := by
      rw [Program.typeParameters] at harity
      split at harity
      · next d hd => exact ⟨d, hd⟩
      · cases harity
    have hmem : k ∈ (Declarations.ofUnits units).keys := by
      rw [← Model.map_key_definitions]
      obtain ⟨hmem, rfl⟩ := Program.definition?_eq_some hd
      exact List.mem_map_of_mem hmem
    have hcount := Declarations.length_typeParameters hmem
    rw [← hprogram, harity] at hcount
    obtain ⟨a, rfl⟩ | ⟨a, b, rfl, hnone⟩ :=
      Program.qualifiedName_eq_dotted hnamed.1 hnamed.2 hk (by rw [hname]; decide)
    · obtain rfl : a = 1 := hcount.symm
      exact Or.inl ⟨(realizesMarker_iff hunits).mpr ⟨hkey, d, hd⟩, hparameters⟩
    · obtain rfl : a = 1 := hcount.symm
      have houter := Declarations.length_typeParameters (Declarations.mem_keys_of_nested hmem)
      rw [← hprogram, hnone] at houter
      obtain rfl : b = 0 := houter.symm
      exact Or.inr (.nested hkey hparameters)
  case mpr =>
    have hdefinition : ∀ k, Program.unconstructed t = .definition k →
        p.qualifiedName k = "FacadeGenerator.IFacadeGenerator" → p.CallsParameters k ["T"] →
        p.display (Program.unconstructed t) = Marker.displayName := by
      intro k hkey hname hparameters
      rw [hkey, Program.display, Program.definitionText, hname, hparameters]
      decide
    rintro (⟨hrealizes, hparameters⟩ | ⟨hkey, hparameters⟩ | ⟨a, rfl, ha⟩)
    · refine hdefinition _ ((realizesMarker_iff hunits).mp hrealizes).1 ?_ hparameters
      rw [Marker.key, Program.qualifiedName]
      decide
    · have hnone : p.typeParameters (.topLevel none "FacadeGenerator" 0) = [] := by
        rcases (Model.isScoped_ofUnits units).length_typeParameters
          (.topLevel none "FacadeGenerator" 0) with h | h
        · exact h
        · exact List.eq_nil_of_length_eq_zero h
      refine hdefinition _ hkey ?_ hparameters
      rw [Marker.nestedKey, Program.qualifiedName, hnone, Program.qualifiedName]
      decide
    · change p.display (.unresolved _ [a]) = _
      rw [Program.display, Program.displayAll, Program.displayAll, ha]
      decide

/-- **Among the interfaces of a type those are taken for the marker that are the marker**, if its first
declaration calls its type parameter `T`, **and those that look like it**. A declaration asks for a
facade only by one of them. -/
theorem marker_recognition
    (hparsed : ∀ u ∈ units, ∃ path source, CompilationUnit.parse path source = .ok u) :
    (∀ t : TypeSymbol, t.IsWritten → ∀ i ∈ (Model.ofUnits units).service.allInterfaces t,
      ((Model.ofUnits units).service.isMarker i = true ↔
        (Model.ofUnits units).program.RealizesMarker i ∧
            (Model.ofUnits units).program.CallsParameters Marker.key ["T"] ∨
          (Model.ofUnits units).program.LooksLikeMarker i)) ∧
    ∀ site r, (Model.ofUnits units).service.resolve site = .ok r →
      r.marker ∈ (Model.ofUnits units).service.allInterfaces r.symbol ∧
        ((Model.ofUnits units).program.RealizesMarker r.marker ∧
            (Model.ofUnits units).program.CallsParameters Marker.key ["T"] ∨
          (Model.ofUnits units).program.LooksLikeMarker r.marker) := by
  have hunits : ∀ u ∈ units, u.IsWritten fun _ => True := by
    intro u hu
    obtain ⟨path, source, hparse⟩ := hparsed u hu
    exact CompilationUnit.isWritten_of_parse (fun _ _ => trivial) hparse
  have hwritten : ∀ t : TypeSymbol, t.IsWritten →
      ∀ i ∈ (Model.ofUnits units).service.allInterfaces t, i.IsWritten :=
    fun t ht => (Model.isWritten_ofUnits hunits).allInterfaces ht
  refine ⟨fun t ht i hi => isMarker_iff hunits (hwritten t ht i hi), fun site r hr => ?_⟩
  obtain ⟨symbol, hsymbol, hresolve⟩ : ∃ symbol,
      (Model.ofUnits units).declaredSymbol? site.id = some symbol ∧
        (Model.ofUnits units).service.resolveSymbol site symbol = .ok r := by
    unfold resolve at hr
    split at hr
    · cases hr
    · next symbol hsymbol => exact ⟨symbol, hsymbol, hr⟩
  obtain ⟨hfirst, hrsymbol⟩ : r.marker ∈ (Model.ofUnits units).service.realizations symbol ∧
      r.symbol = symbol := by
    unfold resolveSymbol at hresolve
    split at hresolve
    · cases hresolve
    · next marker more hmarkers =>
      split at hresolve
      · cases hresolve
      · split_ifs at hresolve
        cases hresolve
        exact ⟨by rw [hmarkers]; exact List.mem_cons_self, rfl⟩
  obtain ⟨hmem, hmarker⟩ := List.mem_filter.mp hfirst
  rw [hrsymbol]
  exact ⟨hmem, (isMarker_iff hunits (hwritten symbol (Model.isWritten_declaredSymbol hunits hsymbol)
    r.marker hmem)).mp hmarker⟩

end Service

section Example

instance (p : Program) (t : TypeSymbol) : Decidable (p.RealizesMarker t) :=
  decidable_of_iff ((p.byMetadataName? Marker.metadataName).any fun d =>
    decide (Program.unconstructed t = .definition d.key)) (by
      simp [Program.RealizesMarker, Option.any_eq_true])

/-- An interface, and a container that realizes the marker with it. -/
def markedSource : String :=
  "using FacadeGenerator;\nnamespace N \x7b\n public interface I \x7b void M(); \x7d\n" ++
    " public partial class C : IFacadeGenerator<I> \x7b \x7d\n\x7d\n"

/-- **With the marker the container realizes the marker**, which calls its type parameter `T`. -/
theorem marker_recognition_spelled : ∃ units site r,
    (∀ u ∈ units, ∃ path source, CompilationUnit.parse path source = .ok u) ∧
    (Model.ofUnits units).service.resolve site = .ok r ∧
    (Model.ofUnits units).program.RealizesMarker r.marker ∧
    (Model.ofUnits units).program.CallsParameters Marker.key ["T"] := by
  have hprogram : (resolved? markedSource).any (fun x =>
      decide (Program.unconstructed x.2.2.marker = .definition Marker.key)) = true := by
    decide +kernel
  obtain ⟨⟨units, site, r⟩, hx, hkey⟩ := (Option.any_eq_true _ _).mp hprogram
  obtain ⟨hparsed, -, hr⟩ := parsed_of_resolved hx
  have hkey : Program.unconstructed r.marker = .definition Marker.key := of_decide_eq_true hkey
  refine ⟨units, site, r, hparsed, hr, ?_⟩
  rcases ((Service.marker_recognition hparsed).2 site r hr).2 with h | ⟨hnested, -⟩ | ⟨a, ha, -⟩
  · exact h
  · cases hkey.symm.trans hnested
  · rw [ha] at hkey
    cases hkey

/-- The marker is not declared, and an interface is called like its type parameter. -/
def unmarkedSources : List String :=
  ["interface T \x7b void M(); \x7d\n" ++
    "namespace N \x7b partial class C : FacadeGenerator.IFacadeGenerator<T> \x7b \x7d \x7d\n"]

/-- The marker is declared by the program too, with another name for its type parameter. -/
def renamedSources : List String :=
  ["namespace FacadeGenerator \x7b partial interface IFacadeGenerator<X> \x7b \x7d \x7d\n" ++
    "namespace N \x7b interface I \x7b void M(); \x7d partial class C : " ++
    "FacadeGenerator.IFacadeGenerator<I> \x7b \x7d \x7d\n", Marker.source]

/-- **The text of the marker does not tell whether a type is the marker**: a type that the program does
not declare can have it, and the marker itself need not. -/
theorem not_isMarker_iff_realizesMarker :
    (¬ ∀ units : List CompilationUnit,
      (∀ u ∈ units, ∃ path source, CompilationUnit.parse path source = .ok u) →
      ∀ t : TypeSymbol, t.IsWritten → ∀ i ∈ (Model.ofUnits units).service.allInterfaces t,
        (Model.ofUnits units).service.isMarker i = true →
          (Model.ofUnits units).program.RealizesMarker i) ∧
    ¬ ∀ units : List CompilationUnit,
      (∀ u ∈ units, ∃ path source, CompilationUnit.parse path source = .ok u) →
      ∀ t : TypeSymbol, t.IsWritten → ∀ i ∈ (Model.ofUnits units).service.allInterfaces t,
        (Model.ofUnits units).program.RealizesMarker i →
          (Model.ofUnits units).service.isMarker i = true := by
  have hnamed : Named "N" ∧ Named "C" := ⟨Or.inl (by decide), Or.inl (by decide)⟩
  have hcontainer : (TypeSymbol.definition (.topLevel (some "N") "C" 0)).IsWritten :=
    .definition ⟨fun s hs => Option.mem_some.mp hs ▸ hnamed.1.dotted, hnamed.2⟩
  have hrefute : ∀ {P Q : List CompilationUnit → TypeSymbol → Prop} {sources : List String},
      (∃ units, CompilationUnit.parseAll? sources = some units ∧
        ∃ i ∈ (Model.ofUnits units).service.allInterfaces
          (.definition (.topLevel (some "N") "C" 0)), P units i ∧ ¬ Q units i) →
      ¬ ∀ units : List CompilationUnit,
        (∀ u ∈ units, ∃ path source, CompilationUnit.parse path source = .ok u) →
        ∀ t : TypeSymbol, t.IsWritten → ∀ i ∈ (Model.ofUnits units).service.allInterfaces t,
          P units i → Q units i := by
    rintro P Q sources ⟨units, hunits, i, hi, hP, hQ⟩ h
    exact hQ (h units (CompilationUnit.parsed_of_parseAll? hunits) _ hcontainer i hi hP)
  have hunmarked : (CompilationUnit.parseAll? unmarkedSources).any (fun units =>
      ((Model.ofUnits units).service.allInterfaces (.definition (.topLevel (some "N") "C" 0))).any
        fun i => decide ((Model.ofUnits units).service.isMarker i = true ∧
          ¬ (Model.ofUnits units).program.RealizesMarker i)) = true := by
    decide +kernel
  have hrenamed : (CompilationUnit.parseAll? renamedSources).any (fun units =>
      ((Model.ofUnits units).service.allInterfaces (.definition (.topLevel (some "N") "C" 0))).any
        fun i => decide ((Model.ofUnits units).program.RealizesMarker i ∧
          ¬ (Model.ofUnits units).service.isMarker i = true)) = true := by
    decide +kernel
  simp only [Option.any_eq_true, List.any_eq_true, decide_eq_true_eq] at hunmarked hrenamed
  exact ⟨hrefute hunmarked, hrefute hrenamed⟩

end Example

end Facade
