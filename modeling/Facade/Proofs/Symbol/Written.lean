import Facade.Proofs.Syntax.Texts
import Facade.Symbol.Program

/-!
# Symbols as they can be written

The text of a symbol is that of a type that can be written, as long as the names it is made of are.

* `Qualified`, `Qualified.exists_text`: the names of declared and of unknown types;
* `DefinitionKey.IsWritten`, `TypeSymbol.IsWritten`: symbols made of names that can be written;
* **`Program.exists_text_eq_display`**: their texts are those of types that can be written;
* `TypeSymbol.IsWritten.substitute`: putting types in the place of type parameters.
-/

namespace Facade

/-! ## Texts of lists -/

namespace Program

theorem displayAll_eq_map (p : Program) (ts : List TypeSymbol) :
    p.displayAll ts = ts.map p.display := by
  induction ts with
  | nil => rfl
  | cons t ts ih => rw [displayAll, ih, List.map_cons]

theorem displayElements_eq_map (p : Program) (es : List (TypeSymbol × Option String)) :
    p.displayElements es = es.map fun e => withElementName (p.display e.1) e.2 := by
  induction es with
  | nil => rfl
  | cons e es ih => rw [displayElements, ih, List.map_cons]

end Program

namespace TypeSymbol

theorem substituteAll_eq_map (m : Substitution) (ts : List TypeSymbol) :
    substituteAll m ts = ts.map (substitute m) := by
  induction ts with
  | nil => rfl
  | cons t ts ih => rw [substituteAll, ih, List.map_cons]

theorem substituteElements_eq_map (m : Substitution) (es : List (TypeSymbol × Option String)) :
    substituteElements m es = es.map fun e => (substitute m e.1, e.2) := by
  induction es with
  | nil => rfl
  | cons e es ih => rw [substituteElements, ih, List.map_cons]

end TypeSymbol

/-! ## Qualified names -/

/-- A part of a dotted name that can be written. -/
structure NamePart.IsWritten (q : NamePart) : Prop where
  name : Named q.name
  arguments : ∀ a ∈ q.arguments, a.IsWritten

/-- The text of a dotted name whose last part has no type arguments. -/
def Qualified (n : String) : Prop :=
  ∃ (before : List NamePart) (last : String), (∀ q ∈ before, q.IsWritten) ∧ Named last ∧
    n = ".".intercalate (before.map NamePart.text ++ [last])

theorem Named.isWritten {n : String} (h : Named n) : (NamePart.mk n []).IsWritten :=
  ⟨h, fun _ ha => absurd ha List.not_mem_nil⟩

theorem NamePart.text_mk_nil (n : String) : (NamePart.mk n []).text = n := by
  simp [NamePart.text, TypeSyntax.texts, withArguments]

theorem Named.qualified {n : String} (h : Named n) : Qualified n :=
  ⟨[], n, fun _ hq => absurd hq List.not_mem_nil, h, by simp⟩

theorem intercalate_withArguments (before : List NamePart) (last : String)
    (as : List TypeSyntax) :
    ".".intercalate ((before ++ [NamePart.mk last as]).map NamePart.text) =
      withArguments (".".intercalate (before.map NamePart.text ++ [last]))
        (as.map TypeSyntax.text) := by
  cases before with
  | nil => simp [NamePart.text, TypeSyntax.texts_eq_map]
  | cons q before =>
    rw [List.map_append, String.intercalate_append_of_ne_nil (by simp) (by simp),
      String.intercalate_append_of_ne_nil (by simp) (by simp)]
    simp only [String.intercalate_singleton, List.map_cons, List.map_nil, NamePart.text,
      TypeSyntax.texts_eq_map, withArguments]
    split_ifs
    · rfl
    · simp only [String.append_assoc]

theorem isWritten_append_last {before : List NamePart} (hbefore : ∀ q ∈ before, q.IsWritten)
    {last : String} (hlast : Named last) {as : List TypeSyntax} (has : ∀ a ∈ as, a.IsWritten) :
    ∀ q ∈ before ++ [NamePart.mk last as], q.IsWritten := fun q hq => by
  rcases List.mem_append.mp hq with hq | hq
  · exact hbefore q hq
  · rw [List.mem_singleton.mp hq]
    exact ⟨hlast, has⟩

theorem Qualified.extend {n m : String} (hn : Qualified n) (hm : Named m) {as : List TypeSyntax}
    (has : ∀ a ∈ as, a.IsWritten) :
    Qualified (withArguments n (as.map TypeSyntax.text) ++ "." ++ m) := by
  obtain ⟨before, last, hbefore, hlast, rfl⟩ := hn
  refine ⟨before ++ [.mk last as], m, isWritten_append_last hbefore hlast has, hm, ?_⟩
  rw [← intercalate_withArguments, String.intercalate_append_of_ne_nil (by simp) (by simp),
    String.intercalate_singleton]

theorem Dotted.qualified {n : String} (h : Dotted n) : Qualified n := by
  obtain ⟨names, hne, hnames, rfl⟩ := h
  refine ⟨names.dropLast.map fun m => .mk m [], names.getLast hne, fun q hq => ?_,
    hnames _ (List.getLast_mem hne), ?_⟩
  · obtain ⟨m, hm, rfl⟩ := List.mem_map.mp hq
    exact (hnames m (List.dropLast_subset names hm)).isWritten
  · have hmap : (names.dropLast.map fun m => NamePart.mk m []).map NamePart.text =
        names.dropLast := by
      rw [List.map_map]
      conv_rhs => rw [← List.map_id names.dropLast]
      exact List.map_congr_left fun m _ => NamePart.text_mk_nil m
    rw [hmap, List.dropLast_concat_getLast]

/-- A qualified name with type arguments is a type that can be written. -/
theorem Qualified.exists_text {n : String} (h : Qualified n) (isGlobal : Bool)
    {as : List TypeSyntax} (has : ∀ a ∈ as, a.IsWritten) :
    ∃ u : TypeSyntax, u.IsWritten ∧ u.text =
      (if isGlobal then "global::" else "") ++ withArguments n (as.map TypeSyntax.text) := by
  obtain ⟨before, last, hbefore, hlast, rfl⟩ := h
  have hparts := isWritten_append_last hbefore hlast has
  refine ⟨.named isGlobal (before ++ [.mk last as]), .named (by simp)
    (fun q hq => (hparts q hq).name) (fun q hq => (hparts q hq).arguments), ?_⟩
  rw [TypeSyntax.text, NamePart.texts_eq_map, intercalate_withArguments]

/-! ## Symbols -/

/-- The identity of a declared type is made of names. -/
def DefinitionKey.IsWritten : DefinitionKey → Prop
  | .topLevel space n _ => (∀ s ∈ space, Dotted s) ∧ Named n
  | .nested o n _ => o.IsWritten ∧ Named n

/-- A symbol made of names and words that can be written. -/
inductive TypeSymbol.IsWritten : TypeSymbol → Prop
  | special {k} : k ∈ predefinedWords → IsWritten (.special k)
  | parameter {q} : Named (TypeParameter.name q) → IsWritten (.parameter q)
  | unresolved {isGlobal : Bool} {n as} : Qualified n → (∀ a ∈ as, IsWritten a) →
      IsWritten (.unresolved (if isGlobal then "global::" ++ n else n) as)
  | array {e rank} : IsWritten e → 1 ≤ rank → IsWritten (.array e rank)
  | nullable {e} : IsWritten e → IsWritten (.nullable e)
  | pointer {e} : IsWritten e → IsWritten (.pointer e)
  | tuple {es} : 2 ≤ es.length → (∀ e ∈ es, IsWritten (Prod.fst e)) →
      (∀ e ∈ es, ∀ n ∈ e.2, Named n) → IsWritten (.tuple es)
  | definition {k} : DefinitionKey.IsWritten k → IsWritten (.definition k)
  | constructed {k as} : DefinitionKey.IsWritten k → as ≠ [] → (∀ a ∈ as, IsWritten a) →
      IsWritten (.constructed k as)

theorem TypeSymbol.IsWritten.key {t : TypeSymbol} (h : t.IsWritten) {k : DefinitionKey}
    (hk : t.key? = some k) : k.IsWritten := by
  cases h with
  | definition h => cases hk; exact h
  | constructed h => cases hk; exact h
  | _ => cases hk

/-- The type parameters of declared types have names. -/
def Program.HasNamedParameters (p : Program) : Prop :=
  ∀ k, ∀ q ∈ p.typeParameters k, Named q.name

namespace Program

variable {p : Program}

theorem qualify_dotted {space n : String} (h : Dotted space) :
    qualify (some space) n = space ++ "." ++ n := by
  obtain ⟨names, hne, hnames, rfl⟩ := h
  have hnonempty : (".".intercalate names).isEmpty = false := by
    obtain ⟨m, names, rfl⟩ := List.exists_cons_of_ne_nil hne
    have hm := hnames m List.mem_cons_self
    rw [Bool.eq_false_iff, ne_eq, String.isEmpty_iff]
    intro hempty
    have hlist := congrArg String.toList hempty
    rw [String.toList_intercalate] at hlist
    have hm' : m.toList = [] := by
      cases names with
      | nil => simpa using hlist
      | cons n names => simp [List.intercalate] at hlist
    unfold Named at hm
    rw [hm'] at hm
    rcases hm with h | ⟨plain, h, -⟩
    · exact h
    · cases h
  unfold qualify
  simp only [hnonempty, Bool.false_eq_true, if_false]

/-- The names of type parameters as written types. -/
def parameterSyntax (ps : List TypeParameter) : List TypeSyntax :=
  ps.map fun q => .named false [.mk q.name []]

theorem isWritten_parameterSyntax {ps : List TypeParameter} (h : ∀ q ∈ ps, Named q.name) :
    ∀ a ∈ parameterSyntax ps, a.IsWritten := by
  intro a ha
  obtain ⟨q, hq, rfl⟩ := List.mem_map.mp ha
  exact .named (by simp) (by simpa [NamePart.name] using h q hq) (by simp [NamePart.arguments])

theorem text_parameterSyntax (ps : List TypeParameter) :
    (parameterSyntax ps).map TypeSyntax.text = ps.map TypeParameter.name := by
  rw [parameterSyntax, List.map_map]
  refine List.map_congr_left fun q _ => ?_
  simp [TypeSyntax.text, NamePart.texts, NamePart.text_mk_nil]

theorem qualified_qualifiedName (hp : p.HasNamedParameters) {k : DefinitionKey}
    (hk : k.IsWritten) : Qualified (p.qualifiedName k) := by
  induction k with
  | topLevel space n arity =>
    obtain ⟨hspace, hn⟩ := hk
    cases space with
    | none => exact hn.qualified
    | some s =>
      have hs : Qualified (withArguments s (([] : List TypeSyntax).map TypeSyntax.text) ++ "." ++ n) :=
        (hspace s rfl).qualified.extend hn fun _ ha => absurd ha List.not_mem_nil
      rw [qualifiedName, qualify_dotted (hspace s rfl)]
      simpa [withArguments] using hs
  | nested o n arity ih =>
    obtain ⟨ho, hn⟩ := hk
    have hextend := (ih ho).extend hn (isWritten_parameterSyntax (hp o))
    rw [text_parameterSyntax] at hextend
    exact hextend

/-- **The text of a symbol is that of a type that can be written.** -/
theorem exists_text_eq_display (hp : p.HasNamedParameters) {t : TypeSymbol} (h : t.IsWritten) :
    ∃ u : TypeSyntax, u.IsWritten ∧ u.text = p.display t := by
  have hlist : ∀ {as : List TypeSymbol},
      (∀ a ∈ as, ∃ u : TypeSyntax, u.IsWritten ∧ u.text = p.display a) →
      ∃ us : List TypeSyntax, (∀ u ∈ us, u.IsWritten) ∧
        us.map TypeSyntax.text = p.displayAll as := by
    intro as has
    induction as with
    | nil => exact ⟨[], by simp, rfl⟩
    | cons a as ih =>
      obtain ⟨u, hu, hua⟩ := has a List.mem_cons_self
      obtain ⟨us, hus, husa⟩ := ih fun b hb => has b (List.mem_cons_of_mem _ hb)
      refine ⟨u :: us, fun v hv => ?_, by rw [List.map_cons, husa, hua]; rfl⟩
      exact (List.mem_cons.mp hv).elim (fun h => h ▸ hu) (hus v)
  induction h with
  | special hk => exact ⟨.predefined _, .predefined hk, rfl⟩
  | @parameter q hq =>
    have hnone : ∀ a ∈ ([] : List TypeSyntax), a.IsWritten := fun _ ha => absurd ha List.not_mem_nil
    obtain ⟨u, hu, htext⟩ := hq.qualified.exists_text false hnone
    exact ⟨u, hu, by simpa [withArguments, display] using htext⟩
  | @unresolved isGlobal n as hn _ ih =>
    obtain ⟨us, hus, husa⟩ := hlist ih
    obtain ⟨u, hu, htext⟩ := hn.exists_text isGlobal hus
    refine ⟨u, hu, ?_⟩
    rw [htext, husa, display, withArguments, withArguments]
    split_ifs <;> simp [String.append_assoc]
  | @array e rank _ hrank ih =>
    obtain ⟨u, hu, htext⟩ := ih
    exact ⟨.array u rank, .array hu hrank, by rw [TypeSyntax.text, htext, display]⟩
  | nullable _ ih =>
    obtain ⟨u, hu, htext⟩ := ih
    exact ⟨.nullable u, .nullable hu, by rw [TypeSyntax.text, htext, display]⟩
  | pointer _ ih =>
    obtain ⟨u, hu, htext⟩ := ih
    exact ⟨.pointer u, .pointer hu, by rw [TypeSyntax.text, htext, display]⟩
  | @tuple es hlength htypes hnames ih =>
    obtain ⟨us, hus⟩ : ∃ us : List (TypeSyntax × Option String),
        us.length = es.length ∧ (∀ u ∈ us, u.1.IsWritten) ∧ (∀ u ∈ us, ∀ n ∈ u.2, Named n) ∧
        us.map (fun u => withElementName u.1.text u.2) = p.displayElements es := by
      clear hlength
      induction es with
      | nil => exact ⟨[], by simp [displayElements]⟩
      | cons e es ihes =>
        obtain ⟨u, hu, htext⟩ := ih e List.mem_cons_self
        obtain ⟨us, hlength, hwritten, hn, hus⟩ := ihes
          (fun e he => htypes e (List.mem_cons_of_mem _ he))
          (fun e he => hnames e (List.mem_cons_of_mem _ he))
          (fun e he => ih e (List.mem_cons_of_mem _ he))
        refine ⟨(u, e.2) :: us, by simp [hlength], ?_, ?_, ?_⟩
        · simpa using ⟨hu, fun a b hab => hwritten _ hab⟩
        · simpa using ⟨hnames e List.mem_cons_self, fun a b hab => hn _ hab⟩
        · rw [List.map_cons, hus, htext]
          rfl
    obtain ⟨hlength', hwritten, hn, htexts⟩ := hus
    refine ⟨.tuple us, .tuple (by omega) hwritten hn, ?_⟩
    rw [TypeSyntax.text, TypeSyntax.elementTexts_eq_map, htexts, display]
  | @definition k hk =>
    obtain ⟨u, hu, htext⟩ := (qualified_qualifiedName hp hk).exists_text false
      (isWritten_parameterSyntax (hp k))
    refine ⟨u, hu, ?_⟩
    rw [htext, text_parameterSyntax, display, definitionText]
    simp
  | @constructed k as hk hne _ ih =>
    obtain ⟨us, hus, husa⟩ := hlist ih
    obtain ⟨u, hu, htext⟩ := (qualified_qualifiedName hp hk).exists_text false hus
    refine ⟨u, hu, ?_⟩
    have hne' : (p.displayAll as).isEmpty = false := by
      rw [displayAll_eq_map]
      simpa using hne
    rw [htext, husa, display, withArguments, hne']
    simp [String.append_assoc]

end Program

/-! ## Substitution -/

theorem TypeSymbol.IsWritten.substitute {t : TypeSymbol} (h : t.IsWritten) {m : Substitution}
    (hm : ∀ e ∈ m, e.2.IsWritten) : (t.substitute m).IsWritten := by
  have hlist : ∀ {as : List TypeSymbol}, (∀ a ∈ as, (a.substitute m).IsWritten) →
      ∀ a ∈ substituteAll m as, a.IsWritten := by
    intro as has a ha
    rw [substituteAll_eq_map] at ha
    obtain ⟨b, hb, rfl⟩ := List.mem_map.mp ha
    exact has b hb
  induction h with
  | special hk => exact .special hk
  | @parameter q hq =>
    simp only [TypeSymbol.substitute, Substitution.apply]
    split
    · next hfind => exact hm _ (List.mem_of_find?_eq_some hfind)
    · exact .parameter hq
  | unresolved hn _ ih => exact .unresolved hn (hlist ih)
  | array _ hrank ih => exact .array ih hrank
  | nullable _ ih => exact .nullable ih
  | pointer _ ih => exact .pointer ih
  | tuple hlength _ hnames ih =>
    simp only [TypeSymbol.substitute, substituteElements_eq_map]
    refine .tuple (by simpa using hlength) (fun e he => ?_) (fun e he => ?_)
    · obtain ⟨e', he', rfl⟩ := List.mem_map.mp he
      exact ih e' he'
    · obtain ⟨e', he', rfl⟩ := List.mem_map.mp he
      exact hnames e' he'
  | definition hk => exact .definition hk
  | constructed hk hne _ ih =>
    refine .constructed hk ?_ (hlist ih)
    rw [substituteAll_eq_map]
    simpa using hne

end Facade
