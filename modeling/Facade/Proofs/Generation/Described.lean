import Facade.Generator.Pass
import Facade.Proofs.Binding.WrittenModel
import Facade.Proofs.Symbol.Closure

/-!
# Descriptions of containers and targets

The texts that a facade is generated from are texts of what can be written.

* `Target.IsWritten`, `Container.IsWritten`: such descriptions;
* `Program.IsWritten.allInterfaces`: the interfaces of a type can be written;
* **`Service.isWritten_resolve`**: resolving a declaration of sources gives such descriptions.
-/

namespace Facade

/-- The text of a constraint clause. -/
def ConstraintClause.text (c : ConstraintClause) : String :=
  "where " ++ c.typeParameter ++ " : " ++ commaSeparated (c.constraints.map ConstraintSyntax.text)

section

variable (P : String → Prop)

/-- The texts of a parameter; its default value satisfies `P`. -/
structure ForwardedParameter.IsWritten (q : ForwardedParameter) : Prop where
  type : TypeText q.type
  name : Named q.name
  modifiers : ∀ m ∈ q.modifiers, m ∈ parameterWords
  defaultText : ∀ d ∈ q.defaultText, P d

/-- The texts of a method. -/
structure ForwardedMethod.IsWritten (m : ForwardedMethod) : Prop where
  name : Named m.name
  returnType : TypeText m.returnType
  returnsVoid : m.returnsVoid → m.returnType = "void"
  parameters : ∀ q ∈ m.parameters, q.IsWritten P
  typeParameters : ∀ n ∈ m.typeParameters, Named n
  constraintClauses : ∀ c ∈ m.constraintClauses,
    ∃ clause : ConstraintClause, clause.IsWritten ∧ clause.text = c

/-- The texts of an interface, and the using directives around it. -/
structure Target.IsWritten (t : Target) : Prop where
  displayName : TypeText t.displayName
  methods : ∀ m ∈ t.methods, m.IsWritten P
  imports : ∀ i ∈ t.imports,
    ∃ u : UsingDirective, u.target.IsWritten ∧ u.isGlobal = false ∧ u.text = i

end

/-- The texts of a declaration that a facade extends, and of the declarations around it. -/
structure Container.IsWritten (c : Container) : Prop where
  name : Named c.name
  keyword : ∃ form : TypeForm, form.keyword = c.keyword
  typeParameters : ∀ n ∈ c.typeParameters, Named n
  space : ∀ s ∈ c.space, Dotted s
  outerTypes : ∀ o ∈ c.outerTypes,
    ∃ h : TypeHead, h.IsWritten ∧ o = (h.form.keyword, h.heading)

/-! ## Programs -/

namespace Program

variable {P : String → Prop} {p : Program}

theorem IsWritten.definition? (hp : p.IsWritten P) {k : DefinitionKey} {d : Definition}
    (h : p.definition? k = some d) : d.IsWritten P := hp d (List.mem_of_find?_eq_some h)

theorem isWritten_arguments {t : TypeSymbol} (ht : t.IsWritten) :
    ∀ e ∈ p.arguments t, e.2.IsWritten := by
  intro e he
  unfold arguments at he
  split at he
  · cases ht with
    | constructed _ _ has => exact has _ (List.of_mem_zip he).2
  · cases he

theorem exists_using {t : TypeSymbol} {i : String} (hi : i ∈ p.imports t) :
    ∃ d ∈ p.definitions, ∃ s ∈ d.sites, ∃ u,
      (u ∈ s.site.unit.usings ∨ ∃ h ∈ s.site.namespaces, u ∈ h.usings) ∧
        u.isGlobal = false ∧ u.text = i := by
  unfold imports at hi
  split at hi
  · next d hd =>
    obtain ⟨k, -, hk⟩ := Option.bind_eq_some_iff.mp hd
    obtain ⟨u, hu, rfl⟩ := List.mem_map.mp (List.mem_eraseDups.mp hi)
    obtain ⟨hmem, hglobal⟩ := List.mem_filter.mp hu
    obtain ⟨s, hs, hmem⟩ := List.mem_flatMap.mp hmem
    refine ⟨d, List.mem_of_find?_eq_some hk, s, hs, u, ?_, by simpa using hglobal, rfl⟩
    rcases List.mem_append.mp hmem with hmem | hmem
    · obtain ⟨h, hh, hmem⟩ := List.mem_flatMap.mp hmem
      exact Or.inr ⟨h, List.mem_reverse.mp hh, hmem⟩
    · exact Or.inl hmem
  · cases hi

theorem exists_method {t : TypeSymbol} {m : MethodSymbol} (hm : m ∈ p.methods t) :
    ∃ d ∈ p.definitions, ∃ m' ∈ d.methods, m = m'.substitute (p.arguments t) := by
  unfold methods at hm
  split at hm
  · next d hd =>
    obtain ⟨k, -, hk⟩ := Option.bind_eq_some_iff.mp hd
    obtain ⟨m', hm', rfl⟩ := List.mem_map.mp hm
    exact ⟨d, List.mem_of_find?_eq_some hk, m', hm', rfl⟩
  · cases hm

theorem IsWritten.interfaces (hp : p.IsWritten P) {t : TypeSymbol} (ht : t.IsWritten) :
    ∀ i ∈ p.interfaces t, i.IsWritten := by
  intro i hi
  unfold Program.interfaces at hi
  split at hi
  · next d hd =>
    obtain ⟨k, -, hk⟩ := Option.bind_eq_some_iff.mp hd
    obtain ⟨u, hu, rfl⟩ := List.mem_map.mp hi
    exact ((hp.definition? hk).interfaces u hu).substitute (isWritten_arguments ht)
  · cases hi

theorem IsWritten.baseType (hp : p.IsWritten P) {t b : TypeSymbol} (ht : t.IsWritten)
    (hb : p.baseType? t = some b) : b.IsWritten := by
  simp only [Program.baseType?, definitionOf?, Option.pure_def, Option.bind_eq_bind,
    Option.bind_eq_some_iff, Option.some.injEq] at hb
  obtain ⟨d, ⟨k, -, hk⟩, u, hu, rfl⟩ := hb
  exact ((hp.definition? hk).baseType u hu).substitute (isWritten_arguments ht)

open Relation in
theorem IsWritten.reaches (hp : p.IsWritten P) {t s : TypeSymbol} (ht : t.IsWritten)
    (h : p.Reaches t s) : s.IsWritten := by
  obtain ⟨b, hb, hs⟩ := h
  have hbase : b.IsWritten := by
    clear hs
    induction hb with
    | refl => exact ht
    | tail _ hstep ih => exact hp.baseType ih hstep
  induction hs with
  | single hstep => exact hp.interfaces hbase _ hstep
  | tail _ hstep ih => exact hp.interfaces ih _ hstep

/-- The interfaces of a type can be written. -/
theorem IsWritten.allInterfaces (hp : p.IsWritten P) {t : TypeSymbol} (ht : t.IsWritten) :
    ∀ i ∈ p.allInterfaces t, i.IsWritten := by
  intro i hi
  obtain hnil | hreaches := (p.typeSearch_searchDepth t).reaches (List.mem_filter.mp hi).1
  · cases hnil
  · exact hp.reaches ht hreaches

theorem ParameterSymbol.IsWritten.substitute {q : ParameterSymbol} (h : q.IsWritten P)
    {m : Substitution} (hm : ∀ e ∈ m, e.2.IsWritten) : (q.substitute m).IsWritten P :=
  ⟨h.name, h.type.substitute hm, h.modifiers, h.defaultText⟩

theorem ConstraintClauseSymbol.IsWritten.substitute {c : ConstraintClauseSymbol}
    (h : c.IsWritten) {m : Substitution} (hm : ∀ e ∈ m, e.2.IsWritten) :
    (c.substitute m).IsWritten := by
  refine ⟨h.typeParameter, by simpa [ConstraintClauseSymbol.substitute] using h.ne_nil,
    fun k hk => ?_⟩
  obtain ⟨k', hk', rfl⟩ := List.mem_map.mp hk
  have hwritten := h.constraints k' hk'
  cases k' with
  | special t => exact hwritten
  | type t => exact TypeSymbol.IsWritten.substitute hwritten hm

theorem MethodSymbol.IsWritten.substitute {f : MethodSymbol} (h : f.IsWritten P)
    {m : Substitution} (hm : ∀ e ∈ m, e.2.IsWritten) : (f.substitute m).IsWritten P := by
  refine ⟨h.name, h.explicit, h.returnType.substitute hm, fun q hq => ?_, h.typeParameters,
    fun c hc => ?_⟩
  · obtain ⟨q', hq', rfl⟩ := List.mem_map.mp hq
    exact ParameterSymbol.IsWritten.substitute (h.parameters q' hq') hm
  · obtain ⟨c', hc', rfl⟩ := List.mem_map.mp hc
    exact ConstraintClauseSymbol.IsWritten.substitute (h.constraintClauses c' hc') hm

theorem IsWritten.methods (hp : p.IsWritten P) {t : TypeSymbol} (ht : t.IsWritten) :
    ∀ m ∈ p.methods t, m.IsWritten P := by
  intro m hm
  obtain ⟨d, hd, m', hm', rfl⟩ := exists_method hm
  exact MethodSymbol.IsWritten.substitute ((hp d hd).methods m' hm') (isWritten_arguments ht)

theorem IsWritten.imports (hp : p.IsWritten P) (t : TypeSymbol) :
    ∀ i ∈ p.imports t,
      ∃ u : UsingDirective, u.target.IsWritten ∧ u.isGlobal = false ∧ u.text = i := by
  intro i hi
  obtain ⟨d, hd, s, hs, u, hu, hglobal, htext⟩ := exists_using hi
  refine ⟨u, ?_, hglobal, htext⟩
  rcases hu with hu | ⟨h, hh, hu⟩
  · exact ((hp d hd).sites s hs).site.usings u hu
  · exact (((hp d hd).sites s hs).site.namespaces h hh).usings u hu

theorem IsWritten.typeText (hp : p.IsWritten P) {t : TypeSymbol} (ht : t.IsWritten) :
    TypeText (p.display t) := exists_text_eq_display hp.hasNamedParameters ht

theorem IsWritten.clauseText (hp : p.IsWritten P) {c : ConstraintClauseSymbol}
    (hc : c.IsWritten) :
    ∃ clause : ConstraintClause, clause.IsWritten ∧ clause.text = p.clauseText c := by
  obtain ⟨ks, hks, htexts⟩ : ∃ ks : List ConstraintSyntax, (∀ k ∈ ks, k.IsWritten) ∧
      ks.map ConstraintSyntax.text = c.constraints.map p.constraintText := by
    have hall := hc.constraints
    generalize c.constraints = cs at hall
    induction cs with
    | nil => exact ⟨[], by simp, rfl⟩
    | cons k cs ih =>
      obtain ⟨ks, hks, htexts⟩ := ih fun j hj => hall j (List.mem_cons_of_mem _ hj)
      have hk := hall k List.mem_cons_self
      obtain ⟨u, hu, htext⟩ :
          ∃ u : ConstraintSyntax, u.IsWritten ∧ u.text = p.constraintText k := by
        cases k with
        | special t => exact ⟨.special t, hk, rfl⟩
        | type t =>
          obtain ⟨u, hu, htext⟩ := hp.typeText hk
          exact ⟨.type u, hu, htext⟩
      refine ⟨u :: ks, fun j hj => ?_, by rw [List.map_cons, List.map_cons, htexts, htext]⟩
      exact (List.mem_cons.mp hj).elim (fun h => h ▸ hu) (hks j)
  refine ⟨⟨c.typeParameter, ks, none⟩, ⟨hc.typeParameter, fun hnil => ?_, hks⟩, ?_⟩
  · rw [show ks = [] from hnil, List.map_nil, eq_comm, List.map_eq_nil_iff] at htexts
    exact hc.ne_nil htexts
  · rw [ConstraintClause.text, htexts, Program.clauseText]

end Program

/-! ## Resolution -/

theorem named_of_dotted {n : String} (h : Dotted n) (hdot : n.toList.contains '.' = false) :
    Named n := by
  obtain ⟨names, hne, hnames, rfl⟩ := h
  obtain ⟨m, names, rfl⟩ := List.exists_cons_of_ne_nil hne
  cases names with
  | nil => simpa using hnames m List.mem_cons_self
  | cons k names =>
    rw [String.intercalate_cons_cons] at hdot
    simp at hdot

namespace Service

variable {P : String → Prop} {units : List CompilationUnit} (hunits : ∀ u ∈ units, u.IsWritten P)

include hunits

theorem isWritten_describeMethod {m : MethodSymbol} (hm : m.IsWritten P)
    (hexplicit : m.isExplicit = false) :
    ((Model.ofUnits units).service.describeMethod m).IsWritten P := by
  have hp := Model.isWritten_ofUnits hunits
  refine ⟨named_of_dotted hm.name (hm.explicit ▸ hexplicit), hp.typeText hm.returnType,
    fun hvoid => ?_, fun q hq => ?_, fun n hn => ?_, fun c hc => ?_⟩
  · have hspecial : m.returnType = .special "void" := by
      change m.returnType.isVoid = true at hvoid
      unfold TypeSymbol.isVoid at hvoid
      split at hvoid
      · next k hk => rw [hk, beq_iff_eq.mp hvoid]
      · cases hvoid
    change (Model.ofUnits units).program.display m.returnType = "void"
    rw [hspecial]
    rfl
  · obtain ⟨q', hq', rfl⟩ := List.mem_map.mp hq
    have hwritten := hm.parameters q' hq'
    exact ⟨hp.typeText hwritten.type, hwritten.name, hwritten.modifiers, hwritten.defaultText⟩
  · obtain ⟨q, hq, rfl⟩ := List.mem_map.mp hn
    exact hm.typeParameters q hq
  · obtain ⟨c', hc', rfl⟩ := List.mem_map.mp hc
    exact hp.clauseText (hm.constraintClauses c' hc')

theorem isWritten_describe {t : TypeSymbol} (ht : t.IsWritten) :
    ((Model.ofUnits units).service.describe t).IsWritten P := by
  have hp := Model.isWritten_ofUnits hunits
  refine ⟨hp.typeText ht, fun m hm => ?_, hp.imports t⟩
  obtain ⟨m', hm', rfl⟩ := List.mem_map.mp hm
  obtain ⟨hmem, hforwarded⟩ := List.mem_filter.mp hm'
  simp only [Bool.and_eq_true, Bool.not_eq_true'] at hforwarded
  exact isWritten_describeMethod hunits (hp.methods ht m' hmem) hforwarded.1.2

theorem isWritten_markerTarget {marker t : TypeSymbol} (hmarker : marker.IsWritten)
    (h : (Model.ofUnits units).service.markerTarget? marker = some t) : t.IsWritten := by
  have hp := (Model.isWritten_ofUnits hunits).hasNamedParameters
  have harguments : ∀ a ∈ (Model.ofUnits units).program.typeArguments marker, a.IsWritten := by
    intro a ha
    unfold Program.typeArguments at ha
    split at ha
    · cases hmarker with
      | unresolved _ has => exact has a ha
    · next k =>
      obtain ⟨q, hq, rfl⟩ := List.mem_map.mp ha
      exact .parameter (hp k q hq)
    · cases hmarker with
      | constructed _ _ has => exact has a ha
    · cases ha
  unfold markerTarget? at h
  split at h
  · next u hu =>
    cases h
    have hnullable := harguments _ (List.mem_of_mem_head? hu)
    cases hnullable with
    | nullable ht => exact ht
  · exact harguments t (List.mem_of_mem_head? h)

omit hunits in
theorem isWritten_container {site : TypeSite} (hsite : site.IsWritten P) (service : Service)
    (symbol : TypeSymbol) : (site.container service symbol).IsWritten := by
  refine ⟨hsite.head.name, ⟨site.head.form, rfl⟩, fun n hn => ?_, fun s hs => ?_, fun o ho => ?_⟩
  · obtain ⟨q, hq, rfl⟩ := List.mem_map.mp hn
    exact hsite.head.typeParameters q hq
  · change site.site.namespaceName = some s at hs
    unfold Site.namespaceName at hs
    split_ifs at hs with hempty
    cases hs
    refine dotted_intercalate (by simpa using hempty) fun n hn => ?_
    obtain ⟨h, hh, rfl⟩ := List.mem_map.mp hn
    exact (hsite.site.namespaces h hh).name
  · obtain ⟨h, hh, rfl⟩ := List.mem_map.mp ho
    exact ⟨h, hsite.site.types h hh, rfl⟩

theorem isWritten_targetSymbol {site : TypeSite} {r : Resolution}
    (h : (Model.ofUnits units).service.resolve site = .ok r) :
    r.site = site ∧ r.targetSymbol.IsWritten ∧
      r.target = (Model.ofUnits units).service.describe r.targetSymbol := by
  unfold resolve at h
  split at h
  · cases h
  · next symbol hsymbol =>
    have hsymbolw := Model.isWritten_declaredSymbol hunits hsymbol
    unfold resolveSymbol at h
    split at h
    · cases h
    · next marker more hmarkers =>
      have hmarker : marker ∈ (Model.ofUnits units).program.allInterfaces symbol := by
        have hmem : marker ∈ (Model.ofUnits units).service.realizations symbol := by
          rw [hmarkers]
          exact List.mem_cons_self
        exact (List.mem_filter.mp hmem).1
      have hmarkerw := (Model.isWritten_ofUnits hunits).allInterfaces hsymbolw marker hmarker
      split at h
      · cases h
      · next t ht =>
        split_ifs at h
        cases h
        exact ⟨rfl, isWritten_markerTarget hunits hmarkerw ht, rfl⟩

/-- **Resolving a declaration gives descriptions that can be written**, of the target and of the
container. -/
theorem isWritten_resolve {site : TypeSite} (hsite : site.IsWritten P) {r : Resolution}
    (h : (Model.ofUnits units).service.resolve site = .ok r) :
    (r.container (Model.ofUnits units).service).IsWritten ∧ r.target.IsWritten P := by
  obtain ⟨hrsite, htarget, hdescribe⟩ := isWritten_targetSymbol hunits h
  rw [hdescribe]
  exact ⟨isWritten_container (hrsite ▸ hsite) _ _, isWritten_describe hunits htarget⟩

end Service

end Facade
