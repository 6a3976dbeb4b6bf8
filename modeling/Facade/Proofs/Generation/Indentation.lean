import Facade.Proofs.Generation.Blocks

/-!
# Braces and indentation of a facade

The text of a facade is one block, the namespace, after lines that are in none. In it the types around the
container stand in each other, innermost the container, and in that one block for each method.

* `Code.headers`, **`Code.nested`**: the blocks of a piece of code, which its lines open;
* `Container.OfLines`, `Target.OfLines`: containers and targets without line ends in their texts;
* `Container.nested_flatCode`, `Container.nested_spaceBody`: the lines before the namespace, and in it;
* **`Container.emit_wellBracketed`**: the text of every facade, and its blocks.
-/

namespace Facade

open Text Block

/-! ## Code -/

namespace Code

mutual

/-- The blocks of a piece of code at this depth, each with its header, in order. -/
def headers (depth : Nat) : Code → List (Int × String)
  | line _ => []
  | block header body => ((depth : Int), header) :: headersAll (depth + 1) body

/-- The blocks of pieces of code. -/
def headersAll (depth : Nat) : List Code → List (Int × String)
  | [] => []
  | c :: cs => headers depth c ++ headersAll depth cs

end

/-- Headers begin with neither a blank nor a brace, and so do lines that are not empty; there are no line
ends in them. -/
inductive IsLaid : Code → Prop
  | line {t} : IsLine t → (t = "" ∨ BeginsPlain t) → IsLaid (line t)
  | block {header body} : IsLine header → BeginsPlain header → (∀ c ∈ body, IsLaid c) →
      IsLaid (block header body)

theorem linesAll_append (d : Nat) (as bs : List Code) :
    linesAll d (as ++ bs) = linesAll d as ++ linesAll d bs := by
  induction as with
  | nil => rfl
  | cons a as ih => rw [List.cons_append, linesAll, ih, linesAll, List.append_assoc]

theorem nestedAll {cs : List Code} {d : Nat}
    (h : ∀ c ∈ cs, Nested d (c.lines d) (c.headers d)) :
    Nested d (linesAll d cs) (headersAll d cs) := by
  induction cs with
  | nil => exact .nil
  | cons c cs ih =>
    exact .append (h c List.mem_cons_self) (ih fun k hk => h k (List.mem_cons_of_mem _ hk))

/-- **The lines of a piece of code are nested** as the code is. -/
theorem nested {c : Code} (h : c.IsLaid) (d : Nat) : Nested d (c.lines d) (c.headers d) := by
  induction h generalizing d with
  | line hline ht => exact .line hline ht
  | block hline hbegins _ ih => exact .block hline hbegins (nestedAll fun c hc => ih c hc (d + 1))

theorem headers_within {α : Type} (f : α → String) (xs : List α) (inner : Code) (d : Nat) :
    (within (xs.map f) inner).headers d =
      xs.mapIdx (fun i x => (((d + i : Nat) : Int), f x)) ++ inner.headers (d + xs.length) := by
  induction xs generalizing d with
  | nil => simp [within]
  | cons x xs ih =>
    have hrest : (within (xs.map f) inner).headers (d + 1) ++ [] = _ :=
      (List.append_nil _).trans (ih (d + 1))
    change ((d : Int), f x) :: ((within (xs.map f) inner).headers (d + 1) ++ []) = _
    rw [hrest, List.mapIdx_cons, List.length_cons, List.cons_append]
    simp only [Nat.add_zero, Nat.add_assoc, Nat.add_comm 1]

theorem isLaid_within {hs : List String} {inner : Code} (hs' : ∀ h ∈ hs, IsLine h ∧ BeginsPlain h)
    (hinner : inner.IsLaid) : (within hs inner).IsLaid := by
  induction hs with
  | nil => exact hinner
  | cons h hs ih =>
    obtain ⟨hline, hbegins⟩ := hs' h List.mem_cons_self
    refine .block hline hbegins fun c hc => ?_
    rw [List.mem_singleton.mp hc]
    exact ih fun k hk => hs' k (List.mem_cons_of_mem _ hk)

end Code

/-! ## Facades -/

/-- The texts of a parameter have no line ends. -/
structure ForwardedParameter.OfLines (p : ForwardedParameter) : Prop where
  type : IsLine p.type
  name : IsLine p.name
  modifiers : ∀ m ∈ p.modifiers, IsLine m
  defaultText : ∀ d ∈ p.defaultText, IsLine d

/-- The texts of a method have no line ends. -/
structure ForwardedMethod.OfLines (m : ForwardedMethod) : Prop where
  name : IsLine m.name
  returnType : IsLine m.returnType
  parameters : ∀ p ∈ m.parameters, p.OfLines
  typeParameters : ∀ n ∈ m.typeParameters, IsLine n
  constraintClauses : ∀ c ∈ m.constraintClauses, IsLine c

/-- The texts of a target have no line ends. -/
structure Target.OfLines (t : Target) : Prop where
  displayName : IsLine t.displayName
  methods : ∀ m ∈ t.methods, m.OfLines
  imports : ∀ u ∈ t.imports, IsLine u

/-- The texts of a container have no line ends. -/
structure Container.OfLines (c : Container) : Prop where
  name : IsLine c.name
  keyword : IsLine c.keyword
  space : ∀ s ∈ c.space, IsLine s
  typeParameters : ∀ n ∈ c.typeParameters, IsLine n
  outerTypes : ∀ o ∈ c.outerTypes, IsLine o.1 ∧ IsLine o.2

theorem ForwardedParameter.OfLines.declaration {p : ForwardedParameter} (h : p.OfLines) :
    IsLine p.declaration := by
  have hwords : IsLine (" ".intercalate (p.modifiers ++ [p.type, p.name])) := by
    refine isLine_intercalate (by decide) fun w hw => ?_
    rcases List.mem_append.mp hw with hw | hw
    · exact h.modifiers w hw
    · simp only [List.mem_cons, List.not_mem_nil, or_false] at hw
      rcases hw with rfl | rfl
      · exact h.type
      · exact h.name
  unfold ForwardedParameter.declaration
  cases hd : p.defaultText with
  | none => exact hwords
  | some d =>
    simp only [isLine_append]
    exact ⟨⟨hwords, by decide⟩, h.defaultText d hd⟩

theorem ForwardedParameter.OfLines.argument {p : ForwardedParameter} (h : p.OfLines) :
    IsLine p.argument := by
  refine isLine_intercalate (by decide) fun w hw => ?_
  rcases List.mem_append.mp hw with hw | hw
  · exact h.modifiers w (List.mem_filter.mp hw).1
  · exact List.mem_singleton.mp hw ▸ h.name

namespace ForwardedMethod

variable {m : ForwardedMethod}

theorem OfLines.genericSuffix (h : m.OfLines) : IsLine m.genericSuffix :=
  isLine_withArguments (by decide) h.typeParameters

theorem OfLines.header (h : m.OfLines) : IsLine m.header := by
  have hparameters : IsLine (commaSeparated (m.parameters.map ForwardedParameter.declaration)) := by
    refine isLine_intercalate (by decide) fun w hw => ?_
    obtain ⟨p, hp, rfl⟩ := List.mem_map.mp hw
    exact (h.parameters p hp).declaration
  have hclauses : IsLine (" ".intercalate m.constraintClauses) :=
    isLine_intercalate (by decide) h.constraintClauses
  unfold ForwardedMethod.header
  split_ifs <;> simp only [isLine_append, h.returnType, h.name, h.genericSuffix, hparameters,
    hclauses, and_true] <;> decide

theorem OfLines.call (h : m.OfLines) : IsLine m.call := by
  have harguments : IsLine (commaSeparated (m.parameters.map ForwardedParameter.argument)) := by
    refine isLine_intercalate (by decide) fun w hw => ?_
    obtain ⟨p, hp, rfl⟩ := List.mem_map.mp hw
    exact (h.parameters p hp).argument
  unfold ForwardedMethod.call
  simp only [isLine_append, h.name, h.genericSuffix, harguments, and_true]
  decide

theorem beginsPlain_call (m : ForwardedMethod) : BeginsPlain m.call := by
  simp [BeginsPlain, ForwardedMethod.call, accessorName]

theorem beginsPlain_header (m : ForwardedMethod) : BeginsPlain m.header := by
  unfold ForwardedMethod.header
  split_ifs <;> simp [BeginsPlain]

/-- **A forwarding method is one block**, whose line calls the implementation. -/
theorem OfLines.code (h : m.OfLines) : m.code.IsLaid := by
  refine .block h.header m.beginsPlain_header fun c hc => ?_
  rw [List.mem_singleton.mp hc]
  split_ifs
  · exact .line h.call (Or.inr m.beginsPlain_call)
  · exact .line (isLine_append.mpr ⟨by decide, h.call⟩) (Or.inr (by simp [BeginsPlain]))

end ForwardedMethod

theorem Target.OfLines.members {t : Target} (h : t.OfLines) : ∀ c ∈ t.members, c.IsLaid := by
  intro c hc
  rcases List.mem_cons.mp hc with rfl | hc
  · refine .line ?_ (Or.inr (by simp [BeginsPlain]))
    simp only [isLine_append, h.displayName, and_true]
    decide
  · obtain ⟨m, hm, hc⟩ := List.mem_flatMap.mp hc
    simp only [List.mem_cons, List.not_mem_nil, or_false] at hc
    rcases hc with rfl | rfl
    · exact .line (by decide) (Or.inl rfl)
    · exact (h.methods m hm).code

theorem Target.headers_members (t : Target) (d : Nat) :
    Code.headersAll d t.members = t.methods.map fun m => ((d : Int), m.header) := by
  have hmethods : ∀ ms : List ForwardedMethod,
      Code.headersAll d (ms.flatMap fun m => [Code.line "", m.code]) =
        ms.map fun m => ((d : Int), m.header) := by
    intro ms
    induction ms with
    | nil => rfl
    | cons m ms ih => exact congrArg (((d : Int), m.header) :: ·) ih
  exact hmethods t.methods

namespace Container

variable {c : Container} {space access : String} {t : Target}

theorem access_laid {a : Accessibility} (h : a.keyword? = some access) :
    IsLine access ∧ BeginsPlain access := by
  cases a <;> cases h <;> decide

theorem header_laid (haccess : c.accessibility.keyword? = some access) (hc : c.OfLines)
    (ht : t.OfLines) : IsLine (c.header access t) ∧ BeginsPlain (c.header access t) := by
  obtain ⟨hline, hbegins⟩ := access_laid haccess
  have hname : IsLine c.displayName := isLine_withArguments hc.name hc.typeParameters
  unfold header
  constructor
  · simp only [isLine_append, hline, hc.keyword, hname, ht.displayName, and_true, true_and]
    decide
  · simp only [String.append_assoc]
    exact hbegins.append _

theorem outerHeaders_laid (hc : c.OfLines) :
    ∀ h ∈ c.outerHeaders, IsLine h ∧ BeginsPlain h := by
  intro h hh
  obtain ⟨o, ho, rfl⟩ := List.mem_map.mp hh
  obtain ⟨hkeyword, hhead⟩ := hc.outerTypes o ho
  refine ⟨?_, by simp [BeginsPlain]⟩
  simp only [isLine_append, hkeyword, hhead, and_true]
  decide

/-- The lines of a facade before its namespace. -/
def flatCode (t : Target) : List Code :=
  .line "#nullable enable" :: t.imports.map Code.line ++ [.line ""]

/-- The namespace of a facade, with all that is in it. -/
def spaceBody (c : Container) (access : String) (t : Target) : List Code :=
  [Code.within c.outerHeaders (.block (c.header access t) t.members)]

theorem code_eq (c : Container) (space access : String) (t : Target) :
    c.code space access t =
      flatCode t ++ [.block ("namespace " ++ space) (c.spaceBody access t)] := by
  simp [code, flatCode, spaceBody, Code.within]

theorem nested_flatCode (ht : t.OfLines) (himports : ∀ u ∈ t.imports, "using".toList <+: u.toList) :
    Nested 0 (Code.linesAll 0 (flatCode t)) [] := by
  have hlaid : ∀ k ∈ flatCode t, k.IsLaid ∧ k.headers 0 = [] := by
    intro k hk
    rcases List.mem_append.mp hk with hk | hk
    · rcases List.mem_cons.mp hk with rfl | hk
      · exact ⟨.line (by decide) (Or.inr (by decide)), rfl⟩
      · obtain ⟨u, hu, rfl⟩ := List.mem_map.mp hk
        obtain ⟨rest, hrest⟩ := himports u hu
        exact ⟨.line (ht.imports u hu) (Or.inr (by rw [BeginsPlain, ← hrest]; rfl)), rfl⟩
    · rw [List.mem_singleton.mp hk]
      exact ⟨.line (by decide) (Or.inl rfl), rfl⟩
  have hnone : ∀ ks : List Code, (∀ k ∈ ks, k.headers 0 = []) → Code.headersAll 0 ks = [] := by
    intro ks hks
    induction ks with
    | nil => rfl
    | cons k ks ih =>
      rw [Code.headersAll, hks k List.mem_cons_self, ih fun x hx => hks x (List.mem_cons_of_mem _ hx)]
      rfl
  have hnested := Code.nestedAll fun k hk => Code.nested (hlaid k hk).1 0
  rwa [hnone _ fun k hk => (hlaid k hk).2] at hnested

theorem nested_spaceBody (haccess : c.accessibility.keyword? = some access) (hc : c.OfLines)
    (ht : t.OfLines) :
    Nested 1 (Code.linesAll 1 (c.spaceBody access t))
      ((c.outerTypes.mapIdx fun i o => ((i : Int) + 1, "partial " ++ o.1 ++ " " ++ o.2)) ++
        ((c.outerTypes.length : Int) + 1, c.header access t) ::
          t.methods.map fun m => ((c.outerTypes.length : Int) + 2, m.header)) := by
  obtain ⟨hline, hbegins⟩ := header_laid haccess hc ht
  have hlaid := Code.isLaid_within (outerHeaders_laid hc) (.block hline hbegins ht.members)
  have hnested : Nested 1 (Code.linesAll 1 (c.spaceBody access t)) _ :=
    Code.nestedAll fun k hk => List.mem_singleton.mp hk ▸ Code.nested hlaid 1
  have hheaders : Code.headersAll 1 (c.spaceBody access t) = _ :=
    (List.append_nil _).trans (Code.headers_within _ c.outerTypes _ 1)
  rw [hheaders, Code.headers, Target.headers_members] at hnested
  simpa only [Int.natCast_add, Int.cast_ofNat_Int, Int.add_comm 1, Int.add_assoc, Int.reduceAdd]
    using hnested

/-- **The text of every facade is well bracketed and indented by depth.** A container with a namespace and
a level of access that can be declared has a unit for every target, if no text of theirs has a line end
and imports begin with the word `using`. In its lines the braces match, once the namespace is open the
last line is the first that closes it, and every line that is not empty is indented by four blanks for
each block around it. The blocks are these, in the order in which they open: the namespace, in it the types
around the container, each in the one before, then the container, and directly in the container one for
each method of the target. Braces within a line do not count, so the texts may hold some. -/
theorem emit_wellBracketed (hspace : c.space = some space) (hne : space ≠ "")
    (haccess : c.accessibility.keyword? = some access) (hc : c.OfLines) (ht : t.OfLines)
    (himports : ∀ u ∈ t.imports, "using".toList <+: u.toList) :
    ∃ text lines, emit c t = .unit ⟨c.name, c.hintName, text⟩ ∧
      Text.split '\n' text = lines ++ [""] ∧ WellBracketed lines ∧
      Block.headers lines = (0, "namespace " ++ space) ::
        (c.outerTypes.mapIdx fun i o => ((i : Int) + 1, "partial " ++ o.1 ++ " " ++ o.2)) ++
        ((c.outerTypes.length : Int) + 1, c.header access t) ::
        t.methods.map fun m => ((c.outerTypes.length : Int) + 2, m.header) := by
  have hflat := nested_flatCode ht himports
  have hbody := nested_spaceBody haccess hc ht
  have hspaceLine : IsLine ("namespace " ++ space) :=
    isLine_append.mpr ⟨by decide, hc.space space hspace⟩
  have hspaceBegins : BeginsPlain ("namespace " ++ space) := by simp [BeginsPlain]
  have hlines : Code.linesAll 0 (c.code space access t) = Code.linesAll 0 (flatCode t) ++
      linesOf 0 ("namespace " ++ space) (Code.linesAll 1 (c.spaceBody access t)) := by
    rw [code_eq, Code.linesAll_append]
    simp [Code.linesAll, Code.lines, linesOf]
  have hwhole := hflat.append (.block hspaceLine hspaceBegins hbody)
  refine ⟨Code.text (c.code space access t), Code.linesAll 0 (c.code space access t), ?unit, ?split,
    ?bracketed, ?blocks⟩
  case unit =>
    have hfilter : c.space.filter (!·.isEmpty) = some space := by simp [hspace, hne]
    simp only [emit, hfilter, haccess]
  case split =>
    have hisLine : ∀ l ∈ Code.linesAll 0 (c.code space access t), '\n' ∉ l.toList := by
      rw [hlines]
      exact fun l hl hmem => hwhole.isLine l hl '\n' hmem rfl
    have hnonempty : Code.linesAll 0 (c.code space access t) ≠ [] := by
      rw [code_eq]
      exact List.cons_ne_nil _ _
    have hend : Code.text (c.code space access t) =
        '\n'.toString.intercalate (Code.linesAll 0 (c.code space access t)) ++ '\n'.toString ++ "" :=
      (String.append_empty).symm
    rw [hend, Text.split_append, Text.split_joined '\n' hnonempty hisLine]
    rfl
  case bracketed =>
    rw [hlines]
    exact Nested.wellBracketed hflat hspaceLine hspaceBegins hbody
  case blocks =>
    have hread := hwhole.headersFrom_append "" []
    rw [List.append_nil, ← hlines] at hread
    simpa [Block.headers, headersFrom] using hread

/-- A record within two types. -/
def nestedPoint : Container :=
  ⟨"Point", "record struct", .publicAccess, some "Geo.Shapes", ["T"],
    [("class", "Registry"), ("struct", "Holder<TItem>")], true, none, none⟩

/-- An interface of two methods. -/
def nestedShape : Target :=
  ⟨"Geo.IShape", [⟨"Area", "double", false, [], [], []⟩,
    ⟨"Scale", "void", true, [⟨"double", "by", [], some "2"⟩], [], []⟩], ["using System;"]⟩

theorem nestedShape_ofLines : nestedShape.OfLines := by
  refine ⟨by decide, fun m hm => ?_, by decide⟩
  simp only [nestedShape, List.mem_cons, List.not_mem_nil, or_false] at hm
  rcases hm with rfl | rfl
  · exact ⟨by decide, by decide, fun p hp => absurd hp List.not_mem_nil, by decide, by decide⟩
  · refine ⟨by decide, by decide, fun p hp => ?_, by decide, by decide⟩
    rw [List.mem_singleton.mp hp]
    exact ⟨by decide, by decide, by decide, by decide⟩

theorem emit_wellBracketed_nested :
    ∃ text lines, emit nestedPoint nestedShape = .unit ⟨"Point", "Point.generated", text⟩ ∧
      Text.split '\n' text = lines ++ [""] ∧ WellBracketed lines ∧
      Block.headers lines = [(0, "namespace Geo.Shapes"), (1, "partial class Registry"),
        (2, "partial struct Holder<TItem>"), (3, "public partial record struct Point<T> : Geo.IShape"),
        (4, "public double Area()"), (4, "public void Scale(double by = 2)")] := by
  have hpoint : nestedPoint.OfLines := ⟨by decide, by decide, by decide, by decide, by decide⟩
  have hspace : nestedPoint.space = some "Geo.Shapes" := rfl
  have haccess : nestedPoint.accessibility.keyword? = some "public" := rfl
  obtain ⟨text, lines, hunit, hsplit, hbracketed, hheaders⟩ :=
    emit_wellBracketed hspace (by decide) haccess hpoint nestedShape_ofLines (by decide)
  refine ⟨text, lines, hunit, hsplit, hbracketed, hheaders.trans ?_⟩
  decide

end Container

end Facade
