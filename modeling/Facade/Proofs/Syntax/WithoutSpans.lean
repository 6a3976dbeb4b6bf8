import Facade.Syntax.Site

/-!
# Declarations without their spans

What is declared but for where it stands in its source. Two sources with the same declarations but for
their spans say the same.

* `CompilationUnit.withoutSpans`, `Member.withoutSpans` and others: declarations without spans;
* `Site.withoutSpans`, `TypeSite.withoutSpans`: declarations with what is around them.
-/

namespace Facade

/-- The directive without its span. -/
def UsingDirective.withoutSpans (u : UsingDirective) : UsingDirective := { u with span := none }

/-- The type parameter without its span. -/
def TypeParameterSyntax.withoutSpans (p : TypeParameterSyntax) : TypeParameterSyntax :=
  { p with span := none }

/-- The clause without its span. -/
def ConstraintClause.withoutSpans (c : ConstraintClause) : ConstraintClause :=
  { c with span := none }

/-- The parameter without its spans. -/
def ParameterSyntax.withoutSpans (p : ParameterSyntax) : ParameterSyntax :=
  { p with span := none, nameSpan := none }

/-- The method without spans. -/
def MethodDeclaration.withoutSpans (m : MethodDeclaration) : MethodDeclaration :=
  { m with
    parameters := m.parameters.map ParameterSyntax.withoutSpans
    typeParameters := m.typeParameters.map TypeParameterSyntax.withoutSpans
    constraints := m.constraints.map ConstraintClause.withoutSpans
    span := none
    nameSpan := none }

/-- The member without its span. -/
def OtherMember.withoutSpans (m : OtherMember) : OtherMember := { m with span := none }

/-- The form without spans. -/
def TypeForm.withoutSpans : TypeForm → TypeForm
  | delegateForm t ps => delegateForm t (ps.map ParameterSyntax.withoutSpans)
  | f => f

/-- The head of a type declaration without spans. -/
def TypeHead.withoutSpans (h : TypeHead) : TypeHead :=
  { h with
    form := h.form.withoutSpans
    typeParameters := h.typeParameters.map TypeParameterSyntax.withoutSpans
    constraints := h.constraints.map ConstraintClause.withoutSpans
    span := none
    nameSpan := none }

mutual

/-- The member without spans. -/
def Member.withoutSpans : Member → Member
  | .type head members => .type head.withoutSpans (Member.withoutSpansAll members)
  | .method m => .method m.withoutSpans
  | .other m => .other m.withoutSpans

/-- The members without spans. -/
def Member.withoutSpansAll : List Member → List Member
  | [] => []
  | m :: ms => Member.withoutSpans m :: Member.withoutSpansAll ms

end

theorem Member.withoutSpansAll_eq (ms : List Member) : withoutSpansAll ms = ms.map withoutSpans := by
  induction ms with
  | nil => rfl
  | cons m ms ih => rw [withoutSpansAll, ih, List.map_cons]

/-- The type declaration without spans. -/
def TypeDeclaration.withoutSpans (d : TypeDeclaration) : TypeDeclaration :=
  ⟨d.head.withoutSpans, Member.withoutSpansAll d.members⟩

/-- The head of a namespace without spans. -/
def NamespaceHead.withoutSpans (h : NamespaceHead) : NamespaceHead :=
  { h with usings := h.usings.map UsingDirective.withoutSpans, span := none }

mutual

/-- The member of a namespace without spans. -/
def NamespaceMember.withoutSpans : NamespaceMember → NamespaceMember
  | .space head members => .space head.withoutSpans (NamespaceMember.withoutSpansAll members)
  | .type d => .type d.withoutSpans

/-- The members of a namespace without spans. -/
def NamespaceMember.withoutSpansAll : List NamespaceMember → List NamespaceMember
  | [] => []
  | m :: ms => NamespaceMember.withoutSpans m :: NamespaceMember.withoutSpansAll ms

end

/-- The source without spans. -/
def CompilationUnit.withoutSpans (u : CompilationUnit) : CompilationUnit :=
  { u with
    usings := u.usings.map UsingDirective.withoutSpans
    members := NamespaceMember.withoutSpansAll u.members
    span := none }

/-! ## Sites -/

/-- The site without spans. -/
def Site.withoutSpans (s : Site) : Site :=
  { s with
    unit := s.unit.withoutSpans
    namespaces := s.namespaces.map NamespaceHead.withoutSpans
    types := s.types.map TypeHead.withoutSpans }

/-- The declaration with what is around it, without spans. -/
def TypeSite.withoutSpans (t : TypeSite) : TypeSite :=
  ⟨t.site.withoutSpans, t.index, t.declaration.withoutSpans⟩

@[simp] theorem Site.withoutSpans_inNamespace (s : Site) (i : Nat) (head : NamespaceHead) :
    (s.inNamespace i head).withoutSpans = s.withoutSpans.inNamespace i head.withoutSpans := by
  simp [inNamespace, withoutSpans]

@[simp] theorem Site.withoutSpans_inType (s : Site) (i : Nat) (head : TypeHead) :
    (s.inType i head).withoutSpans = s.withoutSpans.inType i head.withoutSpans := by
  simp [inType, withoutSpans]

@[simp] theorem Site.namespaceName_withoutSpans (s : Site) :
    s.withoutSpans.namespaceName = s.namespaceName := by
  have hnames : (s.namespaces.map NamespaceHead.withoutSpans).map NamespaceHead.name =
      s.namespaces.map NamespaceHead.name := by
    rw [List.map_map]
    rfl
  simp only [namespaceName, withoutSpans, hnames, List.isEmpty_map]

@[simp] theorem TypeHead.heading_withoutSpans (h : TypeHead) :
    h.withoutSpans.heading = h.heading := by
  have hnames : (h.typeParameters.map TypeParameterSyntax.withoutSpans).map TypeParameterSyntax.name =
      h.typeParameters.map TypeParameterSyntax.name := by
    rw [List.map_map]
    rfl
  simp only [heading, withoutSpans, hnames]

@[simp] theorem TypeHead.arity_withoutSpans (h : TypeHead) : h.withoutSpans.arity = h.arity :=
  List.length_map _

@[simp] theorem TypeForm.keyword_withoutSpans (f : TypeForm) : f.withoutSpans.keyword = f.keyword := by
  cases f <;> rfl

@[simp] theorem TypeHead.canHost_withoutSpans (h : TypeHead) :
    h.withoutSpans.canHost = h.canHost := by
  cases hform : h.form <;> simp [canHost, withoutSpans, TypeForm.withoutSpans, hform]

end Facade
