import Facade.Proofs.Binding.Merging

/-!
# The nodes of a source as a tree

Each node of a source holds other nodes. All nodes, each before what it holds, are those that a walk
through the source comes to, and a way of numbers leads to each type declaration among them.

* `NodeTree`, `NodeTree.preorder`: a node with what it holds, and all nodes in it;
* `CompilationUnit.nodeTree`: the nodes of a source;
* **`CompilationUnit.preorder_nodeTree`**: they are the nodes of its walk;
* `CompilationUnit.declarationAt?`: the type declaration that a way leads to;
* **`CompilationUnit.filter_candidates`**: each declaration that can host a facade is a candidate once.
-/

namespace Facade

/-- A node with its site, and the nodes that it holds, in the order of a walk. -/
inductive NodeTree where
  | mk (site : Site) (node : Node) (parts : List NodeTree)

namespace NodeTree

/-- The node with its site. -/
def placed : NodeTree → Placed
  | .mk site node _ => (site, node)

/-- The node itself. -/
def node (n : NodeTree) : Node := n.placed.2

/-- The nodes that it holds. -/
def parts : NodeTree → List NodeTree
  | .mk _ _ parts => parts

mutual

/-- A node and all nodes in it, each before what it holds. -/
def preorder : NodeTree → List NodeTree
  | .mk site node parts => .mk site node parts :: preorderAll parts

/-- Some nodes and all nodes in them. -/
def preorderAll : List NodeTree → List NodeTree
  | [] => []
  | n :: ns => preorder n ++ preorderAll ns

end

theorem preorderAll_eq (ns : List NodeTree) : preorderAll ns = ns.flatMap preorder := by
  induction ns with
  | nil => rfl
  | cons n ns ih => rw [preorderAll, List.flatMap_cons, ih]

/-- A node that holds none. -/
def leaf (site : Site) (node : Node) : NodeTree := .mk site node []

end NodeTree

open NodeTree

/-! ## Nodes with what they hold -/

/-- What a method holds: its type parameters, parameters and constraints. -/
def MethodDeclaration.nodeTree (s : Site) (m : MethodDeclaration) : NodeTree :=
  .mk s (.method m) ((m.typeParameters.map fun p => leaf s (.typeParameter p)) ++
    (m.parameters.map fun p => leaf s (.parameter p)) ++
    m.constraints.map fun c => leaf s (.constraints c))

mutual

/-- A member with what it holds; it has the number `i` at its site. -/
def Member.nodeTree (s : Site) (i : Nat) : Member → NodeTree
  | .type head members =>
    let inner := s.inType i head
    .mk s (.type ⟨s, i, ⟨head, members⟩⟩)
      ((head.typeParameters.map fun p => leaf inner (.typeParameter p)) ++
        (head.constraints.map fun c => leaf inner (.constraints c)) ++
        Member.nodeTrees inner 0 members)
  | .method m => m.nodeTree s
  | .other m => leaf s (.other m)

/-- Members with what they hold, numbered from `i` on at their site. -/
def Member.nodeTrees (s : Site) (i : Nat) : List Member → List NodeTree
  | [] => []
  | m :: ms => Member.nodeTree s i m :: Member.nodeTrees s (i + 1) ms

end

mutual

/-- A member of a namespace with what it holds; it has the number `i` at its site. -/
def NamespaceMember.nodeTree (s : Site) (i : Nat) : NamespaceMember → NodeTree
  | .space head members =>
    let inner := s.inNamespace i head
    .mk s (.space head) ((head.usings.map fun u => leaf inner (.directive u)) ++
      NamespaceMember.nodeTrees inner 0 members)
  | .type d => Member.nodeTree s i (.type d.head d.members)

/-- Members of a namespace with what they hold, numbered from `i` on at their site. -/
def NamespaceMember.nodeTrees (s : Site) (i : Nat) : List NamespaceMember → List NodeTree
  | [] => []
  | m :: ms => NamespaceMember.nodeTree s i m :: NamespaceMember.nodeTrees s (i + 1) ms

end

/-- The nodes of the source with this number. -/
def CompilationUnit.nodeTree (tree : Nat) (unit : CompilationUnit) : NodeTree :=
  let s := Site.ofUnit tree unit
  .mk s (.unit unit) ((unit.usings.map fun u => leaf s (.directive u)) ++
    NamespaceMember.nodeTrees s 0 unit.members)

/-! ## Walks -/

theorem NodeTree.placed_leaves {α : Type} (s : Site) (f : α → Node) (xs : List α) :
    (preorderAll (xs.map fun x => leaf s (f x))).map placed = xs.map fun x => (s, f x) := by
  induction xs with
  | nil => rfl
  | cons x xs ih => rw [List.map_cons, preorderAll, List.map_append, ih, List.map_cons]; rfl

theorem NodeTree.preorderAll_append (ns ns' : List NodeTree) :
    preorderAll (ns ++ ns') = preorderAll ns ++ preorderAll ns' := by
  simp only [preorderAll_eq, List.flatMap_append]

theorem MethodDeclaration.preorder_nodeTree (m : MethodDeclaration) (s : Site) :
    (m.nodeTree s).preorder.map placed = m.walk s := by
  simp only [nodeTree, preorder, List.map_cons, preorderAll_append, List.map_append, placed_leaves,
    walk, placed, List.cons_append]

mutual

theorem Member.preorder_nodeTree : (m : Member) → (s : Site) → (i : Nat) →
    (m.nodeTree s i).preorder.map placed = m.walk s i
  | .type head members, s, i => by
    simp only [Member.nodeTree, preorder, List.map_cons, preorderAll_append, List.map_append,
      placed_leaves, Member.walk, TypeHead.walk, placed, List.cons_append,
      Member.preorder_nodeTrees members]
  | .method m, s, i => m.preorder_nodeTree s
  | .other _, _, _ => rfl

theorem Member.preorder_nodeTrees : (ms : List Member) → (s : Site) → (i : Nat) →
    (preorderAll (Member.nodeTrees s i ms)).map placed = Member.walkAll s i ms
  | [], _, _ => rfl
  | m :: ms, s, i => by
    rw [Member.nodeTrees, preorderAll, List.map_append, Member.preorder_nodeTree m,
      Member.preorder_nodeTrees ms, Member.walkAll]

end

mutual

theorem NamespaceMember.preorder_nodeTree : (m : NamespaceMember) → (s : Site) → (i : Nat) →
    (m.nodeTree s i).preorder.map placed = m.walk s i
  | .space head members, s, i => by
    simp only [NamespaceMember.nodeTree, preorder, List.map_cons, preorderAll_append,
      List.map_append, placed_leaves, NamespaceMember.walk, UsingDirective.walkAll, placed,
      List.cons_append, NamespaceMember.preorder_nodeTrees members]
  | .type d, s, i => Member.preorder_nodeTree (.type d.head d.members) s i

theorem NamespaceMember.preorder_nodeTrees : (ms : List NamespaceMember) → (s : Site) → (i : Nat) →
    (preorderAll (NamespaceMember.nodeTrees s i ms)).map placed = NamespaceMember.walkAll s i ms
  | [], _, _ => rfl
  | m :: ms, s, i => by
    rw [NamespaceMember.nodeTrees, preorderAll, List.map_append, NamespaceMember.preorder_nodeTree m,
      NamespaceMember.preorder_nodeTrees ms, NamespaceMember.walkAll]

end

/-- **A walk through a source comes to all nodes of it**, each before what it holds. -/
theorem CompilationUnit.preorder_nodeTree (unit : CompilationUnit) (tree : Nat) :
    (unit.nodeTree tree).preorder.map placed = unit.walk tree := by
  simp only [nodeTree, preorder, List.map_cons, preorderAll_append, List.map_append, placed_leaves,
    walk, UsingDirective.walkAll, placed, List.cons_append, NamespaceMember.preorder_nodeTrees]

/-! ## Ways to declarations -/

mutual

/-- The type declaration in a member that a way of numbers leads to. -/
def Member.declarationAt? : Member → List Nat → Option TypeDeclaration
  | .type head members, [] => some ⟨head, members⟩
  | .type _ members, i :: way => Member.declarationIn? members i way
  | .method _, _ | .other _, _ => none

/-- The type declaration that a way leads to from the member with this number. -/
def Member.declarationIn? : List Member → Nat → List Nat → Option TypeDeclaration
  | [], _, _ => none
  | m :: _, 0, way => Member.declarationAt? m way
  | _ :: ms, i + 1, way => Member.declarationIn? ms i way

end

mutual

/-- The type declaration in a member of a namespace that a way of numbers leads to. -/
def NamespaceMember.declarationAt? : NamespaceMember → List Nat → Option TypeDeclaration
  | .space _ _, [] => none
  | .space _ members, i :: way => NamespaceMember.declarationIn? members i way
  | .type d, way => Member.declarationAt? (.type d.head d.members) way

/-- The type declaration that a way leads to from the member with this number. -/
def NamespaceMember.declarationIn? : List NamespaceMember → Nat → List Nat →
    Option TypeDeclaration
  | [], _, _ => none
  | m :: _, 0, way => NamespaceMember.declarationAt? m way
  | _ :: ms, i + 1, way => NamespaceMember.declarationIn? ms i way

end

/-- The type declaration of a source that a way leads to: at each level the number of the member. -/
def CompilationUnit.declarationAt? (unit : CompilationUnit) : List Nat → Option TypeDeclaration
  | [] => none
  | i :: way => NamespaceMember.declarationIn? unit.members i way

/-- The declarations are those that ways lead to, which begin with the number `i` at this site. -/
structure Reached (s : Site) (i : Nat) (at? : List Nat → Option TypeDeclaration)
    (ds : List Declared) : Prop where
  of_mem : ∀ e ∈ ds, ∃ way, e.site.id = ⟨s.tree, s.path ++ i :: way⟩ ∧
    at? way = some e.site.declaration
  of_way : ∀ way d, at? way = some d →
    ∃ e ∈ ds, e.site.id = ⟨s.tree, s.path ++ i :: way⟩ ∧ e.site.declaration = d

/-- The same for members that are numbered from `i` on. -/
structure ReachedFrom (s : Site) (i : Nat) (in? : Nat → List Nat → Option TypeDeclaration)
    (ds : List Declared) : Prop where
  of_mem : ∀ e ∈ ds, ∃ n way, e.site.id = ⟨s.tree, s.path ++ (i + n) :: way⟩ ∧
    in? n way = some e.site.declaration
  of_way : ∀ n way d, in? n way = some d →
    ∃ e ∈ ds, e.site.id = ⟨s.tree, s.path ++ (i + n) :: way⟩ ∧ e.site.declaration = d

variable {s : Site} {i : Nat} {ds es : List Declared} {at? : List Nat → Option TypeDeclaration}
  {in? in?' : Nat → List Nat → Option TypeDeclaration}

theorem ReachedFrom.nil (hnone : ∀ n way, in? n way = none) : ReachedFrom s i in? [] where
  of_mem _ he := absurd he List.not_mem_nil
  of_way n way d hd := by rw [hnone] at hd; cases hd

theorem Reached.cons (h : Reached s i at? ds) (h' : ReachedFrom s (i + 1) in?' es)
    (hzero : ∀ way, in? 0 way = at? way) (hsucc : ∀ n way, in? (n + 1) way = in?' n way) :
    ReachedFrom s i in? (ds ++ es) where
  of_mem e he := by
    rcases List.mem_append.mp he with he | he
    · obtain ⟨way, hid, hat⟩ := h.of_mem e he
      exact ⟨0, way, hid, (hzero way).trans hat⟩
    · obtain ⟨n, way, hid, hin⟩ := h'.of_mem e he
      exact ⟨n + 1, way, by rw [hid, Nat.add_assoc, Nat.add_comm 1 n], (hsucc n way).trans hin⟩
  of_way n way d hd := by
    cases n with
    | zero =>
      rw [hzero] at hd
      obtain ⟨e, he, hid, hdeclaration⟩ := h.of_way way d hd
      exact ⟨e, List.mem_append_left _ he, hid, hdeclaration⟩
    | succ n =>
      rw [hsucc] at hd
      obtain ⟨e, he, hid, hdeclaration⟩ := h'.of_way n way d hd
      exact ⟨e, List.mem_append_right _ he, by rw [hid, Nat.add_assoc, Nat.add_comm 1 n],
        hdeclaration⟩

theorem ReachedFrom.inType {head : TypeHead} {members : List Member} {key : DefinitionKey}
    (h : ReachedFrom (s.inType i head) 0 in? ds) (hnil : at? [] = some ⟨head, members⟩)
    (hcons : ∀ n way, at? (n :: way) = in? n way) :
    Reached s i at? (⟨key, ⟨s, i, ⟨head, members⟩⟩⟩ :: ds) where
  of_mem e he := by
    rcases List.mem_cons.mp he with rfl | he
    · exact ⟨[], rfl, hnil⟩
    · obtain ⟨n, way, hid, hin⟩ := h.of_mem e he
      exact ⟨n :: way, by rw [hid]; simp [Site.inType], (hcons n way).trans hin⟩
  of_way way d hd := by
    cases way with
    | nil =>
      rw [hnil, Option.some.injEq] at hd
      exact ⟨_, List.mem_cons_self, rfl, hd⟩
    | cons n way =>
      rw [hcons] at hd
      obtain ⟨e, he, hid, hdeclaration⟩ := h.of_way n way d hd
      exact ⟨e, List.mem_cons_of_mem _ he, by rw [hid]; simp [Site.inType], hdeclaration⟩

theorem ReachedFrom.inNamespace {head : NamespaceHead}
    (h : ReachedFrom (s.inNamespace i head) 0 in? ds) (hnil : at? [] = none)
    (hcons : ∀ n way, at? (n :: way) = in? n way) : Reached s i at? ds where
  of_mem e he := by
    obtain ⟨n, way, hid, hin⟩ := h.of_mem e he
    exact ⟨n :: way, by rw [hid]; simp [Site.inNamespace], (hcons n way).trans hin⟩
  of_way way d hd := by
    cases way with
    | nil => rw [hnil] at hd; cases hd
    | cons n way =>
      rw [hcons] at hd
      obtain ⟨e, he, hid, hdeclaration⟩ := h.of_way n way d hd
      exact ⟨e, he, by rw [hid]; simp [Site.inNamespace], hdeclaration⟩

mutual

theorem Member.reached_declare (space : Option String) : (m : Member) → (s : Site) → (i : Nat) →
    (outer : Option DefinitionKey) → Reached s i m.declarationAt? (m.declare s i space outer)
  | .type head members, s, i, outer => by
    rw [Member.declare]
    exact (Member.reached_declareAll space members (s.inType i head) 0 _).inType rfl
      fun _ _ => rfl
  | .method _, _, _, _ => ⟨fun _ he => absurd he List.not_mem_nil, fun _ _ hd => by cases hd⟩
  | .other _, _, _, _ => ⟨fun _ he => absurd he List.not_mem_nil, fun _ _ hd => by cases hd⟩

theorem Member.reached_declareAll (space : Option String) : (ms : List Member) → (s : Site) →
    (i : Nat) → (outer : Option DefinitionKey) →
    ReachedFrom s i (Member.declarationIn? ms) (Member.declareAll s i space outer ms)
  | [], _, _, _ => .nil fun _ _ => rfl
  | m :: ms, s, i, outer => by
    rw [Member.declareAll]
    exact (Member.reached_declare space m s i outer).cons
      (Member.reached_declareAll space ms s (i + 1) outer) (fun _ => rfl) fun _ _ => rfl

end

mutual

theorem NamespaceMember.reached_declare : (m : NamespaceMember) → (s : Site) → (i : Nat) →
    (space : Option String) → Reached s i m.declarationAt? (m.declare s i space)
  | .space head members, s, i, around => by
    rw [NamespaceMember.declare]
    exact (NamespaceMember.reached_declareAll members (s.inNamespace i head) 0 _).inNamespace rfl
      fun _ _ => rfl
  | .type d, s, i, around => Member.reached_declare around (.type d.head d.members) s i none

theorem NamespaceMember.reached_declareAll : (ms : List NamespaceMember) → (s : Site) → (i : Nat) →
    (space : Option String) →
    ReachedFrom s i (NamespaceMember.declarationIn? ms) (NamespaceMember.declareAll s i space ms)
  | [], _, _, _ => .nil fun _ _ => rfl
  | m :: ms, s, i, around => by
    rw [NamespaceMember.declareAll]
    exact (NamespaceMember.reached_declare m s i around).cons
      (NamespaceMember.reached_declareAll ms s (i + 1) around) (fun _ => rfl) fun _ _ => rfl

end

theorem filter_eq_singleton {α β : Type} [DecidableEq β] {f : α → β} {xs : List α} {x : α}
    (h : (xs.map f).Nodup) (hx : x ∈ xs) : xs.filter (fun y => f y = f x) = [x] := by
  induction xs with
  | nil => cases hx
  | cons y xs ih =>
    obtain ⟨hnot, hnodup⟩ := List.nodup_cons.mp h
    rcases List.mem_cons.mp hx with rfl | hx
    · have hnone : xs.filter (fun y => f y = f x) = [] :=
        List.filter_eq_nil_iff.mpr fun y hy heq => hnot (of_decide_eq_true heq ▸ List.mem_map_of_mem hy)
      rw [List.filter_cons_of_pos (by simp), hnone]
    · have hne : f y ≠ f x := fun heq => hnot (heq ▸ List.mem_map_of_mem hx)
      rw [List.filter_cons_of_neg (by simpa using hne), ih hnodup hx]

namespace CompilationUnit

theorem nodup_ids (unit : CompilationUnit) (tree : Nat) :
    ((unit.typeSites tree).map TypeSite.id).Nodup := by
  rw [← map_site_declare, List.map_map]
  exact (numbered_declare tree unit).distinct

/-- **Each declaration that can host a facade is a candidate once**, and there are no others. -/
theorem filter_candidates (unit : CompilationUnit) (tree : Nat) :
    (∀ t ∈ unit.candidates tree, ∃ way, t.id = ⟨tree, way⟩ ∧
      unit.declarationAt? way = some t.declaration ∧ t.head.canHost = true) ∧
    ∀ way d, unit.declarationAt? way = some d → d.head.canHost = true →
      ∃ t, (unit.candidates tree).filter (fun t => t.id = ⟨tree, way⟩) = [t] ∧ t.declaration = d := by
  have hreached : ReachedFrom (.ofUnit tree unit) 0 (NamespaceMember.declarationIn? unit.members)
      (unit.declare tree) := NamespaceMember.reached_declareAll unit.members _ 0 none
  refine ⟨fun t ht => ?_, fun way d hd hhost => ?_⟩
  · obtain ⟨ht, hhost⟩ := List.mem_filter.mp ht
    rw [← map_site_declare] at ht
    obtain ⟨e, he, rfl⟩ := List.mem_map.mp ht
    obtain ⟨n, way, hid, hin⟩ := hreached.of_mem e he
    exact ⟨n :: way, by rw [hid]; simp [Site.ofUnit], hin, hhost⟩
  · cases way with
    | nil => cases hd
    | cons n way =>
      obtain ⟨e, he, hid, rfl⟩ := hreached.of_way n way d hd
      have hmem : e.site ∈ unit.candidates tree := by
        refine List.mem_filter.mpr ⟨?_, hhost⟩
        rw [← map_site_declare]
        exact List.mem_map_of_mem he
      have hnodup : ((unit.candidates tree).map TypeSite.id).Nodup :=
        (unit.nodup_ids tree).sublist (List.filter_sublist.map _)
      have hway : e.site.id = ⟨tree, n :: way⟩ := by rw [hid]; simp [Site.ofUnit]
      exact ⟨e.site, hway ▸ filter_eq_singleton hnodup hmem, rfl⟩

end CompilationUnit

end Facade
