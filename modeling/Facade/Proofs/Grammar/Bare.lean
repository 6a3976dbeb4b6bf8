import Mathlib.Data.List.Forall2
import Facade.Proofs.Grammar.Takes

/-!
# Trees without their places

Two trees say the same if they differ only in where their parts stand and in what the blocks and the
expressions of their members hold. Of attributes and default values the text counts.

* `Tree.bare`: a tree without its places, the texts that count looked up in a common source;
* `Tree.Matches`: trees that say the same, with the places of their ends related;
* **`Tree.Matches.node`**: phrases whose parts match;
* `Tree.tokens`: the tokens that a tree keeps.
-/

namespace Facade

/-- The first place at which a source has a text. -/
def Extent.find? (source text : List Char) : Option Extent :=
  ((List.range (source.length + 1)).find? fun i => text.isPrefixOf (source.drop i)).map fun i =>
    ⟨⟨i, 0, 0⟩, ⟨i + text.length, 0, 0⟩⟩

theorem Extent.exists_find? {source text : List Char} (h : text <:+: source) :
    ∃ e, Extent.find? source text = some e ∧ e.text source = String.ofList text := by
  obtain ⟨before, behind, hsource⟩ := h
  have hfound : ((List.range (source.length + 1)).find? fun i =>
      text.isPrefixOf (source.drop i)).isSome := by
    rw [List.find?_isSome]
    refine ⟨before.length, ?_, ?_⟩
    · rw [List.mem_range, ← hsource]
      simp only [List.length_append]
      omega
    · rw [← hsource, List.append_assoc, List.drop_left]
      exact List.isPrefixOf_iff_prefix.mpr (List.prefix_append text behind)
  obtain ⟨i, hi⟩ := Option.isSome_iff_exists.mp hfound
  have hprefix : text.isPrefixOf (source.drop i) = true := by simpa using List.find?_some hi
  obtain ⟨z, hz⟩ := List.isPrefixOf_iff_prefix.mp hprefix
  refine ⟨_, by rw [find?, hi]; rfl, ?_⟩
  simp only [Extent.text, ← hz, Nat.add_sub_cancel_left, List.take_left]

/-- The phrases whose text counts. -/
def Rule.keepsText : Rule → Bool
  | attributeSection | defaultValue => true
  | _ => false

/-- The phrases whose parts do not count. -/
def Rule.isSilent : Rule → Bool
  | block | expression => true
  | _ => false

namespace Tree

variable (common : List Char)

mutual

/-- The tree without its places. The texts that count stand where the common source has them first. -/
def bare (source : List Char) : Tree → Tree
  | leaf t => leaf ⟨t.terminal, t.text, default⟩
  | node r children extent =>
    node r (if r.isSilent then [] else bareAll source children)
      (if r.keepsText then Extent.find? common ((node r children extent).text source).toList else none)

/-- The trees of a list without their places. -/
def bareAll (source : List Char) : List Tree → List Tree
  | [] => []
  | t :: ts => bare source t :: bareAll source ts

end

theorem bareAll_eq (source : List Char) (ts : List Tree) :
    bareAll common source ts = ts.map (bare common source) := by
  induction ts with
  | nil => rfl
  | cons t ts ih => rw [bareAll, ih, List.map_cons]

@[simp] theorem bare_leaf (source : List Char) (t : Token) :
    bare common source (leaf t) = leaf ⟨t.terminal, t.text, default⟩ := rfl

theorem bare_node (source : List Char) (r : Rule) (children : List Tree) (extent : Option Extent) :
    bare common source (node r children extent) =
      node r (if r.isSilent then [] else children.map (bare common source))
        (if r.keepsText then
          Extent.find? common ((node r children extent).text source).toList else none) := by
  rw [bare, bareAll_eq]

@[simp] theorem isKept_bare (source : List Char) (r : Rule) (t : Tree) :
    isKept r (bare common source t) = isKept r t := by
  cases t with
  | leaf t => rfl
  | node r' children extent => rw [bare_node]; rfl

/-! ## Trees that match -/

variable (source source' : List Char) (P : Position → Position → Prop)

/-- The trees say the same, and the places of their ends are related. -/
structure Matches (t t' : Tree) : Prop where
  bare : t.bare common source = t'.bare common source'
  ends : Option.Rel (fun e e' => P e.start e'.start ∧ P e.stop e'.stop) t.extent? t'.extent?

variable {common source source' P}

theorem Matches.mono {Q : Position → Position → Prop} (hQ : ∀ p p', P p p' → Q p p') {t t' : Tree}
    (h : Matches common source source' P t t') : Matches common source source' Q t t' := by
  refine ⟨h.bare, ?_⟩
  have hends := h.ends
  generalize t.extent? = o, t'.extent? = o' at hends ⊢
  cases hends with
  | none => exact .none
  | some he => exact .some ⟨hQ _ _ he.1, hQ _ _ he.2⟩

theorem rel_cover {parts parts' : List Tree}
    (h : List.Forall₂ (Matches common source source' P) parts parts') :
    Option.Rel (fun e e' => P e.start e'.start ∧ P e.stop e'.stop) (cover parts) (cover parts') := by
  have hlast : Option.Rel (Matches common source source' P) parts.getLast? parts'.getLast? := by
    rw [List.getLast?_eq_head?_reverse, List.getLast?_eq_head?_reverse]
    have hreverse := List.forall₂_reverse_iff.mpr h
    generalize parts.reverse = ts, parts'.reverse = ts' at hreverse
    cases hreverse with
    | nil => exact .none
    | cons ht _ => exact .some ht
  cases h with
  | nil => exact .none
  | @cons t t' ts ts' ht _ =>
    simp only [cover, List.head?_cons, Option.bind_eq_bind, Option.bind_some]
    generalize (t :: ts).getLast? = o, (t' :: ts').getLast? = o' at hlast
    cases hlast with
    | none => exact .none
    | @some u u' hu =>
      have hfirst := ht.ends
      have hlast := hu.ends
      simp only [Option.bind_some]
      generalize t.extent? = o, t'.extent? = o' at hfirst
      generalize u.extent? = o₁, u'.extent? = o₁' at hlast
      cases hfirst with
      | none => exact .none
      | some he =>
        cases hlast with
        | none => exact .none
        | some he' => exact .some ⟨he.1, he'.2⟩

theorem map_bare_eq {parts parts' : List Tree}
    (h : List.Forall₂ (Matches common source source' P) parts parts') :
    parts.map (bare common source) = parts'.map (bare common source') := by
  induction h with
  | nil => rfl
  | cons ht _ ih => rw [List.map_cons, List.map_cons, ht.bare, ih]

theorem filter_bare (r : Rule) (parts : List Tree) :
    (parts.filter (isKept r)).map (bare common source) =
      (parts.map (bare common source)).filter (isKept r) := by
  induction parts with
  | nil => rfl
  | cons t ts ih =>
    rw [List.map_cons, List.filter_cons, List.filter_cons, isKept_bare, ← ih]
    split_ifs <;> rfl

/-- **Phrases whose parts do not count match.** -/
theorem Matches.silent {r : Rule} (hr : r.isSilent) {parts parts' : List Tree}
    (hends : Option.Rel (fun e e' => P e.start e'.start ∧ P e.stop e'.stop) (cover parts)
      (cover parts')) : Matches common source source' P (r.node parts) (r.node parts') := by
  refine ⟨?_, hends⟩
  have htext : r.keepsText = false := by
    revert hr
    cases r <;> decide
  simp [Rule.node, bare_node, hr, htext]

/-- **Phrases match if their parts do**, and their text is the same where it counts. -/
theorem Matches.node {r : Rule} {parts parts' : List Tree}
    (h : List.Forall₂ (Matches common source source' P) parts parts')
    (htext : r.keepsText → (r.node parts).text source = (r.node parts').text source') :
    Matches common source source' P (r.node parts) (r.node parts') := by
  refine ⟨?_, rel_cover h⟩
  have hchildren : (parts.filter (isKept r)).map (Tree.bare common source) =
      (parts'.filter (isKept r)).map (Tree.bare common source') := by
    rw [filter_bare, filter_bare, map_bare_eq h]
  simp only [Rule.node, bare_node, hchildren]
  by_cases hr : r.keepsText
  · have htext' := htext hr
    simp only [Rule.node] at htext'
    rw [htext']
  · simp [hr]

/-! ## The tokens of a tree -/

mutual

/-- The tokens that a tree keeps. -/
def tokens : Tree → List Token
  | leaf t => [t]
  | node _ children _ => tokensAll children

/-- The tokens that trees keep. -/
def tokensAll : List Tree → List Token
  | [] => []
  | t :: ts => tokens t ++ tokensAll ts

end

theorem mem_tokensAll {t : Token} {parts : List Tree} :
    t ∈ tokensAll parts ↔ ∃ u ∈ parts, t ∈ u.tokens := by
  induction parts with
  | nil => simp [tokensAll]
  | cons u parts ih => simp [tokensAll, ih]

theorem mem_tokens_node {t : Token} {parts : List Tree} (ht : t ∈ tokensAll parts)
    (hnamed : t.terminal.isNamed) (r : Rule) : t ∈ (r.node parts).tokens := by
  obtain ⟨u, hu, ht⟩ := mem_tokensAll.mp ht
  refine mem_tokensAll.mpr ⟨u, List.mem_filter.mpr ⟨hu, ?_⟩, ht⟩
  cases u with
  | leaf u =>
    obtain rfl : t = u := List.mem_singleton.mp ht
    simp [hnamed]
  | node => rfl

end Tree

end Facade
