import Facade.Proofs.Grammar.PartOrder
import Facade.Proofs.Syntax.Written

/-!
# The parts that a phrase has

The pattern of a phrase says which kinds of parts the phrase can have, and which it has whatever the
source is. Both are computed from the pattern, so a phrase is looked into without going through the ways
in which it can be made.

* `Pattern.kinds`, `Rule.keptKinds`: the kinds of parts that a pattern names, and those that a tree keeps;
* `Pattern.requires`: one part is of some kinds in each way to meet a pattern;
* **`Tree.Grown.kind_mem`**, **`Tree.Grown.exists_kind`**: so it is in the trees of the plain grammar;
* `Tree.phrase?_of_kind`, `Tree.name?_of_kind`: parts that are there are found.
-/

namespace Facade

/-- Whether a phrase keeps its parts of a kind. -/
def PartKind.isKept (r : Rule) : PartKind → Bool
  | token t => t.isNamed || r.keepsTokens
  | phrase _ => true

theorem Tree.isKept_eq (r : Rule) (t : Tree) : isKept r t = t.kind.isKept r := by
  cases t <;> rfl

namespace Pattern

/-- The kinds of parts that the pattern names. -/
def kinds : Pattern → List PartKind
  | token t => [.token t]
  | rule r => [.phrase r]
  | seq p q | alt p q => p.kinds ++ q.kinds
  | opt p | plus _ p | resume _ _ p => p.kinds

/-- There is a part of one of these kinds in each way to meet the pattern. -/
def requires (ks : List PartKind) : Pattern → Bool
  | token t => .token t ∈ ks
  | rule r => .phrase r ∈ ks
  | seq p q => p.requires ks || q.requires ks
  | alt p q => p.requires ks && q.requires ks
  | opt _ => false
  | plus _ p => p.requires ks
  | resume .. => true

variable {p : Pattern} {parts : List Tree} {ks : List PartKind}

theorem mem_kinds_of_mentions {k : PartKind} (h : p.mentions [k]) : k ∈ p.kinds := by
  induction p with
  | token t => simpa [mentions, kinds, eq_comm] using h
  | rule r => simpa [mentions, kinds, eq_comm] using h
  | seq p q ih ih' | alt p q ih ih' =>
    rw [mentions, Bool.or_eq_true] at h
    exact List.mem_append.mpr (h.imp ih ih')
  | opt p ih | plus _ p ih | resume _ _ p ih => exact ih h

/-- A pattern spells parts of the kinds that it names. -/
theorem Spells.kind_mem (h : p.Spells parts) {t : Tree} (ht : t ∈ parts) : t.kind ∈ p.kinds :=
  mem_kinds_of_mentions (h.mentions ht (List.mem_singleton.mpr rfl))

/-- Among the parts that a pattern spells is one of those that it requires. -/
theorem Spells.exists_kind (h : p.Spells parts) (hrequires : p.requires ks) : ∃ t ∈ parts, t.kind ∈ ks := by
  induction p generalizing parts with
  | token t =>
    obtain ⟨found, rfl, rfl⟩ := h
    exact ⟨_, List.mem_singleton.mpr rfl, of_decide_eq_true hrequires⟩
  | rule r =>
    obtain ⟨children, extent, rfl⟩ := h
    exact ⟨_, List.mem_singleton.mpr rfl, of_decide_eq_true hrequires⟩
  | seq p q ih ih' =>
    obtain ⟨before, behind, hp, hq, rfl⟩ := h
    rw [requires, Bool.or_eq_true] at hrequires
    rcases hrequires with hrequires | hrequires
    · obtain ⟨t, ht, hk⟩ := ih hp hrequires
      exact ⟨t, List.mem_append_left _ ht, hk⟩
    · obtain ⟨t, ht, hk⟩ := ih' hq hrequires
      exact ⟨t, List.mem_append_right _ ht, hk⟩
  | alt p q ih ih' =>
    rw [requires, Bool.and_eq_true] at hrequires
    exact h.elim (fun h => ih h hrequires.1) fun h => ih' h hrequires.2
  | opt p => cases hrequires
  | plus after p ih =>
    obtain ⟨items, hitems, hspelled, rfl⟩ := h
    obtain ⟨item, items, rfl⟩ := List.exists_cons_of_ne_nil hitems
    obtain ⟨t, ht, hk⟩ := ih (hspelled item List.mem_cons_self) hrequires
    exact ⟨t, List.mem_flatten.mpr ⟨item, List.mem_cons_self, ht⟩, hk⟩
  | resume => exact h.elim

end Pattern

/-- The kinds of parts that a tree keeps of a phrase. -/
def Rule.keptKinds (r : Rule) : List PartKind := r.plainBody.kinds.filter (PartKind.isKept r)

namespace Tree

variable {good : Tree → Prop} {r : Rule} {parts : List Tree} {extent : Option Extent} {t : Tree}

/-- **The parts of a phrase are of the kinds that its pattern names.** -/
theorem Grown.kind_mem (h : (Tree.node r parts extent).Grown good) (ht : t ∈ parts) :
    t.kind ∈ r.keptKinds := by
  cases h with
  | node hspells _ _ =>
    obtain ⟨hmem, hkept⟩ := List.mem_filter.mp ht
    exact List.mem_filter.mpr ⟨hspells.kind_mem hmem, isKept_eq r t ▸ hkept⟩

/-- **A phrase has the parts that its pattern requires.** -/
theorem Grown.exists_kind (h : (Tree.node r parts extent).Grown good) (ks : List PartKind)
    (hrequires : r.plainBody.requires ks) (hkept : ∀ k ∈ ks, k.isKept r = true) :
    ∃ t ∈ parts, t.kind ∈ ks := by
  cases h with
  | node hspells _ _ =>
    obtain ⟨t, ht, hk⟩ := hspells.exists_kind hrequires
    exact ⟨t, List.mem_filter.mpr ⟨ht, isKept_eq r t ▸ hkept _ hk⟩, hk⟩

theorem exists_of_kind (h : t.kind = .phrase r) : ∃ inner e, t = node r inner e := by
  cases t with
  | leaf => cases h
  | node r' inner e =>
    cases h
    exact ⟨inner, e, rfl⟩

theorem isPhrase_iff : isPhrase r t = true ↔ t.kind = .phrase r := by
  cases t with
  | leaf => simp [isPhrase, kind]
  | node r' inner e => simp [isPhrase, kind]

/-- A phrase that is there is found. -/
theorem phrase?_of_kind (ht : t ∈ parts) (hk : t.kind = .phrase r) :
    ∃ inner e, phrase? r parts = some (node r inner e) ∧ node r inner e ∈ parts := by
  obtain ⟨found, hfound⟩ : ∃ found, phrase? r parts = some found :=
    Option.isSome_iff_exists.mp (List.find?_isSome.mpr ⟨t, ht, isPhrase_iff.mpr hk⟩)
  obtain ⟨hmem, inner, e, rfl⟩ := phrase?_eq_some hfound
  exact ⟨inner, e, hfound, hmem⟩

/-- A name that is there is found. -/
theorem name?_of_kind (ht : t ∈ parts) (hk : t.kind = .token .name) : ∃ n, name? parts = some n := by
  induction parts with
  | nil => cases ht
  | cons u parts ih =>
    rcases List.mem_cons.mp ht with rfl | hrest
    · cases t with
      | node => cases hk
      | leaf n => exact ⟨n, if_pos (PartKind.token.inj hk)⟩
    · cases u with
      | node => exact ih hrest
      | leaf n =>
        simp only [name?]
        split_ifs
        · exact ⟨n, rfl⟩
        · exact ih hrest

theorem Grown.exists_phrase (h : (Tree.node r parts extent).Grown good) (r' : Rule)
    (hrequires : r.plainBody.requires [.phrase r']) :
    ∃ inner e, phrase? r' parts = some (.node r' inner e) ∧ .node r' inner e ∈ parts := by
  obtain ⟨t, ht, hk⟩ := h.exists_kind _ hrequires (by simp [PartKind.isKept])
  exact phrase?_of_kind ht (List.mem_singleton.mp hk)

theorem Grown.exists_name (h : (Tree.node r parts extent).Grown good)
    (hrequires : r.plainBody.requires [.token .name]) : ∃ n, name? parts = some n := by
  obtain ⟨t, ht, hk⟩ := h.exists_kind _ hrequires (by simp [PartKind.isKept, Terminal.isNamed])
  exact name?_of_kind ht (List.mem_singleton.mp hk)

theorem Grown.of_mem_partsOf (h : ∀ t ∈ parts, t.Grown good) (ht : t ∈ partsOf r parts) :
    t.Grown good ∧ t.kind ∈ r.keptKinds := by
  unfold partsOf at ht
  split at ht
  · next hphrase =>
    obtain ⟨hmem, _, _, heq⟩ := phrase?_eq_some hphrase
    cases heq
    exact ⟨(h _ hmem).of_mem ht, (h _ hmem).kind_mem ht⟩
  · cases ht

end Tree

end Facade
