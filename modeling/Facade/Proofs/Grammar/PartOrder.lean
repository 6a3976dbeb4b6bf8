import Facade.Proofs.Grammar.Growth
import Facade.Proofs.Grammar.Laid

/-!
# The order of parts

The pattern of a phrase says in which order its parts come, whichever of them there are. So some parts of
a phrase, taken out kind by kind in this order, stand in a row.

* `PartKind`, `Tree.kind`: tokens of a terminal and phrases of a rule, as parts;
* `Pattern.puts`: a pattern puts parts of some kinds before those of other ones;
* **`Pattern.Spells.order`**: so do the parts that it spells;
* **`Tree.Laid.select`**: parts of a phrase taken out in their order stand in a row.
-/

namespace Facade

/-- A kind of parts: the tokens of a terminal, or the phrases of a rule. -/
inductive PartKind where
  | token (t : Terminal)
  | phrase (r : Rule)
deriving DecidableEq

/-- The kind of part that a tree is. -/
def Tree.kind : Tree → PartKind
  | leaf t => .token t.terminal
  | node r _ _ => .phrase r

namespace Pattern

/-- The pattern may have a part of one of these kinds. -/
def mentions (ks : List PartKind) : Pattern → Bool
  | token t => .token t ∈ ks
  | rule r => .phrase r ∈ ks
  | seq p q | alt p q => p.mentions ks || q.mentions ks
  | opt p | plus _ p | resume _ _ p => p.mentions ks

/-- No part of the kinds `bs` comes before one of the kinds `as`. -/
def puts (as bs : List PartKind) : Pattern → Bool
  | token _ | rule _ => true
  | seq p q => p.puts as bs && q.puts as bs && !(p.mentions bs && q.mentions as)
  | alt p q => p.puts as bs && q.puts as bs
  | opt p => p.puts as bs
  | plus _ p => p.puts as bs && !(p.mentions bs && p.mentions as)
  | resume .. => false

variable {p : Pattern} {parts : List Tree} {as bs ks : List PartKind}

theorem Spells.mentions (h : p.Spells parts) {t : Tree} (ht : t ∈ parts) (hk : t.kind ∈ ks) :
    p.mentions ks := by
  induction p generalizing parts with
  | token k =>
    obtain ⟨found, rfl, rfl⟩ := h
    obtain rfl := List.mem_singleton.mp ht
    exact decide_eq_true hk
  | rule r =>
    obtain ⟨children, extent, rfl⟩ := h
    obtain rfl := List.mem_singleton.mp ht
    exact decide_eq_true hk
  | seq p q ih ih' =>
    obtain ⟨before, behind, hp, hq, rfl⟩ := h
    rw [Pattern.mentions, Bool.or_eq_true]
    exact (List.mem_append.mp ht).imp (ih hp) (ih' hq)
  | alt p q ih ih' =>
    rw [Pattern.mentions, Bool.or_eq_true]
    exact h.imp (fun h => ih h ht) (fun h => ih' h ht)
  | opt p ih =>
    rcases h with rfl | h
    · cases ht
    · exact ih h ht
  | plus repeated p ih =>
    obtain ⟨items, -, hitems, rfl⟩ := h
    obtain ⟨item, hitem, ht⟩ := List.mem_flatten.mp ht
    exact ih (hitems item hitem) ht
  | resume => exact h.elim

/-- **The parts of a pattern come in the order that it puts them in.** -/
theorem Spells.order (h : p.Spells parts) (hp : p.puts as bs) :
    parts.Pairwise fun t u => ¬(t.kind ∈ bs ∧ u.kind ∈ as) := by
  -- parts of two patterns one behind the other
  have hbehind {p q : Pattern} {xs ys : List Tree} (hxs : p.Spells xs) (hys : q.Spells ys)
      (hnot : (p.mentions bs && q.mentions as) = false) :
      ∀ t ∈ xs, ∀ u ∈ ys, ¬(t.kind ∈ bs ∧ u.kind ∈ as) := fun t ht u hu htu => by
    rw [hxs.mentions ht htu.1, hys.mentions hu htu.2] at hnot
    cases hnot
  induction p generalizing parts with
  | token k =>
    obtain ⟨found, -, rfl⟩ := h
    exact List.pairwise_singleton ..
  | rule r =>
    obtain ⟨children, extent, rfl⟩ := h
    exact List.pairwise_singleton ..
  | seq p q ih ih' =>
    simp only [puts, Bool.and_eq_true, Bool.not_eq_true'] at hp
    obtain ⟨xs, ys, hxs, hys, rfl⟩ := h
    exact List.pairwise_append.mpr ⟨ih hxs hp.1.1, ih' hys hp.1.2, hbehind hxs hys hp.2⟩
  | alt p q ih ih' =>
    simp only [puts, Bool.and_eq_true] at hp
    exact h.elim (fun h => ih h hp.1) fun h => ih' h hp.2
  | opt p ih =>
    rcases h with rfl | h
    · exact .nil
    · exact ih h hp
  | plus repeated p ih =>
    simp only [puts, Bool.and_eq_true, Bool.not_eq_true'] at hp
    obtain ⟨items, -, hitems, rfl⟩ := h
    refine List.pairwise_flatten.mpr ⟨fun item hitem => ih (hitems item hitem) hp.1, ?_⟩
    exact List.pairwise_of_forall_mem_list fun item hitem item' hitem' =>
      hbehind (hitems item hitem) (hitems item' hitem') hp.2
  | resume => exact h.elim

end Pattern

namespace Tree

variable {good : Tree → Prop} {r : Rule} {children : List Tree} {extent : Option Extent}

theorem Grown.order (h : (Tree.node r children extent).Grown good) {as bs : List PartKind}
    (hputs : r.plainBody.puts as bs) :
    children.Pairwise fun t u => ¬(t.kind ∈ bs ∧ u.kind ∈ as) := by
  cases h with
  | node hspells _ _ => exact (hspells.order hputs).sublist List.filter_sublist

/-- **Parts of a phrase that are taken out in groups of kinds**, in the order that its pattern puts them
in, stand in a row. -/
theorem Laid.select {e : Extent} (h : (Tree.node r children (some e)).Laid)
    (hgrown : (Tree.node r children (some e)).Grown good) (groups : List (List PartKind))
    (hgroups : groups.Pairwise fun as bs => (∀ k ∈ as, k ∉ bs) ∧ r.plainBody.puts as bs) :
    Row e.span.start e.span.stop
      ((groups.flatMap fun ks => children.filter fun t => t.kind ∈ ks).map stretch) := by
  cases h with
  | node _ hproper hrow =>
  refine .of_pairwise hrow.le (fun s hs => ?_) ?_
  · obtain ⟨t, ht, rfl⟩ := List.mem_map.mp hs
    obtain ⟨k, -, ht⟩ := List.mem_flatMap.mp ht
    exact hrow.bounds (List.mem_map_of_mem (List.mem_filter.mp ht).1)
  · have hpairwise : children.Pairwise fun t u => t.stretch.Before u.stretch :=
      List.pairwise_map.mp hrow.pairwise
    refine List.pairwise_map.mpr (List.pairwise_flatMap.mpr
      ⟨fun k _ => hpairwise.sublist List.filter_sublist, hgroups.imp ?_⟩)
    rintro as bs ⟨hdisjoint, hputs⟩ t ht u hu
    obtain ⟨ht, hta⟩ := List.mem_filter.mp ht
    obtain ⟨hu, hub⟩ := List.mem_filter.mp hu
    obtain ⟨i, hi, rfl⟩ := List.getElem_of_mem ht
    obtain ⟨j, hj, rfl⟩ := List.getElem_of_mem hu
    rcases Nat.lt_trichotomy i j with hij | rfl | hji
    · exact List.pairwise_iff_getElem.mp hpairwise i j hi hj hij
    · exact absurd (of_decide_eq_true hub) (hdisjoint _ (of_decide_eq_true hta))
    · exact absurd ⟨of_decide_eq_true hub, of_decide_eq_true hta⟩
        (List.pairwise_iff_getElem.mp (hgrown.order hputs) j i hj hi hji)

end Tree

end Facade
