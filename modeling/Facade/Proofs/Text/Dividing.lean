import Mathlib.Data.List.Chain
import Mathlib.Tactic.Common

/-!
# Where a piece of text ends

A text that was put together from pieces can be taken apart again if each piece is the longest
beginning of its kind.

* `Text.Stops`, **`Text.Stops.unique`**: a piece that is the longest beginning of a kind;
* `Text.nest`, `Text.Solid`: pieces without blanks and commas outside of brackets;
* `Text.Solid.stops`, `Text.solid_intercalate_unique`: such pieces, and lists of them.
-/

namespace Facade.Text

/-! ## The longest beginning of a kind -/

/-- `a` is the longest beginning of `a ++ x` of a kind, as far as the first character of `x` tells. -/
def Stops (kind : List Char → Prop) (a x : List Char) : Prop :=
  kind a ∧ ∀ c ∈ x.head?, ¬ kind (a ++ [c])

/-- Every beginning of a text of the kind is of the kind. -/
def PrefixClosed (kind : List Char → Prop) : Prop := ∀ a b, kind (a ++ b) → kind a

/-- **Texts that divide into a longest beginning and a rest divide in one way.** -/
theorem Stops.unique {kind : List Char → Prop} (hkind : PrefixClosed kind) {a b x y : List Char}
    (ha : Stops kind a x) (hb : Stops kind b y) (h : a ++ x = b ++ y) : a = b ∧ x = y := by
  have hlonger : ∀ {a x w y}, Stops kind a x → kind (a ++ w) → x = w ++ y → w = [] := by
    intro a x w y hstops hw hx
    cases w with
    | nil => rfl
    | cons c w =>
      refine absurd (hkind (a ++ [c]) w (by simpa using hw)) (hstops.2 c ?_)
      rw [hx]
      rfl
  rcases List.append_eq_append_iff.mp h with ⟨w, rfl, hx⟩ | ⟨w, rfl, hy⟩
  · obtain rfl := hlonger ha hb.1 hx
    exact ⟨by simp, hx⟩
  · obtain rfl := hlonger hb ha.1 hy
    exact ⟨by simp, hy.symm⟩

/-- No character of the text satisfies `p`. -/
def Without (p : Char → Prop) (a : List Char) : Prop := ∀ c ∈ a, ¬ p c

instance {p : Char → Prop} [DecidablePred p] (a : List Char) : Decidable (Without p a) :=
  decidable_of_iff (a.all (fun c => !decide (p c)) = true) (by simp [Without])

theorem without_append {p : Char → Prop} {a b : List Char} :
    Without p (a ++ b) ↔ Without p a ∧ Without p b := by
  simp only [Without, List.mem_append]
  exact ⟨fun h => ⟨fun c hc => h c (Or.inl hc), fun c hc => h c (Or.inr hc)⟩,
    fun h c hc => hc.elim (h.1 c) (h.2 c)⟩

theorem intercalate_cons_eq (sep a : List Char) (as : List (List Char)) :
    sep.intercalate (a :: as) = a ++ as.flatMap fun w => sep ++ w := by
  induction as generalizing a with
  | nil => simp
  | cons a' as ih => rw [List.intercalate_cons_cons, ih, List.flatMap_cons, List.append_assoc,
      List.append_assoc]

theorem without_intercalate {p : Char → Prop} {sep : List Char} {as : List (List Char)}
    (hsep : Without p sep) (has : ∀ a ∈ as, Without p a) : Without p (sep.intercalate as) := by
  cases as with
  | nil => exact fun c hc => absurd hc (by simp)
  | cons a as =>
    rw [intercalate_cons_eq, without_append]
    refine ⟨has a List.mem_cons_self, fun c hc => ?_⟩
    obtain ⟨b, hb, hc⟩ := List.mem_flatMap.mp hc
    exact (without_append.mpr ⟨hsep, has b (List.mem_cons_of_mem _ hb)⟩) c hc

theorem without_toList_append {p : Char → Prop} {a b : String} :
    Without p (a ++ b).toList ↔ Without p a.toList ∧ Without p b.toList := by
  rw [String.toList_append, without_append]

theorem without_toList_intercalate {p : Char → Prop} {sep : String} {items : List String}
    (hsep : Without p sep.toList) (h : ∀ i ∈ items, Without p i.toList) :
    Without p (sep.intercalate items).toList := by
  rw [String.toList_intercalate]
  refine without_intercalate hsep fun a ha => ?_
  obtain ⟨i, hi, rfl⟩ := List.mem_map.mp ha
  exact h i hi

theorem cut_at {p : Char → Prop} {a b x y : List Char} {c d : Char} (ha : Without p a)
    (hb : Without p b) (hc : p c) (hd : p d) (h : a ++ c :: x = b ++ d :: y) :
    a = b ∧ c = d ∧ x = y := by
  have hstops : ∀ {a x c}, Without p a → p c → Stops (Without p) a (c :: x) :=
    fun {a x c} ha hc => ⟨ha, fun c' hc' hnot => hnot c' (by simp) (by
      rw [List.head?_cons, Option.mem_some] at hc'
      exact hc' ▸ hc)⟩
  obtain ⟨rfl, hrest⟩ := (hstops ha hc).unique (fun _ _ h => (without_append.mp h).1)
    (hstops hb hd) h
  obtain ⟨rfl, rfl⟩ := List.cons.inj hrest
  exact ⟨rfl, rfl, rfl⟩

theorem cut_at_last {p : Char → Prop} {a b x y : List Char} {c d : Char} (hx : Without p x)
    (hy : Without p y) (hc : p c) (hd : p d) (h : a ++ c :: x = b ++ d :: y) :
    a = b ∧ c = d ∧ x = y := by
  have hreverse : x.reverse ++ c :: a.reverse = y.reverse ++ d :: b.reverse := by
    simpa using congrArg List.reverse h
  obtain ⟨hxy, hcd, hab⟩ := cut_at (fun e he => hx e (List.mem_reverse.mp he))
    (fun e he => hy e (List.mem_reverse.mp he)) hc hd hreverse
  exact ⟨List.reverse_injective hab, hcd, List.reverse_injective hxy⟩

theorem cut_chain {R : Char → Char → Prop} {a b x y : List Char} {c : Char}
    (ha : a.IsChain R) (hb : b.IsChain R) (hac : ¬ (a ++ [c]).IsChain R)
    (hbc : ¬ (b ++ [c]).IsChain R) (h : a ++ c :: x = b ++ c :: y) : a = b ∧ x = y := by
  have hstops : ∀ {a x}, a.IsChain R → ¬ (a ++ [c]).IsChain R →
      Stops (List.IsChain R) a (c :: x) := fun {a x} ha hac =>
    ⟨ha, fun c' hc' => by
      rw [List.head?_cons, Option.mem_some] at hc'
      exact hc' ▸ hac⟩
  obtain ⟨rfl, hrest⟩ := (hstops ha hac).unique (fun _ _ h => h.left_of_append) (hstops hb hbc) h
  exact ⟨rfl, (List.cons.inj hrest).2⟩

/-! ## Pieces with brackets -/

/-- The depth of brackets after a text, given the depth before it. Outside of brackets there may be
no blank and no comma. -/
def depthAfter : Nat → List Char → Option Nat
  | d, [] => some d
  | d, c :: cs =>
    if c = '(' ∨ c = '<' ∨ c = '[' then depthAfter (d + 1) cs
    else if c = ')' ∨ c = '>' ∨ c = ']' then if d = 0 then none else depthAfter (d - 1) cs
    else if d = 0 ∧ (c = ' ' ∨ c = ',') then none
    else depthAfter d cs

theorem depthAfter_append (d : Nat) (a b : List Char) :
    depthAfter d (a ++ b) = (depthAfter d a).bind fun d' => depthAfter d' b := by
  induction a generalizing d with
  | nil => rfl
  | cons c a ih =>
    simp only [List.cons_append, depthAfter]
    split_ifs <;> simp [ih]

/-- The brackets of the text match, and outside of them there is no blank and no comma. -/
def Balanced (a : List Char) : Prop := ∀ d, depthAfter d a = some d

theorem Balanced.append {a b : List Char} (ha : Balanced a) (hb : Balanced b) :
    Balanced (a ++ b) := fun d => by rw [depthAfter_append, ha, Option.bind_some, hb]

/-- What ends a piece. -/
def EndsPiece (c : Char) : Prop := c = ' ' ∨ c = ',' ∨ c = ')'

theorem cut_balanced {a b x y : List Char} (ha : Balanced a) (hb : Balanced b) {c d : Char}
    (hc : EndsPiece c) (hd : EndsPiece d) (h : a ++ c :: x = b ++ d :: y) :
    a = b ∧ c = d ∧ x = y := by
  have hclosed : PrefixClosed fun a => depthAfter 0 a ≠ none := by
    intro a b h hnone
    simp only [depthAfter_append, hnone] at h
    exact h rfl
  have hstops : ∀ {a x c}, Balanced a → EndsPiece c →
      Stops (fun a => depthAfter 0 a ≠ none) a (c :: x) := by
    intro a x c ha hc
    refine ⟨by simp [ha 0], fun c' hc' hnone => hnone ?_⟩
    obtain rfl : c = c' := by simpa using hc'
    rw [depthAfter_append, ha, Option.bind_some]
    rcases hc with rfl | rfl | rfl <;> simp [depthAfter]
  obtain ⟨rfl, hrest⟩ := (hstops ha hc).unique hclosed (hstops hb hd) h
  obtain ⟨rfl, rfl⟩ := List.cons.inj hrest
  exact ⟨rfl, rfl, rfl⟩

/-! ## Lists of pieces -/

/-- A piece that begins like a word. -/
structure Solid (a : List Char) : Prop where
  balanced : Balanced a
  head : ∃ c ∈ a.head?, c ≠ '~' ∧ c ≠ '='

theorem Solid.append {a b : List Char} (ha : Solid a) (hb : Balanced b) : Solid (a ++ b) where
  balanced := ha.balanced.append hb
  head := by
    obtain ⟨c, hc, hne⟩ := ha.head
    cases a with
    | nil => cases hc
    | cons c' a => exact ⟨c, hc, hne⟩

/-- What follows the pieces of a parameter: its end, or its default value. -/
def EndsWords : List Char → Prop
  | c :: d :: _ => c = ',' ∨ c = ')' ∨ c = ' ' ∧ d = '='
  | [c] => c = ',' ∨ c = ')'
  | [] => False

theorem EndsWords.endsPiece {x : List Char} (h : EndsWords x) :
    ∃ c y, x = c :: y ∧ EndsPiece c := by
  cases x with
  | nil => cases h
  | cons c x =>
    cases x with
    | nil => exact ⟨c, [], rfl, Or.inr h⟩
    | cons d x =>
      rcases h with h | h | ⟨h, -⟩
      · exact ⟨c, _, rfl, Or.inr (Or.inl h)⟩
      · exact ⟨c, _, rfl, Or.inr (Or.inr h)⟩
      · exact ⟨c, _, rfl, Or.inl h⟩

theorem not_endsWords {a x : List Char} (ha : Solid a) : ¬ EndsWords (' ' :: (a ++ x)) := by
  obtain ⟨c, hc, -, hne⟩ := ha.head
  cases a with
  | nil => cases hc
  | cons c' a =>
    obtain rfl : c' = c := by simpa using hc
    simp [EndsWords, hne]

theorem cut_words {as bs : List (List Char)} {a b x y : List Char} (ha : ∀ w ∈ a :: as, Solid w)
    (hb : ∀ w ∈ b :: bs, Solid w) (hx : EndsWords x) (hy : EndsWords y)
    (h : [' '].intercalate (a :: as) ++ x = [' '].intercalate (b :: bs) ++ y) :
    a :: as = b :: bs ∧ x = y := by
  simp only [intercalate_cons_eq, List.singleton_append, List.append_assoc] at h
  have hends : ∀ (ws : List (List Char)) {x}, EndsWords x →
      ∃ c z, ws.flatMap (fun w => ' ' :: w) ++ x = c :: z ∧ EndsPiece c := by
    intro ws x hx
    cases ws with
    | nil => exact hx.endsPiece
    | cons w ws => exact ⟨' ', _, rfl, Or.inl rfl⟩
  induction as generalizing a b bs with
  | nil =>
    obtain ⟨c, z, hz, hc⟩ := hends [] hx
    obtain ⟨d, z', hz', hd⟩ := hends bs hy
    rw [hz, hz'] at h
    obtain ⟨rfl, rfl, rfl⟩ :=
      cut_balanced (ha a (by simp)).balanced (hb b (by simp)).balanced hc hd h
    cases bs with
    | nil => exact ⟨rfl, hz.trans hz'.symm⟩
    | cons b' bs =>
      have hx' : x = ' ' :: (b' ++ (bs.flatMap (fun w => ' ' :: w) ++ y)) := by
        simpa using hz.trans hz'.symm
      exact absurd (hx' ▸ hx) (not_endsWords (hb b' (by simp)))
  | cons a' as ih =>
    obtain ⟨c, z, hz, hc⟩ := hends (a' :: as) hx
    obtain ⟨d, z', hz', hd⟩ := hends bs hy
    rw [hz, hz'] at h
    obtain ⟨rfl, rfl, rfl⟩ :=
      cut_balanced (ha a (by simp)).balanced (hb b (by simp)).balanced hc hd h
    have heq := hz.trans hz'.symm
    cases bs with
    | nil =>
      have hy' : y = ' ' :: (a' ++ (as.flatMap (fun w => ' ' :: w) ++ x)) := by
        simpa using heq.symm
      exact absurd (hy' ▸ hy) (not_endsWords (ha a' (by simp)))
    | cons b' bs =>
      simp only [List.flatMap_cons, List.cons_append, List.cons.injEq, true_and,
        List.append_assoc] at heq
      obtain ⟨hlist, rfl⟩ := ih (fun w hw => ha w (List.mem_cons_of_mem _ hw))
        (fun w hw => hb w (List.mem_cons_of_mem _ hw)) heq
      exact ⟨by rw [hlist], rfl⟩

end Facade.Text
