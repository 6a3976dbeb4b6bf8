import Facade.Proofs.Syntax.Written
import Facade.Proofs.Text.Dividing

/-!
# The texts of types

What holds of the texts of all types that can be written.

* `TypeText`: the texts of types;
* **`TypeText.induction`**: what holds of names and signs, and passes to what is made of them, holds
  of the texts of types;
* `TypeText.solid`, `TypeText.apart`: their brackets match, and no colon in them ends a mark.
-/

namespace Facade

open Text Scan

theorem TypeSyntax.texts_eq_map (ts : List TypeSyntax) :
    TypeSyntax.texts ts = ts.map TypeSyntax.text := by
  induction ts with
  | nil => rfl
  | cons t ts ih => rw [TypeSyntax.texts, ih, List.map_cons]

theorem NamePart.texts_eq_map (ps : List NamePart) : NamePart.texts ps = ps.map NamePart.text := by
  induction ps with
  | nil => rfl
  | cons p ps ih => rw [NamePart.texts, ih, List.map_cons]

theorem TypeSyntax.elementTexts_eq_map (es : List (TypeSyntax × Option String)) :
    TypeSyntax.elementTexts es = es.map fun e => withElementName e.1.text e.2 := by
  induction es with
  | nil => rfl
  | cons e es ih => rw [TypeSyntax.elementTexts, ih, List.map_cons]

/-- The text of a type that can be written. -/
def TypeText (text : String) : Prop := ∃ u : TypeSyntax, u.IsWritten ∧ u.text = text

/-- The items of a list between brackets: types, perhaps named. -/
def TypeItem (Q : List Char → Prop) (i : List Char) : Prop :=
  Q i ∨ ∃ a n, Q a ∧ IsName n ∧ i = a ++ ' ' :: n

/-- What passes from the parts of the text of a type to the text. -/
structure TypeTextClosed (Q : List Char → Prop) : Prop where
  append : ∀ {a b}, Q a → Q b → Q (a ++ b)
  name : ∀ {n}, IsName n → Q n
  sign : ∀ m ∈ ["global::", ".", "?", "*"], Q m.toList
  group : ∀ b ∈ [('<', '>'), ('(', ')')], ∀ items : List (List Char), items ≠ [] →
    (∀ i ∈ items, TypeItem Q i) → Q (b.1 :: ([',', ' '].intercalate items ++ [b.2]))
  array : ∀ n, Q ('[' :: (List.replicate n ',' ++ [']']))

namespace TypeTextClosed

variable {Q : List Char → Prop} (hQ : TypeTextClosed Q)

include hQ

theorem withArguments {n : String} (hn : Named n) {as : List String}
    (has : ∀ a ∈ as, Q a.toList) : Q (withArguments n as).toList := by
  unfold Facade.withArguments
  split_ifs with hempty
  · exact hQ.name hn
  · have hgroup := hQ.group ('<', '>') (by simp) (as.map String.toList)
      (by simpa using hempty) (fun i hi => by
        obtain ⟨a, ha, rfl⟩ := List.mem_map.mp hi
        exact Or.inl (has a ha))
    simpa [commaSeparated, String.toList_intercalate] using hQ.append (hQ.name hn) hgroup

theorem dotted {parts : List String} (hne : parts ≠ []) (h : ∀ q ∈ parts, Q q.toList) :
    Q (".".intercalate parts).toList := by
  induction parts with
  | nil => exact absurd rfl hne
  | cons q parts ih =>
    cases parts with
    | nil => simpa using h q (by simp)
    | cons r parts =>
      have hrest := ih (by simp) fun s hs => h s (List.mem_cons_of_mem _ hs)
      have hsign : Q ['.'] := hQ.sign "." (by simp)
      simpa [String.intercalate_cons_cons] using
        hQ.append (h q (by simp)) (hQ.append hsign hrest)

omit hQ in
theorem element {a : String} (ha : Q a.toList) {n : Option String} (hn : ∀ m ∈ n, Named m) :
    TypeItem Q (withElementName a n).toList := by
  cases n with
  | none => exact Or.inl ha
  | some n =>
    simp only [withElementName]
    split_ifs
    · exact Or.inl ha
    · exact Or.inr ⟨a.toList, n.toList, ha, hn n rfl, by simp⟩

theorem part {q : NamePart} (hname : Named q.name) (h : ∀ a ∈ q.arguments, Q a.text.toList) :
    Q q.text.toList := by
  cases q with
  | mk n as =>
    rw [NamePart.text, TypeSyntax.texts_eq_map]
    refine hQ.withArguments hname fun a ha => ?_
    obtain ⟨u, hu, rfl⟩ := List.mem_map.mp ha
    exact h u hu

/-- **What holds of names and signs, and passes to what is made of them, holds of the texts of
types.** -/
theorem text {t : TypeSyntax} (ht : t.IsWritten) : Q t.text.toList := by
  induction ht with
  | @predefined k hk =>
    refine hQ.name ?_
    have hnames : ∀ w ∈ predefinedWords, IsName w.toList := by
      intro w hw
      refine Or.inl ?_
      revert w
      decide
    exact hnames k hk
  | @named isGlobal parts hne hnames _ ih =>
    have hparts : Q (".".intercalate (parts.map NamePart.text)).toList :=
      hQ.dotted (by simpa using hne) fun s hs => by
        obtain ⟨q, hq, rfl⟩ := List.mem_map.mp hs
        exact hQ.part (hnames q hq) (ih q hq)
    rw [TypeSyntax.text, NamePart.texts_eq_map, String.toList_append]
    cases isGlobal with
    | true => exact hQ.append (hQ.sign "global::" (by simp)) hparts
    | false => simpa using hparts
  | array _ _ ih =>
    rw [TypeSyntax.text, String.toList_append]
    exact hQ.append ih (by simpa [arrayBrackets] using hQ.array _)
  | nullable _ ih =>
    rw [TypeSyntax.text, String.toList_append]
    exact hQ.append ih (hQ.sign "?" (by simp))
  | pointer _ ih =>
    rw [TypeSyntax.text, String.toList_append]
    exact hQ.append ih (hQ.sign "*" (by simp))
  | @tuple es hlength _ hnames ih =>
    have hgroup := hQ.group ('(', ')') (by simp)
      (es.map fun e => (withElementName e.1.text e.2).toList)
      (by rw [ne_eq, List.map_eq_nil_iff]; rintro rfl; simp at hlength) (fun i hi => by
        obtain ⟨e, he, rfl⟩ := List.mem_map.mp hi
        exact element (ih e he) (hnames e he))
    simpa [TypeSyntax.text, TypeSyntax.elementTexts_eq_map, commaSeparated,
      String.toList_intercalate, List.map_map, Function.comp_def] using hgroup

end TypeTextClosed

/-! ## Matching brackets -/

theorem Scan.IsName.ne_nil {n : List Char} (h : IsName n) : n ≠ [] := by
  rcases h with h | ⟨plain, rfl, -⟩
  · rintro rfl
    exact h
  · simp

/-- The signs that count for the depth of brackets. -/
def bracketSigns : List Char := ['(', '<', '[', ')', '>', ']', ' ', ',']

theorem balanced_of_signs {a : List Char} (h : Without (· ∈ bracketSigns) a) : Balanced a := by
  intro d
  induction a generalizing d with
  | nil => rfl
  | cons c a ih =>
    have hc := h c List.mem_cons_self
    simp only [bracketSigns, List.mem_cons, List.not_mem_nil, or_false, not_or] at hc
    rw [depthAfter, if_neg (by tauto), if_neg (by tauto), if_neg (by tauto)]
    exact ih (fun c hc => h c (List.mem_cons_of_mem _ hc)) d

theorem Scan.IsName.solid {n : List Char} (h : IsName n) : Solid n where
  balanced := balanced_of_signs fun c hc hmem => by
    have hsigns : Without (fun d => isWord d = true ∨ d = '@') bracketSigns := by decide
    exact hsigns c hmem (h.mem c hc)
  head := by
    obtain ⟨c, n, rfl⟩ := List.exists_cons_of_ne_nil h.ne_nil
    exact ⟨c, rfl, h.ne_of_mem (by simp) (by decide) (by decide),
      h.ne_of_mem (by simp) (by decide) (by decide)⟩

theorem solid_sign : ∀ m ∈ ["global::", ".", "?", "*"], Solid m.toList := by
  have hbalanced : ∀ m ∈ ["global::", ".", "?", "*"], Without (· ∈ bracketSigns) m.toList := by
    decide
  intro m hm
  refine ⟨balanced_of_signs (hbalanced m hm), ?_⟩
  simp only [List.mem_cons, List.not_mem_nil, or_false] at hm
  rcases hm with rfl | rfl | rfl | rfl
  · exact ⟨'g', rfl, by decide⟩
  · exact ⟨'.', rfl, by decide⟩
  · exact ⟨'?', rfl, by decide⟩
  · exact ⟨'*', rfl, by decide⟩

theorem depthAfter_item {d : Nat} {i : List Char} (h : TypeItem Solid i) :
    depthAfter (d + 1) i = some (d + 1) := by
  rcases h with h | ⟨a, n, ha, hn, rfl⟩
  · exact h.balanced _
  · rw [depthAfter_append, ha.balanced, Option.bind_some]
    simpa [depthAfter] using hn.solid.balanced (d + 1)

theorem depthAfter_items {d : Nat} {items : List (List Char)} (h : ∀ i ∈ items, TypeItem Solid i) :
    depthAfter (d + 1) ([',', ' '].intercalate items) = some (d + 1) := by
  induction items with
  | nil => rfl
  | cons i items ih =>
    have hi := depthAfter_item (d := d) (h i (by simp))
    have hrest := ih fun j hj => h j (List.mem_cons_of_mem _ hj)
    cases items with
    | nil => simpa using hi
    | cons j items =>
      rw [List.intercalate_cons_cons, List.append_assoc, depthAfter_append, hi, Option.bind_some]
      simpa [depthAfter] using hrest

theorem typeTextClosed_solid : TypeTextClosed Solid where
  append ha hb := ha.append hb.balanced
  name h := h.solid
  sign := solid_sign
  group b hb items _ hitems := by
    have hopen : ∀ d, depthAfter d [b.1] = some (d + 1) ∧ depthAfter (d + 1) [b.2] = some d := by
      intro d
      simp only [List.mem_cons, List.not_mem_nil, or_false] at hb
      rcases hb with rfl | rfl <;> exact ⟨rfl, rfl⟩
    refine ⟨fun d => ?_, b.1, rfl, ?_⟩
    · rw [← List.singleton_append, depthAfter_append, (hopen d).1, Option.bind_some,
        depthAfter_append, depthAfter_items hitems, Option.bind_some, (hopen d).2]
    · clear hopen
      revert b
      decide
  array n := by
    have hcommas : ∀ d, depthAfter (d + 1) (List.replicate n ',') = some (d + 1) := by
      intro d
      induction n with
      | zero => rfl
      | succ n ih => simpa [List.replicate_succ, depthAfter] using ih
    refine ⟨fun d => ?_, '[', rfl, by decide⟩
    rw [← List.singleton_append, depthAfter_append]
    change (depthAfter (d + 1) _) = _
    rw [depthAfter_append, hcommas, Option.bind_some]
    rfl

/-- **The brackets of the text of a type match.** -/
theorem TypeText.solid {s : String} (h : TypeText s) : Solid s.toList := by
  obtain ⟨t, ht, rfl⟩ := h
  exact typeTextClosed_solid.text ht

/-! ## The characters of the texts of types -/

theorem typeTextClosed_of_append {Q : List Char → Prop}
    (happend : ∀ {a b}, Q a → Q b → Q (a ++ b)) (hname : ∀ {n}, IsName n → Q n)
    (hsign : ∀ m ∈ ["global::", ".", "?", "*", "<", ">", "(", ")", ",", " ", "[", "]"],
      Q m.toList) : TypeTextClosed Q := by
  have hitem : ∀ {i}, TypeItem Q i → Q i := by
    rintro i (h | ⟨a, n, ha, hn, rfl⟩)
    · exact h
    · exact happend ha (happend (a := [' ']) (hsign " " (by simp)) (hname hn))
  have hitems : ∀ items : List (List Char), items ≠ [] → (∀ i ∈ items, TypeItem Q i) →
      Q ([',', ' '].intercalate items) := by
    intro items hne h
    induction items with
    | nil => exact absurd rfl hne
    | cons i items ih =>
      cases items with
      | nil => simpa using hitem (h i (by simp))
      | cons j items =>
        have hrest := ih (by simp) fun k hk => h k (List.mem_cons_of_mem _ hk)
        have hcomma : Q ([','] ++ [' ']) := happend (hsign "," (by simp)) (hsign " " (by simp))
        rw [List.intercalate_cons_cons]
        exact happend (happend (hitem (h i (by simp))) hcomma) hrest
  refine ⟨happend, hname, fun m hm => hsign m ?_, fun b hb items hne h => ?_, fun n => ?_⟩
  · revert m
    decide
  · have hbrackets : Q [b.1] ∧ Q [b.2] := by
      simp only [List.mem_cons, List.not_mem_nil, or_false] at hb
      rcases hb with rfl | rfl
      · exact ⟨hsign "<" (by simp), hsign ">" (by simp)⟩
      · exact ⟨hsign "(" (by simp), hsign ")" (by simp)⟩
    exact happend hbrackets.1 (happend (hitems items hne h) hbrackets.2)
  · have hcommas : Q (List.replicate n ',' ++ [']']) := by
      induction n with
      | zero => exact hsign "]" (by simp)
      | succ n ih => exact happend (a := [',']) (hsign "," (by simp)) ih
    exact happend (a := ['[']) (hsign "[" (by simp)) hcommas

theorem TypeText.no_null {s : String} (h : TypeText s) : Without (· = '\x00') s.toList := by
  obtain ⟨t, ht, rfl⟩ := h
  refine (typeTextClosed_of_append (fun ha hb => without_append.mpr ⟨ha, hb⟩)
    (fun hn c hc => hn.ne_of_mem hc (by decide) (by decide)) ?_).text ht
  decide

/-- No colon of the text follows an `S`, nor begins the text. -/
def Apart (a : List Char) : Prop :=
  a.IsChain (fun c d => d = ':' → c ≠ 'S') ∧ ∀ c ∈ a.head?, c ≠ ':'

theorem Apart.append {a b : List Char} (ha : Apart a) (hb : Apart b) : Apart (a ++ b) := by
  refine ⟨List.isChain_append.mpr ⟨ha.1, hb.1, fun c _ d hd hcolon => absurd hcolon (hb.2 d hd)⟩,
    fun c hc => ?_⟩
  cases a with
  | nil => exact hb.2 c hc
  | cons d a => exact ha.2 c hc

theorem apart_of_no_colon {a : List Char} (h : ':' ∉ a) : Apart a := by
  refine ⟨?_, fun c hc => ?_⟩
  · induction a with
    | nil => exact .nil
    | cons c a ih =>
      refine List.isChain_cons.mpr ⟨fun d hd hcolon => ?_, ih fun hmem => h (by simp [hmem])⟩
      exact absurd (hcolon ▸ List.mem_cons_of_mem c (List.mem_of_mem_head? hd)) h
  · rintro rfl
    exact h (List.mem_of_mem_head? hc)

theorem TypeText.apart {s : String} (h : TypeText s) : Apart s.toList := by
  obtain ⟨t, ht, rfl⟩ := h
  refine (typeTextClosed_of_append (Q := Apart) Apart.append (fun hn => apart_of_no_colon fun hc => ?_)
    fun m hm => ?_).text ht
  · exact hn.ne_of_mem hc (by decide) (by decide) rfl
  · by_cases hglobal : m = "global::"
    · subst hglobal
      refine ⟨by decide, fun c hc => ?_⟩
      cases hc
      decide
    · refine apart_of_no_colon ?_
      revert m
      decide

theorem Named.without {n : String} (h : Named n) {c : Char} (hc : isWord c = false)
    (hne : c ≠ '@') : Without (· = c) n.toList := fun _ hd => IsName.ne_of_mem h hd hc hne

theorem dotted_without {n : String} (h : Dotted n) {c : Char} (hc : isWord c = false)
    (hat : c ≠ '@') (hdot : c ≠ '.') : Without (· = c) n.toList := by
  obtain ⟨names, -, hnames, rfl⟩ := h
  rw [String.toList_intercalate]
  refine without_intercalate ?_ fun a ha => ?_
  · rintro d hd rfl
    exact hdot (by simpa using hd)
  · obtain ⟨b, hb, rfl⟩ := List.mem_map.mp ha
    exact (hnames b hb).without hc hat

theorem without_withArguments {n : String} {as : List String} {c : Char}
    (hn : Without (· = c) n.toList) (has : ∀ a ∈ as, Without (· = c) a.toList)
    (hc : c ∉ ['<', ',', ' ', '>']) : Without (· = c) (withArguments n as).toList := by
  unfold withArguments
  split_ifs
  · exact hn
  · have hsigns : ∀ u : List Char, Without (· ∉ ['<', ',', ' ', '>']) u → Without (· = c) u :=
      fun u hu d hd heq => hu d hd (heq ▸ hc)
    have hitems : Without (· = c) ([',', ' '].intercalate (as.map String.toList)) :=
      without_intercalate (hsigns _ (by decide)) fun a ha => by
        obtain ⟨b, hb, rfl⟩ := List.mem_map.mp ha
        exact has b hb
    simp only [commaSeparated, String.toList_append, String.toList_intercalate, without_append]
    exact ⟨⟨⟨hn, hsigns _ (by decide)⟩, hitems⟩, hsigns _ (by decide)⟩

end Facade
