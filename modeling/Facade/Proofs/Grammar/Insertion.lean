import Facade.Proofs.Grammar.Filler
import Facade.Proofs.Grammar.Lookahead

/-!
# Tokens in front of more layout

A token is read knowing what follows it. If more layout is put further on, it is read as it was, unless it is a
chunk with an open item, or its end is not told by what follows it.

* `Scan.BeginsBlank`, **`Scan.matchTerminal_insert`**: names, words, operators and signs before white space;
* `Scan.attributeColon_insert`, `Scan.scanIgnored_insert_none`: ignored text does not begin anew;
* `Scan.IsQuoteless`, **`Scan.scanItem_insert`**, `Scan.matchChunk_insert`: the items of chunks;
* `Ahead.Extended`, `Ahead.IsApart`: tokens that end before a place;
* **`Scan.Lexes.insert`**: the token that comes next is the same with filler at a place behind it.
-/

namespace Facade

open Scan Text

namespace Scan

variable {A : TerminalSet} {u v w y z : List Char}

/-! ## Terminals -/

theorem not_isWord_of_isLayout {c : Char} (h : isLayout c = true) : isWord c = false := by
  simp only [isLayout, Bool.or_eq_true, beq_iff_eq] at h
  rcases h with (((rfl | rfl) | rfl) | rfl) | rfl <;> decide

/-- The text begins with white space. -/
def BeginsBlank (z : List Char) : Prop := ∃ c z', z = c :: z' ∧ isLayout c = true

theorem EndsWord.insert (h : EndsWord (u ++ y)) (hz : BeginsBlank z) : EndsWord (u ++ z) := by
  cases u with
  | nil =>
    obtain ⟨c, z', rfl, hc⟩ := hz
    exact endsWord_cons (not_isWord_of_isLayout hc) z'
  | cons d u => exact h

theorem scanExact_append (es r : List Char) : scanExact es (es ++ r) = some (es, r) := by
  induction es with
  | nil => rfl
  | cons e es ih => simp [scanExact, ih, prepend]

theorem exists_of_scanExact_insert {es : List Char} (hes : (es.all fun c => !isLayout c) = true)
    (hz : BeginsBlank z) {s : Split} (h : scanExact es (v ++ z) = some s) : ∃ u, v = es ++ u := by
  obtain ⟨c, z', rfl, hc⟩ := hz
  have htext := (scanExact_eq_some h).2
  rcases List.append_eq_append_iff.mp htext with ⟨bs, hes', hbs⟩ | ⟨u, hv, -⟩
  · cases bs with
    | nil => exact ⟨[], by simpa using hes'.symm⟩
    | cons b bs =>
      obtain rfl : c = b := (List.cons.inj hbs).1
      have hno := List.all_eq_true.mp hes c (by simp [hes'])
      rw [hc] at hno
      cases hno
  · exact ⟨u, hv⟩

theorem scanExact_insert_none {es : List Char} (hes : (es.all fun c => !isLayout c) = true)
    (hz : BeginsBlank z) (h : scanExact es (v ++ y) = none) : scanExact es (v ++ z) = none := by
  cases hs : scanExact es (v ++ z) with
  | none => rfl
  | some s =>
    obtain ⟨u, rfl⟩ := exists_of_scanExact_insert hes hz hs
    rw [List.append_assoc, scanExact_append] at h
    cases h

theorem scanWholeWord_eq_some {word : String} {cs : List Char} {s : Split} :
    scanWholeWord word cs = some s ↔
      scanExact word.toList cs = some s ∧ s.2.head?.any isWord = false := by
  simp [scanWholeWord, Option.filter_eq_some_iff]

theorem scanWholeWord_insert_none {o : String} (ho : (o.toList.all fun c => !isLayout c) = true)
    (hz : BeginsBlank z) (hv : v ≠ o.toList) (h : scanWholeWord o (v ++ y) = none) :
    scanWholeWord o (v ++ z) = none := by
  cases hs : scanWholeWord o (v ++ z) with
  | none => rfl
  | some s =>
    obtain ⟨hexact, hend⟩ := scanWholeWord_eq_some.mp hs
    obtain ⟨u, rfl⟩ := exists_of_scanExact_insert ho hz hexact
    rw [List.append_assoc, scanExact_append, Option.some.injEq] at hexact
    subst hexact
    cases u with
    | nil => simp at hv
    | cons d u =>
      have hsome : scanWholeWord o (o.toList ++ d :: u ++ y) = some (o.toList, d :: u ++ y) :=
        scanWholeWord_eq_some.mpr ⟨by rw [List.append_assoc, scanExact_append], hend⟩
      rw [h] at hsome
      cases hsome

theorem noLayout_operators : (∀ o ∈ longOperators, (o.toList.all fun c => !isLayout c) = true) ∧
    ∀ o ∈ wordOperators, (o.toList.all fun c => !isLayout c) = true := by
  decide

theorem longOperators_insert_none (hz : BeginsBlank z)
    (h : longOperators.findSome? (fun o => scanExact o.toList (v ++ y)) = none) :
    longOperators.findSome? (fun o => scanExact o.toList (v ++ z)) = none :=
  List.findSome?_eq_none_iff.mpr fun o ho =>
    scanExact_insert_none (noLayout_operators.1 o ho) hz (List.findSome?_eq_none_iff.mp h o ho)

theorem wordOperators_insert_none (hz : BeginsBlank z) (hv : ∀ o ∈ wordOperators, v ≠ o.toList)
    (h : wordOperators.findSome? (fun o => scanWholeWord o (v ++ y)) = none) :
    wordOperators.findSome? (fun o => scanWholeWord o (v ++ z)) = none :=
  List.findSome?_eq_none_iff.mpr fun o ho =>
    scanWholeWord_insert_none (noLayout_operators.2 o ho) hz (hv o ho)
      (List.findSome?_eq_none_iff.mp h o ho)

theorem scanOperator_insert (hz : BeginsBlank z) (h : scanOperator (w ++ u ++ y) = some (w, u ++ y)) :
    scanOperator (w ++ u ++ z) = some (w, u ++ z) := by
  have happend : ∀ {es r : List Char}, scanExact es (w ++ u ++ y) = some (w, r) →
      scanExact es (w ++ u ++ z) = some (w, u ++ z) := by
    intro es r hs
    obtain rfl : w = es := (scanExact_eq_some hs).1
    rw [List.append_assoc, scanExact_append]
  unfold scanOperator at h ⊢
  rw [Option.orElse_eq_some, Option.orElse_eq_some] at h ⊢
  rcases h with h | ⟨hlong, h⟩
  · exact Or.inl (findSome?_eq_of h
      (fun o ho hnone => scanExact_insert_none (noLayout_operators.1 o ho) hz hnone)
      fun o _ hs => happend hs)
  refine Or.inr ⟨longOperators_insert_none hz hlong, ?_⟩
  rcases h with h | ⟨hwords, h⟩
  · have hapart : ∀ o ∈ wordOperators, ∀ o' ∈ wordOperators, o'.toList.isPrefixOf o.toList →
        o' = o := by
      decide
    obtain ⟨o', ho', hfound⟩ := List.exists_of_findSome?_eq_some h
    have htaken : o'.toList = w := ((scanExact_eq_some (scanWholeWord_eq_some.mp hfound).1).1).symm
    refine Or.inl (findSome?_eq_of h (fun o ho hnone => ?_) fun o ho hs => ?_)
    · refine scanWholeWord_insert_none (noLayout_operators.2 o ho) hz (fun heq => ?_) hnone
      obtain rfl := hapart o ho o' ho' (List.isPrefixOf_iff_prefix.mpr ⟨u, by rw [htaken, heq]⟩)
      rw [hfound] at hnone
      cases hnone
    · obtain ⟨hexact, hend⟩ := scanWholeWord_eq_some.mp hs
      refine scanWholeWord_eq_some.mpr ⟨happend hexact, ?_⟩
      have hword : EndsWord (u ++ y) := fun c hc => by simpa [Option.mem_def.mp hc] using hend
      cases hhead : (u ++ z).head? with
      | none => rfl
      | some c => exact hword.insert hz c hhead
  · have hheads : ∀ o ∈ wordOperators, (o.toList.head?.any isShortOperator) = false := by decide
    cases w with
    | nil =>
      split at h
      · split_ifs at h
        cases h
      · cases h
    | cons c w =>
      simp only [List.cons_append] at h ⊢
      split_ifs at h with hc
      cases h
      refine Or.inr ⟨wordOperators_insert_none (v := c :: u) hz (fun o ho heq => ?_) hwords, ?_⟩
      · have hhead := hheads o ho
        rw [← heq] at hhead
        simp [hc] at hhead
      · rw [if_pos hc]
        rfl

theorem scanName_insert_none {c : Char} (hc : c ≠ '@') (h : scanName (c :: v ++ y) = none) :
    scanName (c :: v ++ z) = none := by
  have hplain : ∀ r, scanName (c :: r) = scanPlainName (c :: r) := fun r =>
    scanName.eq_2 _ fun _ heq => hc (List.cons.inj heq).1
  rw [List.cons_append, hplain, scanPlainName] at h ⊢
  split_ifs at h ⊢
  rfl

theorem matchName_insert_none {c : Char} (hc : c ≠ '@')
    (h : matchName A (c :: v ++ y) = none) : matchName A (c :: v ++ z) = none := by
  unfold matchName at h ⊢
  split_ifs at h ⊢
  · rw [Option.map_eq_none_iff] at h ⊢
    exact scanName_insert_none hc h
  · rfl

theorem scanOperator_insert_none (hz : BeginsBlank z) {c : Char}
    (hv : ∀ o ∈ wordOperators, c :: v ≠ o.toList) (h : scanOperator (c :: v ++ y) = none) :
    scanOperator (c :: v ++ z) = none := by
  unfold scanOperator at h ⊢
  rw [Option.orElse_eq_none, Option.orElse_eq_none] at h ⊢
  obtain ⟨hlong, hwords, hshort⟩ := h
  refine ⟨longOperators_insert_none hz hlong, wordOperators_insert_none hz hv hwords, ?_⟩
  simp only [List.cons_append] at hshort ⊢
  split_ifs at hshort ⊢
  rfl

/-- **A token is taken before white space as it was taken before.** -/
theorem matchTerminal_insert (hz : BeginsBlank z) (hw : w ≠ []) {t : Terminal}
    (h : matchTerminal A (w ++ u ++ y) = some (t, w, u ++ y)) :
    matchTerminal A (w ++ u ++ z) = some (t, w, u ++ z) := by
  obtain ⟨c, w, rfl⟩ := List.exists_cons_of_ne_nil hw
  unfold matchTerminal at h ⊢
  rw [Option.orElse_eq_some, Option.orElse_eq_some] at h ⊢
  rcases h with h | ⟨hname, h⟩
  · left
    unfold matchName at h ⊢
    split_ifs at h ⊢ with hadmitted
    obtain ⟨s, hs, heq⟩ := Option.map_eq_some_iff.mp h
    cases heq
    rw [List.append_assoc, scanName_append (isName_of_scan hs)
      ((endsWord_of_scanName hs).insert hz)]
    rfl
  right
  have hspelled : ∀ e ∈ Terminal.spelled, e.2.toList ≠ [] ∧
      (e.2.toList.all fun c => !isLayout c) = true := by decide
  have hstart : c ≠ '@' := by
    rintro rfl
    rcases h with h | ⟨-, h⟩
    · unfold matchOperator at h
      split_ifs at h
      cases h
    · obtain ⟨e, he, h⟩ := List.exists_of_findSome?_eq_some h
      split_ifs at h
      obtain ⟨s, hs, -⟩ := Option.map_eq_some_iff.mp h
      have hsign := head_spelled e he
      rw [head_of_scanExact (hspelled e he).1 hs] at hsign
      simp at hsign
  have hname' : matchName A (c :: w ++ u ++ z) = none := matchName_insert_none hstart hname
  refine ⟨hname', ?_⟩
  rcases h with h | ⟨hoperator, h⟩
  · left
    unfold matchOperator at h ⊢
    split_ifs at h ⊢ with hadmitted
    obtain ⟨s, hs, heq⟩ := Option.map_eq_some_iff.mp h
    cases heq
    rw [scanOperator_insert hz hs]
    rfl
  · right
    obtain ⟨e, he, hfound⟩ := List.exists_of_findSome?_eq_some h
    split_ifs at hfound
    obtain ⟨s, hs, heq⟩ := Option.map_eq_some_iff.mp hfound
    cases heq
    refine ⟨?_, findSome?_eq_of h (fun e he hnone => ?_) fun e he hsome => ?_⟩
    · have hapart : ∀ e ∈ Terminal.spelled, ∀ o ∈ wordOperators,
          ¬ e.2.toList.isPrefixOf o.toList := by decide
      unfold matchOperator at hoperator ⊢
      split_ifs at hoperator ⊢
      · rw [Option.map_eq_none_iff] at hoperator ⊢
        refine scanOperator_insert_none hz (fun o ho heq => hapart e he o ho ?_) hoperator
        rw [← (scanExact_eq_some hs).1, ← heq]
        exact List.isPrefixOf_iff_prefix.mpr (List.prefix_append _ _)
      · rfl
    · split_ifs at hnone ⊢
      · rw [Option.map_eq_none_iff] at hnone ⊢
        exact scanExact_insert_none (hspelled e he).2 hz hnone
      · rfl
    · split_ifs at hsome ⊢ with hadmitted
      obtain ⟨s', hs', heq⟩ := Option.map_eq_some_iff.mp hsome
      obtain ⟨hterminal, rfl⟩ := Prod.mk.inj heq
      rw [List.append_assoc, ← (scanExact_eq_some hs').1, scanExact_append, Option.map_some,
        hterminal]

/-! ## Ignored text -/

variable {T : List Char}

theorem isSome_attributeColon {cs : List Char} : (attributeColon cs).isSome ↔
    ∃ target ∈ ["assembly", "module"], ∃ r, cs.dropWhile isBlank = target.toList ++ r ∧
      (r.dropWhile isBlank).head? = some ':' := by
  have hcolon : ∀ r : List Char, (scanExact [':'] (r.dropWhile isBlank)).isSome ↔
      (r.dropWhile isBlank).head? = some ':' := by
    intro r
    cases r.dropWhile isBlank with
    | nil => simp [scanExact]
    | cons c r =>
      by_cases hc : ':' = c
      · subst hc
        simp [scanExact]
      · simp [scanExact, hc, Ne.symm hc]
  have hmodule : ∀ r : List Char, scanExact "assembly".toList ("module".toList ++ r) = none :=
    fun _ => rfl
  simp only [attributeColon, Option.bind_eq_bind, scanWhile]
  constructor
  · intro h
    obtain ⟨colon, h⟩ := Option.isSome_iff_exists.mp h
    obtain ⟨target, htarget, h⟩ := Option.bind_eq_some_iff.mp h
    have hhead := (hcolon target.2).mp (by rw [h]; rfl)
    rw [Option.orElse_eq_some] at htarget
    rcases htarget with htarget | ⟨-, htarget⟩
    · exact ⟨_, by simp, _, (scanExact_eq_some htarget).2, hhead⟩
    · exact ⟨_, by simp, _, (scanExact_eq_some htarget).2, hhead⟩
  · rintro ⟨target, htarget, r, hr, hhead⟩
    simp only [List.mem_cons, List.not_mem_nil, or_false] at htarget
    rw [hr]
    rcases htarget with rfl | rfl
    · rw [scanExact_append]
      exact (hcolon r).mpr hhead
    · rw [hmodule, scanExact_append]
      exact (hcolon r).mpr hhead

theorem dropWhile_filler (hT : IsFiller T) (y : List Char) :
    (T ++ y).dropWhile isBlank = y.dropWhile isBlank ∨
      ((T ++ y).dropWhile isBlank).head? = some '/' := by
  obtain ⟨gap, T', rfl, hgap, -, hhead⟩ := hT.split
  have hblank : gap.dropWhile isBlank = [] :=
    List.dropWhile_eq_nil_iff.mpr fun c hc => isBlank_of_isLayout (List.all_eq_true.mp hgap c hc)
  rw [List.append_assoc, List.dropWhile_append, hblank]
  rcases hhead with rfl | hhead
  · exact Or.inl rfl
  · obtain ⟨z, rfl⟩ := List.head?_eq_some_iff.mp hhead
    exact Or.inr rfl

/-- What is no attribute of the whole program is none with filler in it. -/
theorem attributeColon_insert (hT : IsFiller T) (hz : BeginsBlank (T ++ y))
    (h : (attributeColon (v ++ (T ++ y))).isSome) : (attributeColon (v ++ y)).isSome := by
  rw [isSome_attributeColon] at h ⊢
  obtain ⟨target, htarget, r, hr, hcolon⟩ := h
  have htargets : ∀ t ∈ ["assembly", "module"], t.toList.head?.all (· != '/') ∧ t.toList ≠ [] ∧
      (t.toList.all fun c => !isLayout c) = true := by decide
  obtain ⟨hslash, hne, hlayout⟩ := htargets target htarget
  refine ⟨target, htarget, ?_⟩
  rw [List.dropWhile_append] at hr ⊢
  split_ifs at hr ⊢ with hv
  · rcases dropWhile_filler hT y with heq | hhead
    · exact ⟨r, heq.symm.trans hr, hcolon⟩
    · rw [hr, List.head?_append_of_ne_nil _ hne] at hhead
      rw [hhead] at hslash
      cases hslash
  · obtain ⟨v', hv'⟩ := exists_of_scanExact_insert hlayout hz
      (s := (target.toList, r)) (by rw [hr, scanExact_append])
    rw [hv', List.append_assoc] at hr ⊢
    obtain rfl := List.append_cancel_left hr
    refine ⟨v' ++ y, rfl, ?_⟩
    rw [List.dropWhile_append] at hcolon ⊢
    split_ifs at hcolon ⊢ with hblank
    · rcases dropWhile_filler hT y with heq | hhead
      · exact heq ▸ hcolon
      · rw [hhead] at hcolon
        cases hcolon
    · cases hrest : v'.dropWhile isBlank with
      | nil => simp [hrest] at hblank
      | cons d rest =>
        rw [hrest] at hcolon
        exact hcolon

/-- Where no ignored text begins there is none with filler further on, unless a comment or an attribute is
open. -/
theorem scanIgnored_insert_none (hT : IsFiller T) (hz : BeginsBlank (T ++ y)) {c : Char}
    (h : scanIgnored (c :: v ++ y) = none) (hslash : c = '/' → v.head? ≠ some '*')
    (hbracket : c = '[' → ']' ∈ v ++ y) : scanIgnored (c :: v ++ (T ++ y)) = none := by
  by_cases hc : c = '['
  · subst hc
    have hcolon : attributeColon (v ++ y) = none := by
      cases hs : attributeColon (v ++ y) with
      | none => rfl
      | some colon =>
        have hsome := isSome_scanProgramAttribute.mpr
          ⟨colon, hs, mem_of_attributeColon hs (hbracket rfl)⟩
        rw [show scanProgramAttribute ('[' :: (v ++ y)) = none from h] at hsome
        cases hsome
    cases hs : scanIgnored ('[' :: v ++ (T ++ y)) with
    | none => rfl
    | some s =>
      obtain ⟨colon, hsome, -⟩ := isSome_scanProgramAttribute.mp
        (show (scanProgramAttribute ('[' :: (v ++ (T ++ y)))).isSome from by
          rw [show scanProgramAttribute ('[' :: (v ++ (T ++ y))) = some s from hs]
          rfl)
      have hsome := attributeColon_insert hT hz (by rw [hsome]; rfl)
      rw [hcolon] at hsome
      cases hsome
  by_cases hsign : c = '/'
  · subst hsign
    have hopen : (v ++ (T ++ y)).head? ≠ some '/' ∧ (v ++ (T ++ y)).head? ≠ some '*' := by
      cases v with
      | nil =>
        obtain ⟨d, z, hz, hd⟩ := hz
        have hne : ∀ {e : Char}, isLayout e = false → d ≠ e := by
          rintro e he rfl
          rw [hd] at he
          cases he
        simp [hz, hne (e := '/') (by decide), hne (e := '*') (by decide)]
      | cons d v =>
        refine ⟨fun hd => ?_, fun hd => hslash rfl hd⟩
        obtain rfl : d = '/' := by simpa using hd
        cases h
    rw [List.cons_append]
    generalize v ++ (T ++ y) = r at hopen
    cases r with
    | nil => rfl
    | cons d r =>
      have hd : d ≠ '/' ∧ d ≠ '*' := by simpa using hopen
      simp [scanIgnored, hd.1, hd.2, isLayout]
  · have hsharp : c ≠ '#' := by
      rintro rfl
      cases h
    simp only [List.cons_append, scanIgnored, hsign, imp_false, false_imp_iff, implies_true] at h ⊢
    split_ifs at h ⊢
    rfl

/-! ## Items of chunks -/

variable {x y' : List Char}

theorem IsFiller.getLast?_ne (hT : IsFiller T) : T.getLast? ≠ some '\\' := by
  induction hT with
  | nil => simp
  | @blank c T hc _ ih =>
    rw [List.getLast?_cons]
    cases hlast : T.getLast? with
    | none =>
      have hne : c ≠ '\\' := by
        rintro rfl
        exact absurd hc (by decide)
      simpa using hne
    | some d => simpa [hlast] using ih
  | @line inner T _ _ ih =>
    simp only [List.getLast?_cons, List.getLast?_append]
    cases hlast : T.getLast? with
    | none => simp
    | some d => simpa [hlast] using ih
  | @comment inner T _ _ ih =>
    simp only [List.getLast?_cons, List.getLast?_append]
    cases hlast : T.getLast? with
    | none => simp
    | some d => simpa [hlast] using ih

theorem scanLiteralEnd_pad {q : Char} (h : scanLiteralEnd q y = none) : {x : List Char} → q ∉ x →
    x.getLast? ≠ some '\\' → scanLiteralEnd q (x ++ y) = none
  | [], _, _ => h
  | [c], hq, hlast => by
    have hc : c ≠ '\\' := by simpa using hlast
    have hne : c ≠ q := by
      rintro rfl
      simp at hq
    simp [scanLiteralEnd, hc, hne, h]
  | c :: d :: x, hq, hlast => by
    obtain ⟨hc, hd, hx⟩ : q ≠ c ∧ q ≠ d ∧ q ∉ x := by simpa using hq
    have hrest : (d :: x).getLast? ≠ some '\\' := by simpa using hlast
    by_cases hescape : c = '\\'
    · subst hescape
      have hx' : x.getLast? ≠ some '\\' := by
        intro hlast'
        rw [List.getLast?_cons, hlast'] at hrest
        exact hrest rfl
      simp only [List.cons_append, scanLiteralEnd, scanLiteralEnd_pad h hx hx', Option.map_none, ite_self]
    · have hnext := scanLiteralEnd_pad h (x := d :: x) (by simp [hd, hx]) hrest
      rw [List.cons_append] at hnext
      simp [scanLiteralEnd, hescape, Ne.symm hc, hnext]

theorem scanLiteralEnd_insert_none {q : Char}
    (hy : scanLiteralEnd q y = none → scanLiteralEnd q y' = none) : {x : List Char} →
    x.getLast? ≠ some '\\' → scanLiteralEnd q (x ++ y) = none → scanLiteralEnd q (x ++ y') = none
  | [], _, h => hy h
  | [c], hlast, h => by
    have hc : c ≠ '\\' := by simpa using hlast
    simp only [List.cons_append, List.nil_append, scanLiteralEnd, hc, imp_false, false_imp_iff,
      implies_true] at h ⊢
    split_ifs at h ⊢ with hq hline
    · rfl
    · rw [Option.map_eq_none_iff] at h ⊢
      exact hy h
  | c :: d :: x, hlast, h => by
    have hrest : (d :: x).getLast? ≠ some '\\' := by simpa using hlast
    by_cases hescape : c = '\\'
    · subst hescape
      have hx' : x.getLast? ≠ some '\\' := by
        intro hlast'
        rw [List.getLast?_cons, hlast'] at hrest
        exact hrest rfl
      simp only [List.cons_append, scanLiteralEnd] at h ⊢
      split_ifs at h ⊢ with hd
      · rfl
      · rw [Option.map_eq_none_iff] at h ⊢
        exact scanLiteralEnd_insert_none hy hx' h
    · simp only [List.cons_append, scanLiteralEnd, hescape, imp_false, false_imp_iff,
        implies_true] at h ⊢
      split_ifs at h ⊢ with hq hline
      · rfl
      · rw [Option.map_eq_none_iff] at h ⊢
        exact scanLiteralEnd_insert_none hy (x := d :: x) hrest h

theorem scanVerbatimEnd_eq_none {cs : List Char} (h : '"' ∉ cs) : scanVerbatimEnd cs = none := by
  induction cs with
  | nil => rfl
  | cons c cs ih =>
    obtain ⟨hc, hcs⟩ : '"' ≠ c ∧ '"' ∉ cs := by simpa using h
    simp [scanVerbatimEnd, Ne.symm hc, ih hcs]

theorem scanVerbatimEnd_insert {cs : List Char} {s : Split} (h : scanVerbatimEnd cs = some s)
    {u u' : List Char} (hu : s.2 = '"' :: u) (hu' : '"' ∉ u') :
    scanVerbatimEnd (s.1 ++ '"' :: u') = some (s.1, '"' :: u') := by
  fun_induction scanVerbatimEnd cs generalizing s with
  | case1 => cases h
  | case2 rest s' hs' ih =>
    cases h
    simp [prepend, scanVerbatimEnd, ih hs' hu]
  | case3 rest hnone =>
    cases h
    simp [scanVerbatimEnd, scanVerbatimEnd_eq_none hu']
  | case4 rest hpair =>
    cases h
    exact absurd hu (hpair u)
  | case5 c rest hpair hquote ih =>
    obtain ⟨s', hs', rfl⟩ := Option.map_eq_some_iff.mp h
    have hc : c ≠ '"' := hquote
    simp [prepend, scanVerbatimEnd, hc, ih hs' hu]

/-- Nothing in the text opens or closes a literal. -/
def IsQuoteless (T : List Char) : Prop := '"' ∉ T ∧ '\'' ∉ T

/-- **An item is read with filler further on**, unless it is open and the filler holds a quote. -/
theorem scanItem_insert {k : Chunk} {cs : List Char} {s : Split} (hT : IsFiller T)
    (hitem : scanItem k cs = some s) (hx : s.2 = x ++ y) (hne : x ≠ [])
    (hlast : x.getLast? ≠ some '\\') (hclosed : IsQuoteless T ∨ ¬ IsOpen y.length s) :
    scanItem k (s.1 ++ (x ++ (T ++ y))) = some (s.1, x ++ (T ++ y)) := by
  obtain ⟨c, x', rfl⟩ := List.exists_cons_of_ne_nil hne
  have hhead : s.2.head? = (c :: x' ++ (T ++ y)).head? := by
    rw [hx]
    rfl
  have hlone : ∀ q, s.1 = [q] → q = '"' ∨ q = '\'' →
      scanLiteralEnd q (c :: x' ++ (T ++ y)) = none := by
    intro q htaken hq
    rcases hclosed with hquoteless | hclosed
    · have hopen := (lone_of_scanItem hq (by rw [hitem, ← htaken])).1
      rw [hx] at hopen
      refine scanLiteralEnd_insert_none (fun hy => scanLiteralEnd_pad hy ?_ hT.getLast?_ne) hlast hopen
      rcases hq with rfl | rfl
      · exact hquoteless.1
      · exact hquoteless.2
    · exact lone_of_not_isOpen hitem hx hclosed _ htaken hq
  by_cases hdouble : ['@', '"'] <+: s.1 ∧ s.2.head? = some '"'
  · -- the last doubled quote is taken apart, and no quote follows it
    obtain ⟨hverbatim, hquote⟩ := hdouble
    have hquoteless := hclosed.resolve_right fun h => h (Or.inr ⟨hverbatim, hquote⟩)
    obtain rfl : c = '"' := by simpa [hx] using hquote
    obtain ⟨w, hw⟩ := hverbatim
    have hcs : cs = '@' :: '"' :: (w ++ s.2) := by
      rw [divides_scanItem _ _ _ hitem, ← hw]
      rfl
    rw [hcs] at hitem
    obtain ⟨s', hs', rfl⟩ := Option.map_eq_some_iff.mp hitem
    have hnone : '"' ∉ x' ++ y := not_mem_of_scanVerbatimEnd hs' hx
    have hnone' : '"' ∉ x' ++ (T ++ y) := by
      simp only [List.mem_append, not_or] at hnone ⊢
      exact ⟨hnone.1, hquoteless.1, hnone.2⟩
    simp only [prepend, List.cons_append, List.nil_append, scanItem,
      scanVerbatimEnd_insert hs' hx hnone', Option.map_some]
  · exact scanItem_append hitem hlone (fun hverbatim hquote => hdouble ⟨hverbatim, hquote⟩)
      (Or.inl hhead)

/-- **A chunk is read with filler further on** if it ends where it stops, unless one of its items is open and
the filler holds a quote. -/
theorem matchChunk_insert {t : Terminal} {k : Chunk} (hk : (t, k) ∈ chunkTerminals) (hT : IsFiller T)
    (h : matchChunk A (w ++ (u ++ y)) = some (t, w, u ++ y)) (hne : u ≠ [])
    (hlast : u.getLast? ≠ some '\\')
    (hends : scanItem k (u ++ y) = none → (u ++ y).head?.any k.stops = true)
    (hclosed : ∀ s ∈ itemsOf k (w ++ (u ++ y)) (w ++ (u ++ y)), IsQuoteless T ∨ ¬ IsOpen y.length s) :
    matchChunk A (w ++ (u ++ (T ++ y))) = some (t, w, u ++ (T ++ y)) := by
  obtain ⟨e, he, hfound⟩ := List.exists_of_findSome?_eq_some h
  split_ifs at hfound with hadmitted
  obtain ⟨s, hscan, heq⟩ := Option.map_eq_some_iff.mp hfound
  obtain ⟨hterminal, rfl⟩ := Prod.mk.inj heq
  obtain rfl := chunkTerminals_unique e he _ hk hterminal
  obtain ⟨c, u, rfl⟩ := List.exists_cons_of_ne_nil hne
  have hstop : scanItem k (c :: u ++ (T ++ y)) = none := by
    have hend := hends (scanChunk_eq_some_iff.mp hscan).2.1.ends
    exact scanItem_of_stops (by simpa using hend) _
  refine matchChunk_exchange h hk (fun s hs x hx => ?_) hstop
  obtain ⟨cs', hitem⟩ := exists_of_mem_itemsOf hs
  rw [← List.append_assoc] at hx
  rw [← List.append_assoc x]
  refine scanItem_insert hT hitem hx (by simp) ?_ (hclosed s hs)
  rwa [List.getLast?_append_of_ne_nil _ hne]

end Scan

/-! ## Tokens -/

/-- A token before the text `y`, and the same with `z` in the place of `y`. -/
def Ahead.Extended (y z : List Char) (a a' : Ahead) : Prop :=
  ∃ u, a.rest = u ++ y ∧ a' = ⟨a.terminal, a.word, u ++ z⟩

/-- The token is one, and no chunk that ends where `y` begins. -/
structure Ahead.IsApart (y : List Char) (a : Ahead) : Prop where
  proper : a ≠ .atEnd
  chunk : ∀ k, (a.terminal, k) ∈ chunkTerminals → a.rest ≠ y

namespace Scan

variable {A : TerminalSet} {T v y : List Char}

theorem Lexes.word_ne_nil {cs : List Char} {a : Ahead} (h : Lexes A cs a) (ha : a ≠ .atEnd) :
    a.word ≠ [] := by
  induction h with
  | @chunk cs _ _ h => exact Cursor.Stands.ne_nil (c := ⟨cs, .start⟩) (Or.inl h)
  | skip _ _ _ ih => exact ih ha
  | @terminal cs _ _ hchunk hignored h =>
    exact Cursor.Stands.ne_nil (c := ⟨cs, .start⟩) (Or.inr ⟨hchunk, hignored, h⟩)
  | atEnd => exact absurd rfl ha

/-- **A token that ends before a place is read with filler inserted there**, if what follows it ends it
and, if it is a chunk, none of its items is open or the filler holds no quote. -/
theorem Lexes.insert {cs : List Char} {a a' : Ahead} (h : Lexes A cs a) (hcs : cs = v ++ y)
    (hT : IsFiller T) (hz : BeginsBlank (T ++ y)) (hlast : v.getLast? ≠ some '\\')
    (ha : a.Extended y (T ++ y) a') (hapart : a.IsApart y) (hfirm : a.IsFirm)
    (hshut : IsQuoteless T ∨ a.IsShut y.length) : Lexes A (v ++ (T ++ y)) a' := by
  obtain ⟨u, hu, rfl⟩ := ha
  induction h generalizing v with
  | @chunk cs t s h =>
    obtain ⟨w, r⟩ := s
    obtain rfl : r = u ++ y := hu
    obtain ⟨⟨t', k⟩, hk, hfound⟩ := List.exists_of_findSome?_eq_some h
    obtain rfl : t' = t := by
      split_ifs at hfound
      obtain ⟨_, -, heq⟩ := Option.map_eq_some_iff.mp hfound
      exact congrArg Prod.fst heq
    have hdivides : cs = w ++ (u ++ y) := divides_matchChunk h
    have hv : v = w ++ u := by
      rw [hcs, ← List.append_assoc] at hdivides
      exact List.append_cancel_right hdivides
    have hne : u ≠ [] := fun hnil => hapart.chunk k hk (by rw [hnil]; rfl)
    subst hdivides
    rw [hv, List.getLast?_append_of_ne_nil _ hne] at hlast
    rw [hv, List.append_assoc]
    exact .chunk (matchChunk_insert hk hT h hne hlast (hfirm.chunk k hk) fun s hs =>
      hshut.imp_right fun h => h k hk s hs)
  | @skip cs s a hchunk hignored hlexes ih =>
    obtain ⟨gap, hgap⟩ := hlexes.divides
    have hword := hlexes.word_ne_nil hapart.proper
    have hrest : s.2 = gap ++ (a.word ++ u) ++ y := by rw [hgap, hu]; simp
    generalize hv' : gap ++ (a.word ++ u) = v' at hrest
    have hne : v' ≠ [] := by simp [← hv', hword]
    have hv : v = s.1 ++ v' := by
      have hsplit := divides_scanIgnored _ _ hignored
      rw [hcs, hrest, ← List.append_assoc] at hsplit
      exact List.append_cancel_right hsplit
    obtain ⟨c, v', rfl⟩ := List.exists_cons_of_ne_nil hne
    have hlast' : (c :: v').getLast? ≠ some '\\' := by
      rwa [hv, List.getLast?_append_of_ne_nil _ hne] at hlast
    have hignored' := scanIgnored_append hignored (r := c :: v' ++ (T ++ y)) (by rw [hrest]; rfl)
    have hchunk' : matchChunk A (v ++ (T ++ y)) = none := by
      refine matchChunk_of_head ?_ (fun k hk => stops_of_scanIgnored hignored hk) hchunk
      rw [hcs, hv]
      cases s.1 <;> rfl
    refine .skip (s := (s.1, c :: v' ++ (T ++ y))) hchunk' ?_ (ih hrest hlast' hapart hfirm hshut hu)
    rw [hv, List.append_assoc]
    exact hignored'
  | @terminal cs t s hchunk hignored hterminal =>
    obtain ⟨w, r⟩ := s
    obtain rfl : r = u ++ y := hu
    have hw : w ≠ [] := Cursor.Stands.ne_nil (c := ⟨cs, .start⟩) (Or.inr ⟨hchunk, hignored, hterminal⟩)
    have hdivides : cs = w ++ u ++ y := by
      rw [List.append_assoc]
      exact divides_matchTerminal hterminal
    have hv : v = w ++ u := by
      rw [hcs] at hdivides
      exact List.append_cancel_right hdivides
    subst hv
    clear hcs
    subst hdivides
    have hterminal' := matchTerminal_insert hz hw hterminal
    obtain ⟨c, w, rfl⟩ := List.exists_cons_of_ne_nil hw
    have hslash : c = '/' → (w ++ u ++ y).head? ≠ some '*' := by
      rintro rfl
      have hslash : (t, '/' :: w, u ++ y) = (.operatorSymbol, ['/'], w ++ u ++ y) :=
        eq_of_matchTerminal_slash hterminal
      simp only [Prod.mk.injEq] at hslash
      rw [← hslash.2.2]
      exact hfirm.slash hslash.1 hslash.2.1
    refine .terminal (s := (c :: w, u ++ (T ++ y))) ?_ ?_ hterminal'
    · have hhead : (c :: w ++ u ++ y).head? = (c :: w ++ (u ++ (T ++ y))).head? := rfl
      exact matchChunk_of_head hhead (fun k hk => stops_of_matchTerminal hterminal hslash hk) hchunk
    · refine scanIgnored_insert_none (v := w ++ u) hT hz hignored (fun hc hstar => hslash hc ?_) fun hc => ?_
      · obtain ⟨z, hz⟩ := List.head?_eq_some_iff.mp hstar
        rw [hz]
        rfl
      · subst hc
        have hclosed := hfirm.bracket (terminal_of_matchTerminal_bracket hterminal)
        rw [List.append_assoc]
        exact List.mem_append_right _ hclosed
  | atEnd => exact absurd rfl hapart.proper

end Scan

end Facade
