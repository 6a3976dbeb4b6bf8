import Facade.Proofs.Grammar.Ahead
import Facade.Proofs.Grammar.Opaque

/-!
# Text before a brace

A brace ends everything that is read before it, unless that is a literal or a comment. So what is read
before a brace is read there whatever stands behind the brace.

* `Scan.StopsAtBrace`, `Scan.matchTerminal_brace`: names, words, operators and signs;
* `Scan.scanIgnored_append`, `Scan.scanProgramAttribute_brace`: ignored text;
* `Scan.Items`, `Scan.scanChunk_eq_some_iff`: a chunk is made of all items that can be read;
* `Scan.Lexes.gap`, `Scan.lexes_stop`: white space and signs where chunks are admitted;
* `Scan.IsOpen`: items that other text behind the brace could make longer;
* `Scan.Items.exchange`: chunks with other text behind them;
* **`Scan.scanItem_brace`**: the other items are read as they are.
-/

namespace Facade.Scan

open Text

/-! ## Terminals -/

/-- The split of a text that goes on. -/
def followed (y : List Char) (s : Split) : Split := (s.1, s.2 ++ y)

/-- What is taken before a brace, or with it, is taken whatever stands behind it. -/
def StopsAtBrace {α : Type} (scan : List Char → Option (α × List Char)) : Prop :=
  ∀ v y, scan (v ++ '\x7b' :: y) = (scan (v ++ ['\x7b'])).map fun s => (s.1, s.2 ++ y)

theorem stopsAtBrace_scanExact {es : List Char} (hes : '\x7b' ∉ es.dropLast) :
    StopsAtBrace (scanExact es) := by
  intro v y
  induction es generalizing v with
  | nil => simp [scanExact]
  | cons e es ih =>
    have hrest : '\x7b' ∉ es.dropLast := by
      cases es with
      | nil => simp
      | cons d es => exact fun h => hes (List.mem_cons_of_mem _ h)
    cases v with
    | nil =>
      by_cases he : e = '\x7b'
      · cases es with
        | nil => simp [scanExact, he, prepend]
        | cons d es => exact absurd (by simp [he]) hes
      · simp [scanExact, he]
    | cons c v =>
      simp only [List.cons_append, scanExact]
      split_ifs
      · rw [ih hrest]
        cases scanExact es (v ++ ['\x7b']) <;> rfl
      · rfl

theorem scanWhile_brace {p : Char → Bool} (hp : p '\x7b' = false) (v y : List Char) :
    scanWhile p (v ++ '\x7b' :: y) = followed y (scanWhile p (v ++ ['\x7b'])) := by
  induction v with
  | nil => simp [scanWhile, followed, hp]
  | cons c v ih =>
    simp only [scanWhile, followed, Prod.mk.injEq, List.cons_append, List.takeWhile_cons,
      List.dropWhile_cons] at ih ⊢
    split_ifs
    · exact ⟨by rw [ih.1], ih.2⟩
    · simp

theorem stopsAtBrace_scanPlainName : StopsAtBrace scanPlainName := by
  intro v y
  cases v with
  | nil => rfl
  | cons c v =>
    simp only [List.cons_append, scanPlainName, scanWhile_brace (p := isWord) (by decide) v y]
    split_ifs <;> rfl

theorem stopsAtBrace_scanName : StopsAtBrace scanName := by
  intro v y
  cases v with
  | nil => rfl
  | cons c v =>
    by_cases hc : c = '@'
    · subst hc
      simp only [List.cons_append, scanName, stopsAtBrace_scanPlainName v y]
      cases scanPlainName (v ++ ['\x7b']) <;> rfl
    · have hplain : ∀ w, scanName (c :: w) = scanPlainName (c :: w) := fun w =>
        scanName.eq_2 _ fun _ h => hc (List.cons.inj h).1
      rw [List.cons_append, List.cons_append, hplain, hplain]
      exact stopsAtBrace_scanPlainName (c :: v) y

theorem stopsAtBrace_scanWholeWord {word : String} (hword : '\x7b' ∉ word.toList) :
    StopsAtBrace (scanWholeWord word) := by
  intro v y
  have hexact := stopsAtBrace_scanExact (fun h => hword (List.dropLast_subset _ h)) v y
  unfold scanWholeWord
  rw [hexact]
  cases hs : scanExact word.toList (v ++ ['\x7b']) with
  | none => rfl
  | some s =>
    have hrest : s.2 ≠ [] := by
      obtain ⟨htaken, htext⟩ := scanExact_eq_some hs
      intro hnil
      rw [hnil, List.append_nil] at htext
      exact hword (htext ▸ by simp)
    obtain ⟨c, u, hu⟩ := List.exists_cons_of_ne_nil hrest
    simp only [Option.map_some, Option.filter_some, hu, List.cons_append, List.head?_cons]
    cases hc : isWord c <;> simp [hu, hc]

theorem findSome?_stops {α β : Type} {f g : α → Option β} {m : β → β} {L : List α}
    (h : ∀ e ∈ L, f e = (g e).map m) : L.findSome? f = (L.findSome? g).map m := by
  induction L with
  | nil => rfl
  | cons e L ih =>
    rw [List.findSome?_cons, List.findSome?_cons, h e List.mem_cons_self]
    cases g e with
    | some s => rfl
    | none => exact ih fun e he => h e (List.mem_cons_of_mem _ he)

theorem map_orElse {α β : Type} (f : α → β) (o p : Option α) :
    (o <|> p).map f = (o.map f <|> p.map f) := by
  cases o <;> rfl

theorem stopsAtBrace_scanOperator : StopsAtBrace scanOperator := by
  intro v y
  have hlong : ∀ o ∈ longOperators, '\x7b' ∉ o.toList.dropLast := by decide
  have hwords : ∀ o ∈ wordOperators, '\x7b' ∉ o.toList := by decide
  unfold scanOperator
  rw [findSome?_stops fun o ho => stopsAtBrace_scanExact (hlong o ho) v y,
    findSome?_stops fun o ho => stopsAtBrace_scanWholeWord (hwords o ho) v y, map_orElse, map_orElse]
  cases v with
  | nil => rfl
  | cons c v =>
    cases hc : isShortOperator c <;> simp [hc]

/-- **What is read before a brace, or is one, is read there whatever stands behind it.** -/
theorem matchTerminal_brace (A : TerminalSet) (v y : List Char) :
    matchTerminal A (v ++ '\x7b' :: y) =
      (matchTerminal A (v ++ ['\x7b'])).map fun e => (e.1, followed y e.2) := by
  have hname : matchName A (v ++ '\x7b' :: y) =
      (matchName A (v ++ ['\x7b'])).map fun e => (e.1, followed y e.2) := by
    unfold matchName
    rw [stopsAtBrace_scanName]
    split_ifs
    · cases scanName (v ++ ['\x7b']) <;> rfl
    · rfl
  have hoperator : matchOperator A (v ++ '\x7b' :: y) =
      (matchOperator A (v ++ ['\x7b'])).map fun e => (e.1, followed y e.2) := by
    unfold matchOperator
    rw [stopsAtBrace_scanOperator]
    split_ifs
    · cases scanOperator (v ++ ['\x7b']) <;> rfl
    · rfl
  have hspelled : matchSpelled A (v ++ '\x7b' :: y) =
      (matchSpelled A (v ++ ['\x7b'])).map fun e => (e.1, followed y e.2) := by
    have hno : ∀ e ∈ Terminal.spelled, '\x7b' ∉ e.2.toList.dropLast := by decide
    refine findSome?_stops fun e he => ?_
    rw [stopsAtBrace_scanExact (hno e he)]
    split_ifs
    · cases scanExact e.2.toList (v ++ ['\x7b']) <;> rfl
    · rfl
  rw [matchTerminal, hname, hoperator, hspelled, ← map_orElse, ← map_orElse]
  rfl

/-! ## Ignored text -/

theorem scanWhile_append_head {p : Char → Bool} {cs r : List Char}
    (hr : (scanWhile p cs).2.head? = r.head?) :
    scanWhile p ((scanWhile p cs).1 ++ r) = ((scanWhile p cs).1, r) := by
  have hall : ∀ d ∈ (scanWhile p cs).1, p d = true :=
    fun d hd => List.all_eq_true.mp List.all_takeWhile d hd
  cases r with
  | nil =>
    rw [List.append_nil, scanWhile, List.takeWhile_eq_self_iff.mpr hall,
      List.dropWhile_eq_nil_iff.mpr hall]
  | cons c r =>
    have hnot := List.head?_dropWhile_not p cs
    rw [show cs.dropWhile p = (scanWhile p cs).2 from rfl, hr] at hnot
    exact scanWhile_append_cons hall (by simpa using hnot)

/-- Ignored text is taken before every text that begins with the same character. -/
theorem scanIgnored_append {cs : List Char} {s : Split} (h : scanIgnored cs = some s)
    {r : List Char} (hr : s.2.head? = r.head?) : scanIgnored (s.1 ++ r) = some (s.1, r) := by
  unfold scanIgnored at h
  split at h
  · cases h
    have hwhile := scanWhile_append_head (p := (· != '\n')) hr
    simp only [prepend, List.cons_append, List.nil_append, scanIgnored, hwhile]
  · next cs =>
    obtain ⟨u, hu, hscan⟩ := settled_scanCommentEnd.prepend h r
    rw [hu]
    simp only [List.cons_append, List.nil_append, scanIgnored, hscan, Option.map_some, prepend]
  · cases h
    have hwhile := scanWhile_append_head (p := (· != '\n')) hr
    simp only [prepend, List.cons_append, List.nil_append, scanIgnored, hwhile]
  · next cs =>
    have hsettled := settled_scanProgramAttribute _ _ h r
    obtain ⟨u, hu⟩ : ∃ u, s.1 = '[' :: u := by
      simp only [scanProgramAttribute, Option.bind_eq_bind, Option.bind_eq_some_iff,
        Option.some.injEq] at h
      obtain ⟨_, _, _, _, _, _, rfl⟩ := h
      exact ⟨_, rfl⟩
    rw [hu, List.cons_append] at hsettled ⊢
    exact hsettled
  · next c cs hslash hstar hsharp hbracket =>
    split_ifs at h with hc
    cases h
    have hwhile := scanWhile_append_head (p := isLayout) hr
    have hne : ∀ d : Char, isLayout d = false → c ≠ d := by
      rintro d hd rfl
      rw [hd] at hc
      cases hc
    simp only [prepend, List.cons_append, List.nil_append]
    rw [scanIgnored]
    · rw [if_pos hc, hwhile]
      rfl
    · exact fun _ h => absurd h (hne '/' (by decide))
    · exact fun _ h => absurd h (hne '/' (by decide))
    · exact hne '#' (by decide)
    · exact hne '[' (by decide)
  · cases h

/-- What stands between the opening of an attribute of the whole program and its colon. -/
def attributeColon (cs : List Char) : Option Split := do
  let blank := (scanWhile isBlank cs).2
  let target ← scanExact "assembly".toList blank <|> scanExact "module".toList blank
  scanExact [':'] (scanWhile isBlank target.2).2

theorem isSome_scanProgramAttribute {cs : List Char} :
    (scanProgramAttribute ('[' :: cs)).isSome ↔
      ∃ colon, attributeColon cs = some colon ∧ ']' ∈ colon.2 := by
  have hclose : ∀ u : List Char, (scanExact [']'] (scanWhile (· != ']') u).2).isSome ↔ ']' ∈ u := by
    intro u
    induction u with
    | nil => simp [scanWhile, scanExact]
    | cons c u ih =>
      by_cases hc : c = ']'
      · simp [scanWhile, scanExact, hc]
      · simpa [scanWhile, hc, Ne.symm hc] using ih
  simp only [scanProgramAttribute, attributeColon, Option.bind_eq_bind]
  cases (scanExact "assembly".toList (scanWhile isBlank cs).2 <|>
      scanExact "module".toList (scanWhile isBlank cs).2) with
  | none => simp
  | some target =>
    simp only [Option.bind_some]
    cases scanExact [':'] (scanWhile isBlank target.2).2 with
    | none => simp
    | some colon =>
      have hbody := hclose colon.2
      cases hs : scanExact [']'] (scanWhile (· != ']') colon.2).2 with
      | none => simpa [hs] using hbody
      | some close => simpa [hs] using hbody

theorem ends_of_append {es r z : List Char} (hes : '\x7b' ∉ es) (h : z ++ ['\x7b'] = es ++ r) :
    ∃ z', r = z' ++ ['\x7b'] := by
  rcases List.append_eq_append_iff.mp h with ⟨bs, hes', hbs⟩ | ⟨z', -, hr⟩
  · cases bs with
    | nil => exact ⟨[], hbs.symm⟩
    | cons b bs =>
      obtain rfl : '\x7b' = b := (List.cons.inj hbs).1
      exact absurd (by simp [hes']) hes
  · exact ⟨z', hr⟩

theorem scanWhile_ends {p : Char → Bool} (hp : p '\x7b' = false) (v : List Char) :
    ∃ z, (scanWhile p (v ++ ['\x7b'])).2 = z ++ ['\x7b'] := by
  refine ends_of_append (fun h => ?_) (scanWhile_append p (v ++ ['\x7b'])).symm
  rw [List.all_eq_true.mp List.all_takeWhile _ h] at hp
  cases hp

theorem stopsAtBrace_attributeColon : StopsAtBrace attributeColon := by
  intro v y
  have hassembly : '\x7b' ∉ "assembly".toList := by decide
  have hmodule : '\x7b' ∉ "module".toList := by decide
  obtain ⟨z, hz⟩ := scanWhile_ends (p := isBlank) (by decide) v
  have hblank : (scanWhile isBlank (v ++ '\x7b' :: y)).2 = z ++ '\x7b' :: y := by
    rw [scanWhile_brace (by decide), followed, hz, List.append_assoc]
    rfl
  have htarget : ∀ r, (scanExact "assembly".toList (z ++ '\x7b' :: r) <|>
      scanExact "module".toList (z ++ '\x7b' :: r)) =
        (scanExact "assembly".toList (z ++ ['\x7b']) <|>
          scanExact "module".toList (z ++ ['\x7b'])).map fun s => (s.1, s.2 ++ r) := by
    intro r
    rw [stopsAtBrace_scanExact (fun h => hassembly (List.dropLast_subset _ h)),
      stopsAtBrace_scanExact (fun h => hmodule (List.dropLast_subset _ h)), map_orElse]
  simp only [attributeColon, Option.bind_eq_bind, hblank, hz, htarget y]
  cases hs : (scanExact "assembly".toList (z ++ ['\x7b']) <|>
      scanExact "module".toList (z ++ ['\x7b'])) with
  | none => rfl
  | some target =>
    obtain ⟨u, hu⟩ : ∃ u, target.2 = u ++ ['\x7b'] := by
      rw [Option.orElse_eq_some] at hs
      rcases hs with hs | ⟨-, hs⟩
      · exact ends_of_append hassembly (scanExact_eq_some hs).2
      · exact ends_of_append hmodule (scanExact_eq_some hs).2
    obtain ⟨w, hw⟩ := scanWhile_ends (p := isBlank) (by decide) u
    have hcolon : StopsAtBrace (scanExact [':']) := stopsAtBrace_scanExact (by decide)
    simp only [Option.map_some, Option.bind_some, hu, List.append_assoc, List.singleton_append]
    rw [scanWhile_brace (by decide), followed, hw, List.append_assoc]
    exact hcolon w y

theorem mem_of_attributeColon {cs : List Char} {colon : Split} (h : attributeColon cs = some colon)
    (hclosed : ']' ∈ cs) : ']' ∈ colon.2 := by
  have hpast : ∀ {u : List Char}, ']' ∈ u → ']' ∈ (scanWhile isBlank u).2 := by
    intro u hu
    rw [← scanWhile_append isBlank u, List.mem_append] at hu
    refine hu.resolve_left fun hu => ?_
    have hblank : isBlank ']' = true := List.all_eq_true.mp List.all_takeWhile _ hu
    exact absurd hblank (by decide)
  have htaken : ∀ {es u : List Char} {s : Split}, ']' ∉ es → scanExact es u = some s → ']' ∈ u →
      ']' ∈ s.2 := by
    intro es u s hes hs hu
    rw [(scanExact_eq_some hs).2, List.mem_append] at hu
    exact hu.resolve_left hes
  simp only [attributeColon, Option.bind_eq_bind, Option.bind_eq_some_iff] at h
  obtain ⟨target, htarget, hcolon⟩ := h
  refine htaken (by decide) hcolon (hpast ?_)
  rw [Option.orElse_eq_some] at htarget
  rcases htarget with htarget | ⟨-, htarget⟩
  · exact htaken (by decide) htarget (hpast hclosed)
  · exact htaken (by decide) htarget (hpast hclosed)

/-- What is no attribute of the whole program before a brace, though a bracket closes it, is none
whatever stands behind the brace. -/
theorem scanProgramAttribute_brace {v y y' : List Char}
    (h : scanProgramAttribute ('[' :: (v ++ '\x7b' :: y)) = none)
    (hclosed : ']' ∈ v ++ '\x7b' :: y) :
    scanProgramAttribute ('[' :: (v ++ '\x7b' :: y')) = none := by
  have hcolon : attributeColon (v ++ '\x7b' :: y) = none := by
    cases hs : attributeColon (v ++ '\x7b' :: y) with
    | none => rfl
    | some colon =>
      have hsome := isSome_scanProgramAttribute.mpr ⟨colon, hs, mem_of_attributeColon hs hclosed⟩
      rw [h] at hsome
      cases hsome
  rw [stopsAtBrace_attributeColon, Option.map_eq_none_iff] at hcolon
  cases hs : scanProgramAttribute ('[' :: (v ++ '\x7b' :: y')) with
  | none => rfl
  | some s =>
    obtain ⟨colon, hsome, -⟩ := isSome_scanProgramAttribute.mp (by rw [hs]; rfl)
    rw [stopsAtBrace_attributeColon, hcolon] at hsome
    cases hsome

/-! ## Items of chunks -/

theorem stops_quotes (k : Chunk) : k.stops '/' = false ∧ k.stops '@' = false ∧
    k.stops '"' = false ∧ k.stops '\'' = false := by
  cases k <;> exact ⟨rfl, rfl, rfl, rfl⟩

theorem scanItem_of_stops {k : Chunk} {c : Char} (hc : k.stops c = true) (y : List Char) :
    scanItem k (c :: y) = none := by
  obtain ⟨hslash, hat, hdouble, hsingle⟩ := stops_quotes k
  have hne : ∀ {d : Char}, k.stops d = false → c ≠ d := by
    rintro d hd rfl
    rw [hd] at hc
    cases hc
  rw [scanItem_cons (fun h => absurd h (hne hslash)) (fun h => absurd h (hne hat)), if_neg, if_pos hc]
  exact fun h => h.elim (hne hdouble) (hne hsingle)

/-- Where no item begins stands an open comment or literal, or a sign at which the chunk stops. -/
theorem scanItem_eq_none {k : Chunk} {c : Char} {y : List Char} (h : scanItem k (c :: y) = none) :
    c = '/' ∧ y.head? = some '*' ∨ c = '@' ∧ y.head? = some '"' ∨ c = '"' ∨ c = '\'' ∨
      k.stops c = true := by
  unfold scanItem at h
  split at h
  · cases h
  · next heq =>
    obtain ⟨rfl, rfl⟩ := List.cons.inj heq
    exact Or.inl ⟨rfl, rfl⟩
  · next heq =>
    obtain ⟨rfl, rfl⟩ := List.cons.inj heq
    exact Or.inr (Or.inl ⟨rfl, rfl⟩)
  · next heq =>
    obtain ⟨rfl, rfl⟩ := List.cons.inj heq
    by_cases hquote : c = '"' ∨ c = '\''
    · tauto
    · rw [if_neg hquote] at h
      split_ifs at h with hstops
      tauto
  · next heq => cases heq

/-- A chunk from here on: all items that can be read. -/
inductive Items (k : Chunk) : List Char → Split → Prop
  | nil {cs} : scanItem k cs = none → Items k cs ([], cs)
  | cons {cs s rest} : scanItem k cs = some s → Items k s.2 rest → Items k cs (prepend s.1 rest)

theorem length_of_scanItem {k : Chunk} {cs : List Char} {s : Split} (h : scanItem k cs = some s) :
    s.2.length < cs.length := by
  have hlength := congrArg List.length (divides_scanItem _ _ _ h)
  have hpos := List.length_pos_iff.mpr (ne_nil_of_scanItem h)
  rw [List.length_append] at hlength
  omega

theorem items_scanItems (k : Chunk) {bound cs : List Char} (h : cs.length ≤ bound.length) :
    Items k cs (scanItems k bound cs) := by
  induction bound generalizing cs with
  | nil =>
    obtain rfl := List.length_eq_zero_iff.mp (Nat.le_zero.mp h)
    exact .nil rfl
  | cons b bound ih =>
    unfold scanItems
    cases hs : scanItem k cs with
    | some s =>
      have hshorter := length_of_scanItem hs
      rw [List.length_cons] at h
      exact .cons hs (ih (by omega))
    | none => exact .nil hs

theorem Items.divides {k : Chunk} {cs : List Char} {s : Split} (h : Items k cs s) :
    cs = s.1 ++ s.2 := by
  induction h with
  | nil => rfl
  | cons hitem _ ih => rw [divides_scanItem _ _ _ hitem, ih, prepend, List.append_assoc]

theorem Items.unique {k : Chunk} {cs : List Char} {s s' : Split} (h : Items k cs s)
    (h' : Items k cs s') : s = s' := by
  induction h generalizing s' with
  | nil hnone =>
    cases h' with
    | nil => rfl
    | cons hsome _ => rw [hnone] at hsome; cases hsome
  | cons hitem _ ih =>
    cases h' with
    | nil hnone => rw [hitem] at hnone; cases hnone
    | cons hitem' hrest =>
      rw [hitem] at hitem'
      cases hitem'
      rw [ih hrest]

theorem Items.ne_nil {k : Chunk} {cs : List Char} {s s' : Split} (h : Items k cs s)
    (hs : scanItem k cs = some s') : s.1 ≠ [] := by
  cases h with
  | nil hnone => rw [hnone] at hs; cases hs
  | cons hitem _ => simp [prepend, ne_nil_of_scanItem hitem]

theorem Items.ends {k : Chunk} {cs : List Char} {s : Split} (h : Items k cs s) :
    scanItem k s.2 = none := by
  induction h with
  | nil hnone => exact hnone
  | cons _ _ ih => exact ih

/-- A chunk is made of all items that can be read, and begins with no white space. -/
theorem scanChunk_eq_some_iff {k : Chunk} {cs : List Char} {s : Split} :
    scanChunk k cs = some s ↔ cs.head?.any isBlank = false ∧ Items k cs s ∧ s.1 ≠ [] := by
  have hitems := items_scanItems k (Nat.le_refl cs.length)
  unfold scanChunk
  constructor
  · intro h
    dsimp only at h
    split_ifs at h with hblank hempty
    obtain rfl := Option.some.inj h
    exact ⟨by simpa using hblank, hitems, by simpa using hempty⟩
  · rintro ⟨hblank, hs, hne⟩
    obtain rfl := hs.unique hitems
    simp [hblank, hne]

theorem scanChunk_eq_none_iff {k : Chunk} {cs : List Char} :
    scanChunk k cs = none ↔ cs.head?.any isBlank = true ∨ scanItem k cs = none := by
  have hitems := items_scanItems k (Nat.le_refl cs.length)
  constructor
  · intro h
    by_contra hnot
    rw [not_or, Bool.not_eq_true, ← ne_eq, Option.ne_none_iff_exists'] at hnot
    obtain ⟨hblank, s, hs⟩ := hnot
    rw [scanChunk_eq_some_iff.mpr ⟨hblank, hitems, hitems.ne_nil hs⟩] at h
    cases h
  · intro h
    cases hs : scanChunk k cs with
    | none => rfl
    | some s =>
      obtain ⟨hblank, hitems, hne⟩ := scanChunk_eq_some_iff.mp hs
      rcases h with h | h
      · rw [hblank] at h
        cases h
      · cases hitems with
        | nil => exact absurd rfl hne
        | cons hitem _ => rw [hitem] at h; cases h

/-! ## Open literals -/

/-- The items of a chunk, each with the text behind it. -/
def itemsOf (k : Chunk) : (bound : List Char) → List Char → List Split
  | [], _ => []
  | _ :: bound, cs =>
    match scanItem k cs with
    | some s => s :: itemsOf k bound s.2
    | none => []

theorem mem_itemsOf {k : Chunk} {bound cs : List Char} (hbound : cs.length ≤ bound.length)
    {s : Split} (h : scanItem k cs = some s) : s ∈ itemsOf k bound cs := by
  cases bound with
  | nil =>
    obtain rfl := List.length_eq_zero_iff.mp (Nat.le_zero.mp hbound)
    cases h
  | cons b bound =>
    unfold itemsOf
    rw [h]
    exact List.mem_cons_self

/-- Other text in the place of the last `left` characters could make the item longer: it is a quote that
opens no literal, with no line feed between it and that place, or a verbatim literal with a quote right
behind it. -/
def IsOpen (left : Nat) (s : Split) : Prop :=
  (s.1 = ['"'] ∨ s.1 = ['\'']) ∧ '\n' ∉ s.2.take (s.2.length - left) ∨
    ['@', '"'] <+: s.1 ∧ s.2.head? = some '"'

instance (left : Nat) (s : Split) : Decidable (IsOpen left s) :=
  inferInstanceAs (Decidable (_ ∨ _))

theorem scanLiteralEnd_line {q : Char} {r r' : List Char} : {u : List Char} → '\n' ∈ u →
    scanLiteralEnd q (u ++ r) = none → scanLiteralEnd q (u ++ r') = none
  | [c], hu, h => by
    obtain rfl : '\n' = c := by simpa using hu
    simpa [scanLiteralEnd] using h
  | c :: d :: u, hu, h => by
    by_cases hc : c = '\\'
    · subst hc
      simp only [List.cons_append, scanLiteralEnd] at h ⊢
      split_ifs at h ⊢ with hd
      · rfl
      · have hu : '\n' ∈ u := by simpa [Ne.symm hd] using hu
        rw [Option.map_eq_none_iff] at h ⊢
        exact scanLiteralEnd_line hu h
    · simp only [List.cons_append, scanLiteralEnd, hc, imp_false, false_imp_iff, implies_true] at h ⊢
      split_ifs at h ⊢ with hq hline
      · rfl
      · have hu : '\n' ∈ d :: u := by simpa [Ne.symm hline] using hu
        rw [Option.map_eq_none_iff] at h ⊢
        exact scanLiteralEnd_line (u := d :: u) hu h

theorem exists_of_mem_itemsOf {k : Chunk} {bound cs : List Char} {s : Split}
    (h : s ∈ itemsOf k bound cs) : ∃ cs', scanItem k cs' = some s := by
  induction bound generalizing cs with
  | nil => cases h
  | cons b bound ih =>
    unfold itemsOf at h
    split at h
    · next item hitem =>
      rcases List.mem_cons.mp h with rfl | h
      · exact ⟨cs, hitem⟩
      · exact ih h
    · cases h

/-- **A chunk is read with other text behind it** if each of its items is, and none begins with that text. -/
theorem Items.exchange {k : Chunk} {cs w r r' : List Char} (h : Items k cs (w, r)) {bound : List Char}
    (hbound : cs.length ≤ bound.length)
    (hitem : ∀ s ∈ itemsOf k bound cs, ∀ u, s.2 = u ++ r →
      scanItem k (s.1 ++ (u ++ r')) = some (s.1, u ++ r'))
    (hend : scanItem k r' = none) : Items k (w ++ r') (w, r') := by
  generalize hs : (w, r) = s at h
  induction h generalizing w bound with
  | nil =>
    obtain ⟨rfl, -⟩ := Prod.mk.inj hs
    exact .nil hend
  | @cons cs item rest hfirst hrest ih =>
    obtain ⟨rfl, hr⟩ := Prod.mk.inj hs
    obtain ⟨b, bound, rfl⟩ : ∃ b bs, bound = b :: bs := by
      cases bound with
      | nil =>
        obtain rfl := List.length_eq_zero_iff.mp (Nat.le_zero.mp hbound)
        cases hfirst
      | cons b bs => exact ⟨b, bs, rfl⟩
    have hitems : itemsOf k (b :: bound) cs = item :: itemsOf k bound item.2 := by
      simp only [itemsOf, hfirst]
    rw [hitems] at hitem
    have hshorter := length_of_scanItem hfirst
    have hnext : Items k (rest.1 ++ r') (rest.1, r') := by
      refine ih ?_ (fun s hs => hitem s (List.mem_cons_of_mem _ hs)) (Prod.ext rfl hr)
      simp only [List.length_cons] at hbound
      omega
    have hstep := hitem item List.mem_cons_self rest.1 (by rw [hrest.divides, ← hr])
    rw [List.append_assoc]
    exact .cons hstep hnext

/-- A quote that is no open item opens no literal with other text behind it either. -/
theorem lone_of_not_isOpen {k : Chunk} {cs x r : List Char} {s : Split}
    (hitem : scanItem k cs = some s) (hx : s.2 = x ++ r) (hclosed : ¬ IsOpen r.length s)
    (r' : List Char) {q : Char} (htaken : s.1 = [q]) (hq : q = '"' ∨ q = '\'') :
    scanLiteralEnd q (x ++ r') = none := by
  have hlone : scanLiteralEnd q s.2 = none := (lone_of_scanItem hq (by rw [hitem, ← htaken])).1
  rw [hx] at hlone
  refine scanLiteralEnd_line ?_ hlone
  by_contra hline
  refine hclosed (Or.inl ⟨by rcases hq with rfl | rfl <;> simp [htaken], ?_⟩)
  rw [hx, List.length_append, Nat.add_sub_cancel, List.take_left]
  exact hline

/-- **An item before a brace is read there whatever stands behind the brace**, unless it is open. -/
theorem scanItem_brace {k : Chunk} {cs x y : List Char} {s : Split} (hitem : scanItem k cs = some s)
    (hx : s.2 = x ++ '\x7b' :: y) (hclosed : ¬ IsOpen (y.length + 1) s) (y' : List Char) :
    scanItem k (s.1 ++ (x ++ '\x7b' :: y')) = some (s.1, x ++ '\x7b' :: y') := by
  refine scanItem_append hitem (fun q => lone_of_not_isOpen hitem hx hclosed _)
    (fun hverbatim hquote => hclosed (Or.inr ⟨hverbatim, hquote⟩)) (Or.inl ?_)
  rw [hx]
  cases x <;> rfl

/-! ## Where chunks are admitted -/

section

variable {admitted : TerminalSet}

theorem matchChunk_of_only {t : Terminal} {k : Chunk} (hk : (t, k) ∈ chunkTerminals)
    (ht : t ∈ admitted) (honly : ∀ e ∈ chunkTerminals, e.1 ∈ admitted → e = (t, k))
    (cs : List Char) : matchChunk admitted cs = (scanChunk k cs).map fun s => (t, s) := by
  cases hscan : scanChunk k cs with
  | none =>
    refine List.findSome?_eq_none_iff.mpr fun e he => ?_
    split_ifs with hmem
    · rw [honly e he hmem, hscan]
      rfl
    · rfl
  | some s =>
    have hfind : (chunkTerminals.findSome? fun e => if e = (t, k) then some (t, s) else none) =
        some (t, s) := by
      revert hk
      generalize chunkTerminals = L
      intro hk
      induction L with
      | nil => cases hk
      | cons e L ih =>
        rw [List.findSome?_cons]
        by_cases he : e = (t, k)
        · simp [he]
        · simpa [he] using ih ((List.mem_cons.mp hk).resolve_left (Ne.symm he))
    refine findSome?_eq_of hfind (fun e he hnone => ?_) fun e he hsome => ?_
    · split_ifs at hnone with hne
      exact if_neg fun hmem => hne (honly e he hmem)
    · split_ifs at hsome with heq
      rw [heq, if_pos ht, hscan]
      rfl

theorem matchChunk_of_isBlank {c : Char} (hc : isBlank c) (cs : List Char) :
    matchChunk admitted (c :: cs) = none :=
  List.findSome?_eq_none_iff.mpr fun e _ => by
    rw [scanChunk_eq_none_iff.mpr (Or.inl (by simpa using hc))]
    split_ifs <;> rfl

theorem isBlank_of_isLayout {c : Char} (h : isLayout c = true) : isBlank c = true := by
  simp only [isLayout, Bool.or_eq_true, beq_iff_eq] at h
  rcases h with (((rfl | rfl) | rfl) | rfl) | rfl <;> rfl

theorem scanIgnored_of_isLayout {c : Char} (hc : isLayout c) (cs : List Char) :
    scanIgnored (c :: cs) = some (prepend [c] (scanWhile isLayout cs)) := by
  have hslash : c ≠ '/' := by rintro rfl; exact absurd hc (by decide)
  have hhash : c ≠ '#' := by rintro rfl; exact absurd hc (by decide)
  have hbracket : c ≠ '[' := by rintro rfl; exact absurd hc (by decide)
  rw [scanIgnored]
  · simp [hc]
  all_goals intros; simp_all

theorem Lexes.blank {c : Char} {cs : List Char} {a : Ahead} (h : Lexes admitted cs a)
    (hc : isLayout c) : Lexes admitted (c :: cs) a := by
  have hchunk : ∀ {c : Char}, isLayout c → ∀ cs, matchChunk admitted (c :: cs) = none :=
    fun hc => matchChunk_of_isBlank (isBlank_of_isLayout hc)
  have hskip := scanIgnored_of_isLayout hc cs
  by_cases hcs : cs.head?.any isLayout
  · obtain ⟨d, ds, rfl⟩ : ∃ d ds, cs = d :: ds := by
      cases cs with
      | nil => cases hcs
      | cons d ds => exact ⟨d, ds, rfl⟩
    have hd : isLayout d := by simpa using hcs
    have hrest : scanWhile isLayout (d :: ds) = prepend [d] (scanWhile isLayout ds) := by
      simp [scanWhile, prepend, hd]
    have hskip' := scanIgnored_of_isLayout hd ds
    -- The white space behind is ignored together with it.
    cases h with
    | chunk h => rw [hchunk hd] at h; cases h
    | skip _ hignored h =>
      rw [hskip'] at hignored
      cases hignored
      exact .skip (hchunk hc _) hskip (by rwa [hrest])
    | terminal _ hignored => rw [hskip'] at hignored; cases hignored
  · have hrest : scanWhile isLayout cs = ([], cs) :=
      scanWhile_append_of (u := []) (by simp) (by simpa [Option.any_eq_true] using hcs)
    exact .skip (hchunk hc _) hskip (by rwa [hrest])

/-- White space before a token is ignored. -/
theorem Lexes.gap {gap cs : List Char} {a : Ahead} (h : Lexes admitted cs a) (hgap : isGap gap) :
    Lexes admitted (gap ++ cs) a := by
  induction gap with
  | nil => exact h
  | cons c gap ih =>
    simp only [isGap, List.all_cons, Bool.and_eq_true] at hgap
    exact (ih hgap.2).blank hgap.1

/-- A sign is read where names and operators are not, if no chunk begins with it. -/
theorem lexes_stop {t : Terminal} {c : Char} (hmem : (t, c) ∈ plainSigns) (ht : t ∈ admitted)
    (hname : .name ∉ admitted) (hoperator : .operatorSymbol ∉ admitted) {cs : List Char}
    (hchunk : matchChunk admitted (c :: cs) = none) : Lexes admitted (c :: cs) ⟨t, [c], cs⟩ := by
  have hsigns : ∀ e ∈ plainSigns, e.2 ∉ ['/', '#', '['] ∧ isLayout e.2 = false := by decide
  obtain ⟨hspelled, hnone, -⟩ := goesOnWith_plainSigns _ hmem
  have halone : isReadByItself admitted t := by
    have hname' : admitted.contains .name = false := Bool.eq_false_iff.mpr hname
    have hoperator' : admitted.contains .operatorSymbol = false := Bool.eq_false_iff.mpr hoperator
    simp [isReadByItself, hname', hoperator']
  have hrest : ∀ d ∈ cs.head?, d ∉ goesOnWith (String.ofList [c]).toList := by
    simp [hnone]
  have hmatch := matchSpelled_append (List.mem_append_right _ hspelled) ht halone hrest
  rw [String.toList_ofList] at hmatch
  refine .terminal (s := ([c], cs)) hchunk (scanIgnored_eq_none (hsigns _ hmem).1 (hsigns _ hmem).2) ?_
  rw [matchTerminal, matchName, if_neg hname, matchOperator, if_neg hoperator]
  exact hmatch

end

end Facade.Scan
