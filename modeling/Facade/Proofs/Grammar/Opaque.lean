import Mathlib.Data.List.TakeWhile
import Facade.Proofs.Grammar.Lexing
import Facade.Proofs.Grammar.Spelling

/-!
# The text of default values

A default value is taken as it stands: items of a chunk, and parentheses with items between them.

* `Scan.DefaultState.step`, `Scan.Passes`: one more piece of a default value, and all its pieces;
* `Scan.ClosedDefault`: a comma after the text is no part of it, as it is if the text ends within a
  comment;
* **`Scan.ClosedDefault.passes`**: such a text is read alike before all that can follow it;
* **`Scan.ClosedDefault.unique`**: so it can be told from what follows.
-/

namespace Facade.Scan

open Text

/-! ## Reading a default value -/

/-- The kinds of pieces in the text of a default value. -/
inductive Piece where
  /-- White space between chunks, or an attribute of the whole program. -/
  | ignored
  | item
  | paren
deriving Repr, DecidableEq

/-- Where the reading of a default value stands: the depth of parentheses, the piece that was read last,
and what is left. -/
structure DefaultState where
  depth : Nat
  last : Piece
  rest : List Char
deriving DecidableEq

/-- The chunk that is read at this depth of parentheses. -/
def chunkAt (depth : Nat) : Chunk := if depth = 0 then .inDefault else .inArguments

theorem takesLoneQuote_chunkAt (depth : Nat) : (chunkAt depth).takesLoneQuote = false := by
  unfold chunkAt
  split_ifs <;> rfl

namespace DefaultState

/-- Reads a sign at which no item stands. -/
def stepSign (q : DefaultState) : Option DefaultState :=
  match q.rest with
  | '(' :: rest => some ⟨q.depth + 1, .paren, rest⟩
  | ')' :: rest => if q.depth = 0 then none else some ⟨q.depth - 1, .paren, rest⟩
  | '[' :: rest => (scanProgramAttribute ('[' :: rest)).map fun s => ⟨q.depth, .ignored, s.2⟩
  | _ => none

/-- White space is ignored where no chunk has begun. -/
def isBetween (q : DefaultState) : Bool := q.last != .item && q.rest.head?.any isBlank

/-- Reads one more piece. -/
def step (q : DefaultState) : Option DefaultState :=
  if q.isBetween then
    if q.rest.head?.any isLayout then some ⟨q.depth, .ignored, q.rest.tail⟩ else none
  else
    match scanItem (chunkAt q.depth) q.rest with
    | some s => some ⟨q.depth, .item, s.2⟩
    | none => q.stepSign

/-- Reads as many pieces as there are, at most as many as `bound` is long. -/
def run : (bound : List Char) → DefaultState → DefaultState
  | [], q => q
  | _ :: bound, q =>
    match q.step with
    | some q => run bound q
    | none => q

/-- Before anything of a text is read. -/
def start (cs : List Char) : DefaultState := ⟨0, .ignored, cs⟩

end DefaultState

/-- Where the reading of a text and a comma ends. -/
def readDefault (d : List Char) : DefaultState :=
  (DefaultState.start (d ++ [','])).run (d ++ [','])

/-- A comma after the text is no part of the default value that the text is. -/
def ClosedDefault (d : List Char) : Prop := (readDefault d).depth = 0 ∧ (readDefault d).rest = [',']

instance (d : List Char) : Decidable (ClosedDefault d) :=
  inferInstanceAs (Decidable (_ ∧ _))

/-- Reading goes on from a state to the end of a default value, after a piece of some kind. -/
inductive Passes : DefaultState → Piece → List Char → Prop
  | done {last rest} : Passes ⟨0, last, rest⟩ last rest
  | step {q q' last rest} : q.step = some q' → Passes q' last rest → Passes q last rest

theorem passes_of_run {bound : List Char} {q : DefaultState} (h : (q.run bound).depth = 0) :
    Passes q (q.run bound).last (q.run bound).rest := by
  have hdone : ∀ q : DefaultState, q.depth = 0 → Passes q q.last q.rest := by
    rintro ⟨depth, last, rest⟩ rfl
    exact .done
  induction bound generalizing q with
  | nil => exact hdone q h
  | cons b bound ih =>
    simp only [DefaultState.run] at h ⊢
    cases hstep : q.step with
    | none =>
      rw [hstep] at h
      exact hdone q h
    | some q' =>
      rw [hstep] at h
      exact .step hstep (ih h)

/-! ## What can follow -/

/-- What can follow a default value begins with a comma or a closing parenthesis. -/
def EndsDefault (x : List Char) : Prop := ∃ c y, x = c :: y ∧ (c = ',' ∨ c = ')')

theorem EndsDefault.step {x : List Char} (h : EndsDefault x) (last : Piece) :
    (DefaultState.mk 0 last x).step = none := by
  obtain ⟨c, y, rfl, rfl | rfl⟩ := h <;> cases last <;> rfl

/-- Reading ends in one way. -/
theorem Passes.unique {q : DefaultState} {last last' : Piece} {x y : List Char}
    (h : Passes q last x) (h' : Passes q last' y) (hx : EndsDefault x) (hy : EndsDefault y) :
    x = y := by
  induction h with
  | done =>
    cases h' with
    | done => rfl
    | step hstep _ => rw [hx.step] at hstep; cases hstep
  | step hstep _ ih =>
    cases h' with
    | done => rw [hy.step] at hstep; cases hstep
    | step hstep' hrest =>
      rw [hstep] at hstep'
      cases hstep'
      exact ih hrest hx

/-! ## Scanners that look no further than they take -/

/-- What the scanner takes does not depend on what remains. -/
def Settled (scan : List Char → Option Split) : Prop :=
  ∀ cs s, scan cs = some s → ∀ r, scan (s.1 ++ r) = some (s.1, r)

theorem Settled.prepend {scan : List Char → Option Split} (h : Settled scan) {cs taken : List Char}
    {s : Split} (hs : (scan cs).map (prepend taken) = some s) (r : List Char) :
    ∃ u, s.1 = taken ++ u ∧ scan (u ++ r) = some (u, r) := by
  obtain ⟨s', hs', rfl⟩ := Option.map_eq_some_iff.mp hs
  exact ⟨s'.1, rfl, h cs s' hs' r⟩

theorem settled_scanExact (es : List Char) : Settled (scanExact es) := by
  intro cs s h r
  obtain ⟨rfl, -⟩ := scanExact_eq_some h
  clear h
  induction s.1 with
  | nil => rfl
  | cons e es ih => simp [scanExact, ih, prepend]

theorem ne_nil_of_scanCommentEnd {cs : List Char} {s : Split} (h : scanCommentEnd cs = some s) :
    s.1 ≠ [] := by
  unfold scanCommentEnd at h
  split at h
  · cases h; simp
  · obtain ⟨s', -, rfl⟩ := Option.map_eq_some_iff.mp h
    simp [prepend]
  · cases h

theorem settled_scanCommentEnd : Settled scanCommentEnd := by
  intro cs s h r
  induction cs using scanCommentEnd.induct generalizing s with
  | case1 rest =>
    simp only [scanCommentEnd, Option.some.injEq] at h
    subst h
    rfl
  | case2 c rest hc ih =>
    rw [scanCommentEnd.eq_2 c rest hc] at h
    obtain ⟨s', hs', rfl⟩ := Option.map_eq_some_iff.mp h
    obtain ⟨e, u, hu⟩ := List.exists_cons_of_ne_nil (ne_nil_of_scanCommentEnd hs')
    have hopen : ∀ v, c = '*' → s'.1 ++ r = '/' :: v → False := by
      intro v hstar hslash
      refine hc (u ++ s'.2) hstar ?_
      rw [divides_scanCommentEnd rest s' hs', hu, List.cons_append]
      rw [hu, List.cons_append] at hslash
      rw [(List.cons.inj hslash).1]
    simp only [prepend, List.cons_append, List.nil_append]
    rw [scanCommentEnd.eq_2 c _ hopen, ih s' hs']
    rfl
  | case3 => cases h

theorem settled_scanLiteralEnd (quote : Char) : Settled (scanLiteralEnd quote) := by
  intro cs s h r
  fun_induction scanLiteralEnd quote cs generalizing s with
  | case1 => cases h
  | case2 => cases h
  | case3 => cases h
  | case4 c rest hc ih =>
    obtain ⟨s', hs', rfl⟩ := Option.map_eq_some_iff.mp h
    simp [prepend, scanLiteralEnd, hc, ih s' hs']
  | case5 rest hlone hpair =>
    cases h
    have hquote : quote ≠ '\\' := by
      rintro rfl
      cases rest with
      | nil => exact hlone rfl rfl
      | cons d rest => exact hpair d rest rfl rfl
    simp [scanLiteralEnd, hquote]
  | case6 => cases h
  | case7 c rest hlone hpair hquote hline ih =>
    obtain ⟨s', hs', rfl⟩ := Option.map_eq_some_iff.mp h
    have hc : c ≠ '\\' := by
      rintro rfl
      cases rest with
      | nil => exact hlone rfl rfl
      | cons d rest => exact hpair d rest rfl rfl
    simp [prepend, scanLiteralEnd, hc, hquote, hline, ih s' hs']

theorem scanWhile_append_cons {p : Char → Bool} {u v : List Char} {c : Char}
    (hu : ∀ d ∈ u, p d = true) (hc : p c = false) : scanWhile p (u ++ c :: v) = (u, c :: v) :=
  scanWhile_append_of hu (by simpa using hc)

theorem settled_scanProgramAttribute : Settled scanProgramAttribute := by
  intro cs s h r
  unfold scanProgramAttribute at h
  split at h
  · next cs =>
    simp only [Option.bind_eq_bind, Option.bind_eq_some_iff] at h
    obtain ⟨target, htarget, colon, hcolon, close, hclose, h⟩ := h
    rw [Option.some.injEq] at h
    subst h
    obtain ⟨hc, -⟩ := scanExact_eq_some hcolon
    obtain ⟨hb, -⟩ := scanExact_eq_some hclose
    have hall : ∀ (p : Char → Bool) (u : List Char), ∀ d ∈ (scanWhile p u).1, p d = true :=
      fun p u d hd => List.all_eq_true.mp List.all_takeWhile d hd
    have hword : ∃ c u, target.1 = c :: u ∧ isBlank c = false ∧
        ∀ v, (scanExact "assembly".toList (target.1 ++ v) <|>
          scanExact "module".toList (target.1 ++ v)) = some (target.1, v) := by
      rw [Option.orElse_eq_some] at htarget
      rcases htarget with h | ⟨-, h⟩
      · refine ⟨'a', "ssembly".toList, (scanExact_eq_some h).1, by decide,
          fun v => ?_⟩
        rw [settled_scanExact _ _ _ h v]
        rfl
      · refine ⟨'m', "odule".toList, (scanExact_eq_some h).1, by decide,
          fun v => ?_⟩
        have hm : target.1 = "module".toList := (scanExact_eq_some h).1
        have hnot : scanExact "assembly".toList (target.1 ++ v) = none := by
          rw [hm]
          rfl
        rw [hnot, settled_scanExact _ _ _ h v]
        rfl
    obtain ⟨c, u, hu, hblank, htarget⟩ := hword
    have h₁ : ∀ v, scanWhile isBlank ((scanWhile isBlank cs).1 ++ (target.1 ++ v)) =
        ((scanWhile isBlank cs).1, target.1 ++ v) := fun v => by
      rw [hu, List.cons_append, scanWhile_append_cons (hall _ _) hblank]
    have h₂ : ∀ v, scanWhile isBlank ((scanWhile isBlank target.2).1 ++ ':' :: v) =
        ((scanWhile isBlank target.2).1, ':' :: v) := fun v =>
      scanWhile_append_cons (hall _ _) (by decide)
    have h₃ : ∀ v, scanWhile (· != ']') ((scanWhile (· != ']') colon.2).1 ++ ']' :: v) =
        ((scanWhile (· != ']') colon.2).1, ']' :: v) := fun v =>
      scanWhile_append_cons (hall _ _) (by decide)
    simp only [List.cons_append, List.append_assoc, hc, hb, List.nil_append]
    simp only [scanProgramAttribute, h₁, htarget, h₂, h₃, Option.bind_eq_bind, Option.bind_some,
      scanExact, Option.map_some, prepend, if_true, List.append_assoc, List.cons_append,
      List.nil_append]
  · cases h

theorem scanVerbatimEnd_ne_none {cs : List Char} (h : '"' ∈ cs) : scanVerbatimEnd cs ≠ none := by
  fun_induction scanVerbatimEnd cs with
  | case1 => cases h
  | case2 => simp
  | case3 => simp
  | case4 => simp
  | case5 c rest hpair hquote ih =>
    have hc : '"' ≠ c := by
      rintro rfl
      exact hquote rfl
    simpa using ih ((List.mem_cons.mp h).resolve_left hc)

theorem not_mem_of_scanVerbatimEnd {cs : List Char} {s : Split} (h : scanVerbatimEnd cs = some s)
    {u : List Char} (hu : s.2 = '"' :: u) : '"' ∉ u := by
  fun_induction scanVerbatimEnd cs generalizing s with
  | case1 => cases h
  | case2 rest s' hs' ih =>
    cases h
    exact ih hs' hu
  | case3 rest hnone =>
    cases h
    obtain rfl := (List.cons.inj hu).2
    exact fun hmem => scanVerbatimEnd_ne_none hmem hnone
  | case4 rest hpair =>
    cases h
    exact absurd hu (hpair u)
  | case5 c rest hpair hquote ih =>
    obtain ⟨s', hs', rfl⟩ := Option.map_eq_some_iff.mp h
    exact ih hs' hu

theorem settled_scanVerbatimEnd {cs : List Char} {s : Split} (h : scanVerbatimEnd cs = some s)
    (hend : s.2.head? ≠ some '"') {r : List Char} (hr : r.head? ≠ some '"') :
    scanVerbatimEnd (s.1 ++ r) = some (s.1, r) := by
  fun_induction scanVerbatimEnd cs generalizing s with
  | case1 => cases h
  | case2 rest s' hs' ih =>
    cases h
    simp [prepend, scanVerbatimEnd, ih hs' hend]
  | case3 rest hnone =>
    cases h
    exact absurd rfl hend
  | case4 rest hpair =>
    cases h
    cases r with
    | nil => rfl
    | cons c r =>
      have hc : c ≠ '"' := by simpa using hr
      simp [scanVerbatimEnd, hc]
  | case5 c rest hpair hquote ih =>
    obtain ⟨s', hs', rfl⟩ := Option.map_eq_some_iff.mp h
    have hc : c ≠ '"' := hquote
    simp [prepend, scanVerbatimEnd, hc, ih hs' hend]

/-! ## One piece -/

/-- Nothing tells the texts apart that ends an item: they begin alike, or both can follow a default
value. -/
def BeginAlike (r r' : List Char) : Prop :=
  r.head? = r'.head? ∨ EndsDefault r ∧ EndsDefault r'

theorem BeginAlike.ne {r r' : List Char} (h : BeginAlike r r') {c : Char} (hr : r.head? ≠ some c)
    (hcomma : c ≠ ',') (hparen : c ≠ ')') : r'.head? ≠ some c := by
  rcases h with h | ⟨-, d, u, rfl, rfl | rfl⟩
  · rw [← h]
    exact hr
  · simpa using hcomma.symm
  · simpa using hparen.symm

theorem scanItem_cons {k : Chunk} {c : Char} {cs : List Char}
    (hslash : c = '/' → cs.head? ≠ some '/' ∧ cs.head? ≠ some '*')
    (hat : c = '@' → cs.head? ≠ some '"') :
    scanItem k (c :: cs) =
      if c = '"' ∨ c = '\'' then
        match scanLiteralEnd c cs with
        | some s => some (prepend [c] s)
        | none => if k.takesLoneQuote then some ([c], cs) else none
      else if k.stops c then none else some ([c], cs) :=
  scanItem.eq_4 k c cs (fun u hc hu => (hslash hc).1 (by rw [hu]; rfl))
    (fun u hc hu => (hslash hc).2 (by rw [hu]; rfl)) (fun u hc hu => hat hc (by rw [hu]; rfl))

theorem scanItem_quote {c : Char} (hc : c = '"' ∨ c = '\'') (k : Chunk) (cs : List Char) :
    scanItem k (c :: cs) =
      match scanLiteralEnd c cs with
      | some s => some (prepend [c] s)
      | none => if k.takesLoneQuote then some ([c], cs) else none := by
  rw [scanItem_cons, if_pos hc]
  all_goals rcases hc with rfl | rfl <;> exact fun hc => absurd hc (by decide)

theorem scanWhile_line {cs r : List Char} (hr : BeginAlike (scanWhile (· != '\n') cs).2 r) :
    scanWhile (· != '\n') ((scanWhile (· != '\n') cs).1 ++ r) =
      ((scanWhile (· != '\n') cs).1, r) := by
  have hall : ∀ d ∈ (scanWhile (· != '\n') cs).1, (d != '\n') = true :=
    fun d hd => List.all_eq_true.mp List.all_takeWhile d hd
  have hhead : ∀ c ∈ (scanWhile (· != '\n') cs).2.head?, c = '\n' := by
    intro c hc
    have hnot := List.head?_dropWhile_not (· != '\n') cs
    rw [show cs.dropWhile (· != '\n') = (scanWhile (· != '\n') cs).2 from rfl, hc] at hnot
    simpa using hnot
  rcases hr with hr | ⟨⟨c, u, hu, hc⟩, -⟩
  · cases r with
    | nil =>
      rw [List.append_nil, scanWhile, List.takeWhile_eq_self_iff.mpr hall,
        List.dropWhile_eq_nil_iff.mpr hall]
    | cons c r =>
      have hc := hhead c (by rw [hr]; rfl)
      exact scanWhile_append_cons hall (by simp [hc])
  · have hn := hhead c (by rw [hu]; rfl)
    rcases hc with rfl | rfl <;> cases hn

theorem ne_nil_of_scanLiteralEnd {quote : Char} {cs : List Char} {s : Split}
    (h : scanLiteralEnd quote cs = some s) : s.1 ≠ [] := by
  unfold scanLiteralEnd at h
  split at h
  · cases h
  · cases h
  · split_ifs at h
    obtain ⟨s', -, rfl⟩ := Option.map_eq_some_iff.mp h
    simp [prepend]
  · split_ifs at h
    · cases h
      simp
    · obtain ⟨s', -, rfl⟩ := Option.map_eq_some_iff.mp h
      simp [prepend]

/-- An item is taken before every text that begins like what stood behind it, unless that closes a
literal which was open or opens one again. -/
theorem scanItem_append {k : Chunk} {cs : List Char} {s : Split} (h : scanItem k cs = some s)
    {r : List Char}
    (hlone : ∀ q, s.1 = [q] → q = '"' ∨ q = '\'' → scanLiteralEnd q r = none)
    (hverbatim : ['@', '"'] <+: s.1 → s.2.head? ≠ some '"') (hr : BeginAlike s.2 r) :
    scanItem k (s.1 ++ r) = some (s.1, r) := by
  unfold scanItem at h
  split at h
  · next cs =>
    cases h
    simp only [prepend, List.cons_append, List.nil_append, scanItem, scanWhile_line hr]
  · next cs =>
    obtain ⟨u, hu, hscan⟩ := settled_scanCommentEnd.prepend h r
    rw [hu]
    simp only [List.cons_append, List.nil_append, scanItem, hscan, Option.map_some, prepend]
  · next cs =>
    obtain ⟨s', hs', rfl⟩ := Option.map_eq_some_iff.mp h
    have hend : s'.2.head? ≠ some '"' := hverbatim (List.prefix_append _ _)
    have hscan := settled_scanVerbatimEnd hs' hend (hr.ne hend (by decide) (by decide))
    simp only [prepend, List.cons_append, List.nil_append, scanItem, hscan, Option.map_some]
  · next c cs hslash hstar hat =>
    have hhead : ∀ {d e : Char}, (∀ u, c = d → cs = e :: u → False) → c = d →
        cs.head? ≠ some e := by
      intro d e hnot hc hhead
      obtain ⟨u, hu⟩ := List.head?_eq_some_iff.mp hhead
      exact hnot u hc hu
    by_cases hquote : c = '"' ∨ c = '\''
    · have hplain := scanItem_quote hquote k
      rw [if_pos hquote] at h
      cases hs : scanLiteralEnd c cs with
      | some s' =>
        rw [hs] at h
        cases h
        simp only [prepend, List.cons_append, List.nil_append]
        rw [hplain, settled_scanLiteralEnd c cs s' hs r]
        rfl
      | none =>
        rw [hs] at h
        split_ifs at h with hk
        cases h
        rw [List.singleton_append, hplain, hlone c rfl hquote]
        simp only [hk, if_true]
    · rw [if_neg hquote] at h
      split_ifs at h with hstops
      cases h
      rw [List.singleton_append, scanItem_cons, if_neg hquote, if_neg hstops]
      · exact fun hc => ⟨hr.ne (hhead hslash hc) (by decide) (by decide),
          hr.ne (hhead hstar hc) (by decide) (by decide)⟩
      · exact fun hc => hr.ne (hhead hat hc) (by decide) (by decide)
  · cases h

theorem lone_of_scanItem {k : Chunk} {cs : List Char} {q : Char} {r : List Char}
    (hq : q = '"' ∨ q = '\'') (h : scanItem k cs = some ([q], r)) :
    scanLiteralEnd q r = none ∧ k.takesLoneQuote = true := by
  obtain rfl : cs = q :: r := divides_scanItem _ _ _ h
  rw [scanItem_quote hq] at h
  cases hs : scanLiteralEnd q r with
  | some s =>
    rw [hs] at h
    have htaken : q :: s.1 = [q] := congrArg Prod.fst (Option.some.inj h)
    exact absurd (List.cons.inj htaken).2 (ne_nil_of_scanLiteralEnd hs)
  | none =>
    rw [hs] at h
    refine ⟨rfl, ?_⟩
    by_contra hk
    simp [hk] at h

theorem scanItem_alike {k : Chunk} {cs : List Char} {s : Split} (h : scanItem k cs = some s)
    (hk : k.takesLoneQuote = false) (hclosed : ∀ u, s.2 = '"' :: u → '"' ∈ u) {r : List Char}
    (hr : BeginAlike s.2 r) : scanItem k (s.1 ++ r) = some (s.1, r) := by
  refine scanItem_append h (fun q hs hq => ?_) (fun hs => ?_) hr
  · rw [(lone_of_scanItem hq (show scanItem k cs = some ([q], s.2) from hs ▸ h)).2] at hk
    cases hk
  · intro hhead
    obtain ⟨u, hu⟩ := List.head?_eq_some_iff.mp hhead
    obtain ⟨w, hw⟩ := hs
    have hcs : cs = '@' :: '"' :: (w ++ s.2) := by
      rw [divides_scanItem _ _ _ h, ← hw]
      rfl
    rw [hcs] at h
    obtain ⟨s', hs', rfl⟩ := Option.map_eq_some_iff.mp h
    exact not_mem_of_scanVerbatimEnd hs' hu (hclosed u hu)

theorem ne_nil_of_scanItem {k : Chunk} {cs : List Char} {s : Split} (h : scanItem k cs = some s) :
    s.1 ≠ [] := by
  unfold scanItem at h
  split at h
  · cases h; simp [prepend]
  · obtain ⟨s', -, rfl⟩ := Option.map_eq_some_iff.mp h; simp [prepend]
  · obtain ⟨s', -, rfl⟩ := Option.map_eq_some_iff.mp h; simp [prepend]
  · next c cs _ _ _ =>
    by_cases hquote : c = '"' ∨ c = '\''
    · rw [if_pos hquote] at h
      cases hs : scanLiteralEnd c cs with
      | some s' => rw [hs] at h; cases h; simp [prepend]
      | none =>
        simp only [hs] at h
        split_ifs at h
        cases h
        simp
    · rw [if_neg hquote] at h
      split_ifs at h
      cases h
      simp
  · cases h

theorem scanItem_sign {k : Chunk} {c : Char} (hc : c ∈ ['(', ')', '[']) {cs : List Char}
    (h : scanItem k (c :: cs) = none) (r : List Char) : scanItem k (c :: r) = none := by
  simp only [List.mem_cons, List.not_mem_nil, or_false] at hc
  rcases hc with rfl | rfl | rfl <;> simpa [scanItem] using h

theorem DefaultState.step_alike {q q' : DefaultState} (h : q.step = some q')
    (hclosed : ∀ u, q'.rest = '"' :: u → '"' ∈ u) :
    ∃ t, q.rest = t ++ q'.rest ∧ ∀ r, BeginAlike q'.rest r →
      DefaultState.step ⟨q.depth, q.last, t ++ r⟩ = some ⟨q'.depth, q'.last, r⟩ := by
  obtain ⟨depth, last, cs⟩ := q
  unfold step at h
  split_ifs at h with hbetween hlayout
  · cases cs with
    | nil => simp at hlayout
    | cons c cs =>
      cases h
      refine ⟨[c], rfl, fun r _ => ?_⟩
      unfold step
      rw [if_pos (by simpa [isBetween] using hbetween), if_pos (by simpa using hlayout)]
      rfl
  · have hsame : ∀ {c : Char} {u v : List Char}, cs = c :: u →
        (DefaultState.mk depth last (c :: v)).isBetween = false := by
      rintro c u v rfl
      simpa [isBetween] using hbetween
    split at h
    · next s hs =>
      cases h
      refine ⟨s.1, divides_scanItem _ _ _ hs, fun r hr => ?_⟩
      have hitem := scanItem_alike hs (takesLoneQuote_chunkAt depth) hclosed hr
      obtain ⟨c, u, hu⟩ := List.exists_cons_of_ne_nil (ne_nil_of_scanItem hs)
      have hcs : cs = c :: (u ++ s.2) := by
        rw [← List.cons_append, ← hu]
        exact divides_scanItem _ _ _ hs
      rw [hu, List.cons_append] at hitem ⊢
      rw [step, if_neg (by simp [hsame hcs])]
      simp only [hitem]
    · next hs =>
      have hsign : ∀ {c : Char} {u v : List Char}, cs = c :: u → c ∈ ['(', ')', '['] →
          (DefaultState.mk depth last (c :: v)).step =
            (DefaultState.mk depth last (c :: v)).stepSign := by
        rintro c u v rfl hc
        rw [step, if_neg (by simp [hsame rfl])]
        simp only [scanItem_sign hc hs]
      unfold stepSign at h
      simp only at h
      split at h
      · cases h
        exact ⟨['('], rfl, fun r _ => hsign rfl (by simp)⟩
      · split_ifs at h with hdepth
        cases h
        refine ⟨[')'], rfl, fun r _ => ?_⟩
        rw [List.singleton_append, hsign rfl (by simp)]
        simp only [stepSign, hdepth, if_false]
      · next rest =>
        obtain ⟨s, hs', heq⟩ := Option.map_eq_some_iff.mp h
        cases heq
        refine ⟨s.1, divides_scanProgramAttribute _ _ hs', fun r _ => ?_⟩
        have hsettled := settled_scanProgramAttribute _ _ hs' r
        obtain ⟨u, hu⟩ : ∃ u, s.1 = '[' :: u := by
          simp only [scanProgramAttribute, Option.bind_eq_bind, Option.bind_eq_some_iff,
            Option.some.injEq] at hs'
          obtain ⟨_, _, _, _, _, _, rfl⟩ := hs'
          exact ⟨_, rfl⟩
        rw [hu, List.cons_append] at hsettled ⊢
        rw [hsign rfl (by simp)]
        simp only [stepSign, hsettled, Option.map_some]
      · cases h

theorem mem_of_scanLiteralEnd {quote : Char} {cs : List Char} {s : Split}
    (h : scanLiteralEnd quote cs = some s) : quote ∈ cs := by
  fun_induction scanLiteralEnd quote cs generalizing s with
  | case1 => cases h
  | case2 => cases h
  | case3 => cases h
  | case4 c rest hc ih =>
    obtain ⟨s', hs', -⟩ := Option.map_eq_some_iff.mp h
    exact List.mem_cons_of_mem _ (List.mem_cons_of_mem _ (ih hs'))
  | case5 => exact List.mem_cons_self
  | case6 => cases h
  | case7 c rest _ _ _ _ ih =>
    obtain ⟨s', hs', -⟩ := Option.map_eq_some_iff.mp h
    exact List.mem_cons_of_mem _ (ih hs')

theorem mem_of_step {q q' : DefaultState} (h : q.step = some q') {u : List Char}
    (hu : q.rest = '"' :: u) : '"' ∈ u := by
  obtain ⟨depth, last, cs⟩ := q
  obtain rfl := hu
  have hitem : scanItem (chunkAt depth) ('"' :: u) ≠ none := by
    intro hnone
    have hblank : isBlank '"' = false := by decide
    simp [DefaultState.step, DefaultState.isBetween, DefaultState.stepSign, hnone, hblank] at h
  cases hs : scanLiteralEnd '"' u with
  | some s => exact mem_of_scanLiteralEnd hs
  | none =>
    refine absurd ?_ hitem
    rw [scanItem_cons (fun hc => absurd hc (by decide)) (fun hc => absurd hc (by decide)),
      if_pos (Or.inl rfl), hs]
    simp [takesLoneQuote_chunkAt]

/-- **What ends a default value does not change how it is read.** -/
theorem Passes.alike {q : DefaultState} {last : Piece} {x : List Char} (h : Passes q last x)
    (hx : EndsDefault x) :
    ∃ d, q.rest = d ++ x ∧ ∀ y, EndsDefault y → Passes ⟨q.depth, q.last, d ++ y⟩ last y := by
  induction h with
  | done => exact ⟨[], rfl, fun y _ => .done⟩
  | @step q q' last rest hstep hrest ih =>
    obtain ⟨d, hd, hpasses⟩ := ih hx
    have hclosed : ∀ u, q'.rest = '"' :: u → '"' ∈ u := by
      intro u hu
      cases hrest with
      | done =>
        obtain ⟨c, y, h, rfl | rfl⟩ := hx
        · exact absurd (h.symm.trans hu) (by simp)
        · exact absurd (h.symm.trans hu) (by simp)
      | step hnext _ => exact mem_of_step hnext hu
    obtain ⟨t, ht, hread⟩ := DefaultState.step_alike hstep hclosed
    refine ⟨t ++ d, by rw [ht, hd, List.append_assoc], fun y hy => ?_⟩
    have halike : BeginAlike q'.rest (d ++ y) := by
      rw [hd]
      cases d with
      | nil => exact Or.inr ⟨hx, hy⟩
      | cons c d => exact Or.inl rfl
    rw [List.append_assoc]
    exact .step (hread _ halike) (hpasses y hy)

/-- A closed default value ends before all that can follow it. -/
theorem ClosedDefault.passes {d : List Char} (h : ClosedDefault d) {x : List Char}
    (hx : EndsDefault x) : Passes (.start (d ++ x)) (readDefault d).last x := by
  have hpasses : Passes (.start (d ++ [','])) (readDefault d).last (readDefault d).rest :=
    passes_of_run h.1
  rw [h.2] at hpasses
  obtain ⟨d', hd, hread⟩ := hpasses.alike ⟨',', [], rfl, Or.inl rfl⟩
  obtain rfl := List.append_cancel_right hd
  exact hread x hx

/-- **A closed default value can be told from what follows.** -/
theorem ClosedDefault.unique {d e x y : List Char} (hd : ClosedDefault d) (he : ClosedDefault e)
    (hx : EndsDefault x) (hy : EndsDefault y) (h : d ++ x = e ++ y) : d = e ∧ x = y := by
  have hrest : x = y := (hd.passes hx).unique (h ▸ he.passes hy) hx hy
  subst hrest
  exact ⟨List.append_cancel_right h, rfl⟩

end Facade.Scan
