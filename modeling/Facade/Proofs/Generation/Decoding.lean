import Facade.Generator.Emit
import Facade.Generator.Fingerprint
import Facade.Proofs.Generation.Described
import Facade.Proofs.Grammar.Opaque

/-!
# Taking fingerprinted texts apart

The text that is hashed for a fingerprint can be taken apart into what a facade depends on, if no
default value goes on after its end.

* `ForwardedParameter.unique`, `ForwardedMethod.unique`: parameters and methods;
* **`Target.code_eq_of_stream`**: of an interface, its text, imports and forwarding methods;
* **`Container.eq_of_stream`**: of a container, all that its part declares.
-/

namespace Facade

open Text Scan

/-- The default values of the parameter are closed. -/
abbrev ForwardedParameter.IsClosed (q : ForwardedParameter) : Prop :=
  ∀ d ∈ q.defaultText, ClosedDefault d.toList

/-- The default values of the methods are closed. -/
def Target.IsClosed (t : Target) : Prop :=
  ∀ m ∈ t.methods, ∀ q ∈ m.parameters, q.IsClosed

instance (t : Target) : Decidable t.IsClosed :=
  inferInstanceAs (Decidable (∀ m ∈ t.methods, ∀ q ∈ m.parameters, ∀ d ∈ q.defaultText,
    ClosedDefault d.toList))

/-! ## Parameters -/

namespace ForwardedParameter

variable {P : String → Prop}

/-- The words of a parameter before its default value. -/
def words (q : ForwardedParameter) : List String := q.modifiers ++ [q.type, q.name]

theorem solid_parameterWords : ∀ w ∈ parameterWords, Solid w.toList := by
  have hnames : ∀ w ∈ parameterWords, IsPlainName w.toList := by decide
  exact fun w hw => IsName.solid (Or.inl (hnames w hw))

theorem IsWritten.solid_words {q : ForwardedParameter} (h : q.IsWritten P) :
    ∀ w ∈ q.words.map String.toList, Solid w := by
  intro w hw
  obtain ⟨s, hs, rfl⟩ := List.mem_map.mp hw
  simp only [words, List.mem_append, List.mem_cons, List.not_mem_nil, or_false] at hs
  rcases hs with hs | rfl | rfl
  · exact solid_parameterWords s (h.modifiers s hs)
  · exact h.type.solid
  · exact IsName.solid h.name

/-- What stands after the words of a parameter. -/
def defaultPart (q : ForwardedParameter) : List Char :=
  match q.defaultText with
  | some d => ' ' :: '=' :: ' ' :: d.toList
  | none => []

theorem toList_declaration (q : ForwardedParameter) :
    q.declaration.toList = [' '].intercalate (q.words.map String.toList) ++ q.defaultPart := by
  unfold declaration defaultPart words
  cases q.defaultText <;> simp [String.toList_intercalate]

theorem endsWords_defaultPart (q : ForwardedParameter) {x : List Char} (hx : EndsDefault x) :
    EndsWords (q.defaultPart ++ x) := by
  unfold defaultPart
  split
  · simp [EndsWords]
  · obtain ⟨c, y, rfl, hc⟩ := hx
    cases y with
    | nil => exact hc
    | cons d y => exact hc.imp_right Or.inl

theorem defaultPart_unique {q r : ForwardedParameter} (hq : q.IsClosed) (hr : r.IsClosed)
    {x y : List Char} (hx : EndsDefault x) (hy : EndsDefault y)
    (h : q.defaultPart ++ x = r.defaultPart ++ y) : q.defaultText = r.defaultText ∧ x = y := by
  have hne : ∀ {z : List Char} {u}, EndsDefault z → z ≠ ' ' :: u := by
    rintro z u ⟨c, y, rfl, rfl | rfl⟩ heq <;> cases heq
  unfold defaultPart at h
  cases hqd : q.defaultText with
  | none =>
    cases hrd : r.defaultText with
    | none => exact ⟨rfl, by simpa [hqd, hrd] using h⟩
    | some e => exact absurd (by simpa [hqd, hrd] using h) (hne hx)
  | some d =>
    cases hrd : r.defaultText with
    | none => exact absurd (by simpa [hqd, hrd] using h.symm) (hne hy)
    | some e =>
      obtain ⟨heq, hrest⟩ := (hq d hqd).unique (hr e hrd) hx hy (by simpa [hqd, hrd] using h)
      exact ⟨by rw [String.toList_injective heq], hrest⟩

/-- **A parameter can be told from what follows it.** -/
theorem unique {q r : ForwardedParameter} (hq : q.IsWritten P) (hr : r.IsWritten P)
    (hqc : q.IsClosed) (hrc : r.IsClosed) {x y : List Char} (hx : EndsDefault x)
    (hy : EndsDefault y) (h : q.declaration.toList ++ x = r.declaration.toList ++ y) :
    q = r ∧ x = y := by
  rw [toList_declaration, toList_declaration, List.append_assoc, List.append_assoc] at h
  have hcons : ∀ q : ForwardedParameter, ∃ w ws, q.words.map String.toList = w :: ws := fun q =>
    List.exists_cons_of_ne_nil (by simp [words])
  obtain ⟨w, ws, hws⟩ := hcons q
  obtain ⟨v, vs, hvs⟩ := hcons r
  have hqw := hq.solid_words
  have hrw := hr.solid_words
  rw [hws, hvs] at h
  rw [hws] at hqw
  rw [hvs] at hrw
  obtain ⟨hwords, hrest⟩ := cut_words hqw hrw (q.endsWords_defaultPart hx)
    (r.endsWords_defaultPart hy) h
  obtain ⟨hdefault, hend⟩ := defaultPart_unique hqc hrc hx hy hrest
  rw [← hws, ← hvs] at hwords
  have hlist : q.words = r.words := List.map_injective_iff.mpr (fun _ _ => String.toList_injective) hwords
  obtain ⟨hmodifiers, hpair⟩ := List.append_inj' hlist rfl
  simp only [List.cons.injEq, and_true] at hpair
  refine ⟨?_, hend⟩
  cases q
  cases r
  simp_all

theorem IsWritten.ne_paren {q : ForwardedParameter} (h : q.IsWritten P) {x y : List Char} :
    q.declaration.toList ++ x ≠ ')' :: y := by
  obtain ⟨w, ws, hws⟩ : ∃ w ws, q.words.map String.toList = w :: ws :=
    List.exists_cons_of_ne_nil (by simp [words])
  have hw := h.solid_words
  rw [hws] at hw
  have hsolid := hw w List.mem_cons_self
  rw [toList_declaration, hws, intercalate_cons_eq]
  intro heq
  cases w with
  | nil =>
    obtain ⟨c, hc, -⟩ := hsolid.head
    cases hc
  | cons c w =>
    obtain rfl := (List.cons.inj heq).1
    exact nomatch hsolid.balanced 0

/-- What stands after the first of some parameters. -/
def rest (qs : List ForwardedParameter) : List Char :=
  qs.flatMap fun q => ',' :: q.declaration.toList

theorem endsDefault_rest (qs : List ForwardedParameter) (x : List Char) :
    EndsDefault (rest qs ++ ')' :: x) := by
  cases qs with
  | nil => exact ⟨')', x, rfl, Or.inr rfl⟩
  | cons q qs => exact ⟨',', _, rfl, Or.inl rfl⟩

theorem toList_intercalate_cons (q : ForwardedParameter) (qs : List ForwardedParameter) :
    (",".intercalate ((q :: qs).map declaration)).toList = q.declaration.toList ++ rest qs := by
  rw [String.toList_intercalate, List.map_cons, List.map_cons, intercalate_cons_eq, rest,
    List.map_map, List.flatMap_map]
  rfl

theorem rest_unique {qs rs : List ForwardedParameter} (hq : ∀ q ∈ qs, q.IsWritten P)
    (hr : ∀ r ∈ rs, r.IsWritten P) (hqc : ∀ q ∈ qs, q.IsClosed) (hrc : ∀ r ∈ rs, r.IsClosed)
    {x y : List Char} (h : rest qs ++ ')' :: x = rest rs ++ ')' :: y) : qs = rs ∧ x = y := by
  induction qs generalizing rs with
  | nil =>
    cases rs with
    | nil => exact ⟨rfl, by simpa [rest] using h⟩
    | cons r rs => simp [rest] at h
  | cons q qs ih =>
    cases rs with
    | nil => simp [rest] at h
    | cons r rs =>
      have h' : q.declaration.toList ++ (rest qs ++ ')' :: x) =
          r.declaration.toList ++ (rest rs ++ ')' :: y) := by
        simpa [rest] using h
      obtain ⟨rfl, hrest⟩ := unique (hq q List.mem_cons_self) (hr r List.mem_cons_self)
        (hqc q List.mem_cons_self) (hrc r List.mem_cons_self) (endsDefault_rest qs x)
        (endsDefault_rest rs y) h'
      obtain ⟨rfl, hxy⟩ := ih (fun p hp => hq p (List.mem_cons_of_mem _ hp))
        (fun p hp => hr p (List.mem_cons_of_mem _ hp))
        (fun p hp => hqc p (List.mem_cons_of_mem _ hp))
        (fun p hp => hrc p (List.mem_cons_of_mem _ hp)) hrest
      exact ⟨rfl, hxy⟩

/-- **The parameters between parentheses can be told from what follows them.** -/
theorem list_unique {qs rs : List ForwardedParameter} (hq : ∀ q ∈ qs, q.IsWritten P)
    (hr : ∀ r ∈ rs, r.IsWritten P) (hqc : ∀ q ∈ qs, q.IsClosed) (hrc : ∀ r ∈ rs, r.IsClosed)
    {x y : List Char}
    (h : (",".intercalate (qs.map declaration)).toList ++ ')' :: x =
      (",".intercalate (rs.map declaration)).toList ++ ')' :: y) : qs = rs ∧ x = y := by
  cases qs with
  | nil =>
    cases rs with
    | nil => exact ⟨rfl, by simpa using h⟩
    | cons r rs =>
      rw [toList_intercalate_cons, List.append_assoc] at h
      exact absurd h.symm (hr r List.mem_cons_self).ne_paren
  | cons q qs =>
    cases rs with
    | nil =>
      rw [toList_intercalate_cons, List.append_assoc] at h
      exact absurd h (hq q List.mem_cons_self).ne_paren
    | cons r rs =>
      refine rest_unique hq hr hqc hrc ?_
      rw [toList_intercalate_cons, toList_intercalate_cons, List.append_assoc,
        List.append_assoc] at h
      simpa [rest] using h

end ForwardedParameter

/-! ## Methods -/

namespace ForwardedMethod

variable {P : String → Prop}

/-- The name of the method with its type parameters. -/
def fullName (m : ForwardedMethod) : String := m.name ++ m.genericSuffix

/-- The word for what the method returns. -/
def returnWord (m : ForwardedMethod) : String := if m.returnsVoid then "~" else m.returnType

/-- The constraint clauses of the method. -/
def clauses (m : ForwardedMethod) : String := " ".intercalate m.constraintClauses

theorem toList_signature (m : ForwardedMethod) :
    m.signature.toList = m.fullName.toList ++ '(' ::
      ((",".intercalate (m.parameters.map ForwardedParameter.declaration)).toList ++ ')' ::
        ('-' :: '>' :: (m.returnWord.toList ++ ' ' :: m.clauses.toList))) := by
  simp [signature, fullName, returnWord, clauses]

theorem call_eq (m : ForwardedMethod) : m.call = accessorName ++ "()." ++ m.fullName ++ "(" ++
    commaSeparated (m.parameters.map ForwardedParameter.argument) ++ ");" := by
  have hname : accessorName ++ "()." ++ m.name ++ m.genericSuffix =
      accessorName ++ "()." ++ m.fullName := String.append_assoc
  rw [call, hname]

theorem header_eq (m : ForwardedMethod) : m.header =
    let head := "public " ++ m.returnType ++ " " ++ m.fullName ++ "(" ++
      commaSeparated (m.parameters.map ForwardedParameter.declaration) ++ ")"
    if m.constraintClauses.isEmpty then head else head ++ " " ++ m.clauses := by
  have hname : "public " ++ m.returnType ++ " " ++ m.name ++ m.genericSuffix =
      "public " ++ m.returnType ++ " " ++ m.fullName := String.append_assoc
  rw [← hname]
  rfl

theorem code_eq {m n : ForwardedMethod} (hname : m.fullName = n.fullName)
    (hparameters : m.parameters = n.parameters) (hvoid : m.returnsVoid = n.returnsVoid)
    (hreturn : m.returnType = n.returnType) (hclauses : m.clauses = n.clauses)
    (hempty : m.constraintClauses.isEmpty = n.constraintClauses.isEmpty) : m.code = n.code := by
  have hcall : m.call = n.call := by rw [call_eq, call_eq, hname, hparameters]
  have hheader : m.header = n.header := by
    rw [header_eq, header_eq, hname, hparameters, hreturn, hclauses, hempty]
  rw [code, code, hcall, hheader, hvoid]

theorem IsWritten.fullName_without {m : ForwardedMethod} (h : m.IsWritten P) :
    Without (· = '(') m.fullName.toList := by
  have hword : isWord '(' = false := by decide
  rw [fullName, genericSuffix, String.toList_append, without_append]
  refine ⟨h.name.without hword (by decide), without_withArguments (fun c hc => ?_) (fun n hn => ?_)
    (by decide)⟩
  · exact absurd hc (by simp)
  · exact (h.typeParameters n hn).without hword (by decide)

theorem IsWritten.returnWord_balanced {m : ForwardedMethod} (h : m.IsWritten P) :
    Balanced m.returnWord.toList := by
  unfold returnWord
  split_ifs
  · exact balanced_of_signs (by decide)
  · exact h.returnType.solid.balanced

theorem returnWord_unique {m n : ForwardedMethod} (hm : m.IsWritten P) (hn : n.IsWritten P)
    (h : m.returnWord = n.returnWord) : m.returnsVoid = n.returnsVoid ∧ m.returnType = n.returnType := by
  have hne : ∀ {s : String}, TypeText s → s ≠ "~" := by
    rintro s hs rfl
    obtain ⟨c, hc, hne, -⟩ := hs.solid.head
    exact hne (Option.some.inj hc).symm
  unfold returnWord at h
  cases hmv : m.returnsVoid with
  | true =>
    cases hnv : n.returnsVoid with
    | true => exact ⟨rfl, (hm.returnsVoid hmv).trans (hn.returnsVoid hnv).symm⟩
    | false => exact absurd (by simpa [hmv, hnv] using h.symm) (hne hn.returnType)
  | false =>
    cases hnv : n.returnsVoid with
    | true => exact absurd (by simpa [hmv, hnv] using h) (hne hm.returnType)
    | false => exact ⟨rfl, by simpa [hmv, hnv] using h⟩

theorem clauseText_without {c : ConstraintClause} (h : c.IsWritten) :
    Without (· = '\x00') c.text.toList := by
  have hword : isWord '\x00' = false := by decide
  have hspecial : ∀ t ∈ specialConstraints, Without (· = '\x00') t.toList := by
    decide
  have hitems : Without (· = '\x00')
      ([',', ' '].intercalate ((c.constraints.map ConstraintSyntax.text).map String.toList)) := by
    refine without_intercalate (by decide) fun a ha => ?_
    obtain ⟨t, ht, rfl⟩ := List.mem_map.mp ha
    obtain ⟨k, hk, rfl⟩ := List.mem_map.mp ht
    have hwritten := h.constraints k hk
    cases k with
    | special t => exact hspecial t hwritten
    | type t => exact TypeText.no_null ⟨t, hwritten, rfl⟩
  simp only [ConstraintClause.text, commaSeparated, String.toList_append, String.toList_intercalate,
    without_append]
  have hwhere : Without (· = '\x00') "where ".toList ∧ Without (· = '\x00') " : ".toList := by
    decide
  exact ⟨⟨⟨hwhere.1, h.typeParameter.without hword (by decide)⟩, hwhere.2⟩, hitems⟩

theorem IsWritten.clauses_without {m : ForwardedMethod} (h : m.IsWritten P) :
    Without (· = '\x00') m.clauses.toList := by
  rw [clauses, String.toList_intercalate]
  refine without_intercalate (by decide) fun a ha => ?_
  obtain ⟨c, hc, rfl⟩ := List.mem_map.mp ha
  obtain ⟨clause, hclause, rfl⟩ := h.constraintClauses c hc
  exact clauseText_without hclause

theorem IsWritten.clauses_eq_empty {m : ForwardedMethod} (h : m.IsWritten P) :
    m.clauses = "" ↔ m.constraintClauses.isEmpty := by
  rw [List.isEmpty_iff]
  constructor
  · intro hempty
    cases hcs : m.constraintClauses with
    | nil => rfl
    | cons c cs =>
      obtain ⟨clause, -, rfl⟩ := h.constraintClauses c (by rw [hcs]; exact List.mem_cons_self)
      have hlist := congrArg String.toList hempty
      rw [clauses, hcs, String.toList_intercalate, List.map_cons, intercalate_cons_eq] at hlist
      simp [ConstraintClause.text] at hlist
  · intro hnil
    rw [clauses, hnil]
    rfl

/-- **A method can be told from what follows it.** -/
theorem unique {m n : ForwardedMethod} (hm : m.IsWritten P) (hn : n.IsWritten P)
    (hmc : ∀ q ∈ m.parameters, q.IsClosed) (hnc : ∀ q ∈ n.parameters, q.IsClosed)
    {x y : List Char}
    (h : m.signature.toList ++ '\x00' :: x = n.signature.toList ++ '\x00' :: y) :
    m.code = n.code ∧ x = y := by
  rw [toList_signature, toList_signature] at h
  simp only [List.append_assoc, List.cons_append] at h
  obtain ⟨hname, -, h⟩ := cut_at hm.fullName_without hn.fullName_without rfl rfl h
  obtain ⟨hparameters, h⟩ := ForwardedParameter.list_unique hm.parameters hn.parameters hmc hnc h
  obtain ⟨hreturn, -, h⟩ := cut_balanced hm.returnWord_balanced hn.returnWord_balanced (Or.inl rfl)
    (Or.inl rfl) (List.cons.inj (List.cons.inj h).2).2
  obtain ⟨hclauses, -, hrest⟩ := cut_at hm.clauses_without hn.clauses_without rfl rfl h
  obtain ⟨hvoid, htype⟩ := returnWord_unique hm hn (String.toList_injective hreturn)
  have htext := String.toList_injective hclauses
  refine ⟨code_eq (String.toList_injective hname) hparameters hvoid htype htext ?_, hrest⟩
  rw [Bool.eq_iff_iff, ← hm.clauses_eq_empty, ← hn.clauses_eq_empty, htext]

end ForwardedMethod

/-! ## Interfaces -/

theorem toList_nullEnded (ts : List String) :
    (nullEnded ts).toList = ts.flatMap fun t => t.toList ++ ['\x00'] := by
  simp [nullEnded, String.toList_join, List.flatMap_map]

namespace Target

variable {P : String → Prop}

theorem methods_unique {ms ns : List ForwardedMethod} (hm : ∀ m ∈ ms, m.IsWritten P)
    (hn : ∀ n ∈ ns, n.IsWritten P) (hmc : ∀ m ∈ ms, ∀ q ∈ m.parameters, q.IsClosed)
    (hnc : ∀ n ∈ ns, ∀ q ∈ n.parameters, q.IsClosed)
    (h : (nullEnded (ms.map ForwardedMethod.signature)).toList =
      (nullEnded (ns.map ForwardedMethod.signature)).toList) :
    ms.map ForwardedMethod.code = ns.map ForwardedMethod.code := by
  simp only [toList_nullEnded, List.flatMap_map] at h
  induction ms generalizing ns with
  | nil =>
    cases ns with
    | nil => rfl
    | cons n ns => simp at h
  | cons m ms ih =>
    cases ns with
    | nil => simp at h
    | cons n ns =>
      simp only [List.flatMap_cons, List.append_assoc, List.cons_append, List.nil_append] at h
      obtain ⟨hcode, hrest⟩ := ForwardedMethod.unique (hm m List.mem_cons_self)
        (hn n List.mem_cons_self) (hmc m List.mem_cons_self) (hnc n List.mem_cons_self) h
      have htail := ih (fun k hk => hm k (List.mem_cons_of_mem _ hk))
        (fun k hk => hn k (List.mem_cons_of_mem _ hk))
        (fun k hk => hmc k (List.mem_cons_of_mem _ hk))
        (fun k hk => hnc k (List.mem_cons_of_mem _ hk)) hrest
      rw [List.map_cons, List.map_cons, hcode, htail]

theorem import_without {u : UsingDirective} (h : u.target.IsWritten) (hglobal : u.isGlobal = false) :
    Without (· = '\x00') u.text.toList ∧ u.text.toList.head? = some 'u' := by
  have hword : isWord '\x00' = false := by decide
  have hparts : Without (· = '\x00') "using ".toList ∧ Without (· = '\x00') "static ".toList ∧
      Without (· = '\x00') " = ".toList ∧ Without (· = '\x00') ";".toList := by
    decide
  obtain ⟨husing, hstatic, hequals, hend⟩ := hparts
  refine ⟨?_, by simp [UsingDirective.text, hglobal]⟩
  simp only [UsingDirective.text, hglobal, Bool.false_eq_true, if_false, String.toList_append,
    without_append]
  refine ⟨husing, ?_⟩
  cases htarget : u.target with
  | space n =>
    rw [htarget] at h
    simp only [String.toList_append, without_append]
    exact ⟨dotted_without h hword (by decide) (by decide), hend⟩
  | membersOf n =>
    rw [htarget] at h
    simp only [String.toList_append, without_append]
    exact ⟨⟨hstatic, dotted_without h hword (by decide) (by decide)⟩, hend⟩
  | «alias» n t =>
    rw [htarget] at h
    simp only [String.toList_append, without_append]
    exact ⟨⟨⟨h.1.without hword (by decide), hequals⟩, TypeText.no_null ⟨t, h.2, rfl⟩⟩, hend⟩

theorem imports_unique {is js : List String}
    (hi : ∀ i ∈ is, Without (· = '\x00') i.toList ∧ i.toList.head? = some 'u')
    (hj : ∀ j ∈ js, Without (· = '\x00') j.toList ∧ j.toList.head? = some 'u') {x y : List Char}
    (h : (nullEnded is).toList ++ 'M' :: x = (nullEnded js).toList ++ 'M' :: y) :
    is = js ∧ x = y := by
  have hne : ∀ {i : String} {u v : List Char}, i.toList.head? = some 'u' →
      i.toList ++ u ≠ 'M' :: v := by
    intro i u v hhead heq
    obtain ⟨w, hw⟩ := List.head?_eq_some_iff.mp hhead
    rw [hw, List.cons_append] at heq
    exact absurd (List.cons.inj heq).1 (by decide)
  simp only [toList_nullEnded] at h
  induction is generalizing js with
  | nil =>
    cases js with
    | nil => exact ⟨rfl, by simpa using h⟩
    | cons j js =>
      rw [List.flatMap_cons, List.append_assoc, List.append_assoc] at h
      exact absurd h.symm (hne (hj j List.mem_cons_self).2)
  | cons i is ih =>
    cases js with
    | nil =>
      rw [List.flatMap_cons, List.append_assoc, List.append_assoc] at h
      exact absurd h (hne (hi i List.mem_cons_self).2)
    | cons j js =>
      simp only [List.flatMap_cons, List.append_assoc, List.cons_append, List.nil_append] at h
      obtain ⟨hij, -, hrest⟩ := cut_at (hi i List.mem_cons_self).1 (hj j List.mem_cons_self).1
        rfl rfl h
      obtain ⟨rfl, hxy⟩ := ih (fun k hk => hi k (List.mem_cons_of_mem _ hk))
        (fun k hk => hj k (List.mem_cons_of_mem _ hk)) hrest
      exact ⟨by rw [String.toList_injective hij], hxy⟩

theorem displayName_unique {s t : String} (hs : TypeText s) (ht : TypeText t) {x y : List Char}
    (h : s.toList ++ "IMPORTS:".toList ++ x = t.toList ++ "IMPORTS:".toList ++ y) :
    s = t ∧ x = y := by
  have hapart : ∀ {s : String}, TypeText s →
      (s.toList ++ "IMPORTS".toList).IsChain (fun c d => d = ':' → c ≠ 'S') := fun hs =>
    (hs.apart.append (apart_of_no_colon (by decide))).1
  have hend : ∀ s : String,
      ¬ (s.toList ++ "IMPORTS".toList ++ [':']).IsChain (fun c d => d = ':' → c ≠ 'S') := by
    intro s hchain
    simp [List.isChain_append] at hchain
  have h' : (s.toList ++ "IMPORTS".toList) ++ ':' :: x =
      (t.toList ++ "IMPORTS".toList) ++ ':' :: y := by
    simpa using h
  obtain ⟨htext, hrest⟩ := cut_chain (hapart hs) (hapart ht) (hend s) (hend t) h'
  exact ⟨String.toList_injective (List.append_cancel_right htext), hrest⟩

/-- **What a facade depends on in an interface can be told from its fingerprinted text.** -/
theorem code_eq_of_stream {t u : Target} (ht : t.IsWritten P) (hu : u.IsWritten P)
    (htc : t.IsClosed) (huc : u.IsClosed) (h : t.stream.toList = u.stream.toList) :
    t.displayName = u.displayName ∧ t.imports = u.imports ∧
      t.methods.map ForwardedMethod.code = u.methods.map ForwardedMethod.code := by
  have hlist : ∀ t : Target, t.stream.toList = "TARGET:".toList ++ (t.displayName.toList ++
      "IMPORTS:".toList ++ ((nullEnded t.imports).toList ++ 'M' :: ("ETHODS:".toList ++
        (nullEnded (t.methods.map ForwardedMethod.signature)).toList))) := fun t => by
    simp [stream]
  rw [hlist, hlist] at h
  obtain ⟨hname, h⟩ := displayName_unique ht.displayName hu.displayName
    (List.append_cancel_left h)
  have himports : ∀ {t : Target}, t.IsWritten P → ∀ i ∈ t.imports,
      Without (· = '\x00') i.toList ∧ i.toList.head? = some 'u' := by
    intro t ht i hi
    obtain ⟨d, hd, hglobal, rfl⟩ := ht.imports i hi
    exact import_without hd hglobal
  obtain ⟨himports', h⟩ := imports_unique (himports ht) (himports hu) h
  exact ⟨hname, himports', methods_unique ht.methods hu.methods htc huc
    (List.append_cancel_left h)⟩

end Target

/-! ## Containers -/

namespace Container

/-- The types around a container in a fingerprinted text. -/
def outerStream (os : List (String × String)) : List Char :=
  os.flatMap fun o => "OUTER:".toList ++ (o.1.toList ++ ':' :: o.2.toList)

/-- No colon stands in the keyword and the heading. -/
def OuterWithout (o : String × String) : Prop :=
  Without (· = ':') o.1.toList ∧ Without (· = ':') o.2.toList

theorem outer_unique {os us : List (String × String)} (ho : ∀ o ∈ os, OuterWithout o)
    (hu : ∀ u ∈ us, OuterWithout u) {s t x y : List Char} (hs : Without (· = ':') s)
    (ht : Without (· = ':') t)
    (h : s ++ (outerStream os ++ ("TARGET:".toList ++ x)) =
      t ++ (outerStream us ++ ("TARGET:".toList ++ y))) : s = t ∧ os = us ∧ x = y := by
  have hword : Without (· = ':') "OUTER".toList ∧ Without (· = ':') "TARGET".toList := by
    decide
  have hmark : ∀ {s w : List Char}, Without (· = ':') s → Without (· = ':') w →
      Without (· = ':') (s ++ w) := fun hs hw => without_append.mpr ⟨hs, hw⟩
  induction os generalizing us s t with
  | nil =>
    cases us with
    | nil =>
      have h' : (s ++ "TARGET".toList) ++ ':' :: x = (t ++ "TARGET".toList) ++ ':' :: y := by
        simpa [outerStream] using h
      obtain ⟨hst, -, hxy⟩ := cut_at (hmark hs hword.2) (hmark ht hword.2) rfl rfl h'
      exact ⟨List.append_cancel_right hst, rfl, hxy⟩
    | cons u us =>
      have h' : (s ++ "TARGET".toList) ++ ':' :: x = (t ++ "OUTER".toList) ++ ':' ::
          (u.1.toList ++ ':' :: (u.2.toList ++ (outerStream us ++ ("TARGET:".toList ++ y)))) := by
        simpa [outerStream] using h
      obtain ⟨hst, -, -⟩ := cut_at (hmark hs hword.2) (hmark ht hword.1) rfl rfl h'
      have hlast := congrArg List.getLast? hst
      simp at hlast
  | cons o os ih =>
    have hcons : ∀ (o : String × String) (os : List (String × String)) (s z : List Char),
        s ++ (outerStream (o :: os) ++ z) = (s ++ "OUTER".toList) ++ ':' ::
          (o.1.toList ++ ':' :: (o.2.toList ++ (outerStream os ++ z))) := by
      intro o os s z
      simp [outerStream]
    rw [hcons] at h
    cases us with
    | nil =>
      have h' : (s ++ "OUTER".toList) ++ ':' ::
          (o.1.toList ++ ':' :: (o.2.toList ++ (outerStream os ++ ("TARGET:".toList ++ x)))) =
            (t ++ "TARGET".toList) ++ ':' :: y := by
        rw [h]
        simp [outerStream]
      obtain ⟨hst, -, -⟩ := cut_at (hmark hs hword.1) (hmark ht hword.2) rfl rfl h'
      have hlast := congrArg List.getLast? hst
      simp at hlast
    | cons u us =>
      rw [hcons] at h
      obtain ⟨hst, -, h⟩ := cut_at (hmark hs hword.1) (hmark ht hword.1) rfl rfl h
      obtain ⟨hkeyword, -, h⟩ := cut_at (ho o List.mem_cons_self).1 (hu u List.mem_cons_self).1
        rfl rfl h
      obtain ⟨hheading, rfl, hxy⟩ := ih (fun p hp => ho p (List.mem_cons_of_mem _ hp))
        (fun p hp => hu p (List.mem_cons_of_mem _ hp)) (ho o List.mem_cons_self).2
        (hu u List.mem_cons_self).2 h
      refine ⟨List.append_cancel_right hst, ?_, hxy⟩
      rw [Prod.ext (String.toList_injective hkeyword) (String.toList_injective hheading)]

theorem keyword_without {form : TypeForm} : Without (· = ':') form.keyword.toList := by
  cases form with
  | recordForm isStruct => cases isStruct <;> decide
  | _ => simp only [TypeForm.keyword]; decide

theorem heading_without {n : String} (hn : Named n) {as : List String} (has : ∀ a ∈ as, Named a)
    {c : Char} (hc : isWord c = false) (hat : c ≠ '@') (hsigns : c ∉ ['<', ',', ' ', '>']) :
    Without (· = c) (withArguments n as).toList :=
  without_withArguments (hn.without hc hat) (fun a ha => (has a ha).without hc hat) hsigns

theorem name_of_displayName {n m : String} (hn : Named n) (hm : Named m) {as bs : List String}
    (h : withArguments n as = withArguments m bs) : n = m := by
  have hname : ∀ {n : String} {as : List String}, Named n →
      (withArguments n as).toList.takeWhile (· != '<') = n.toList := by
    intro n as hn
    have hall : ∀ c ∈ n.toList, (c != '<') = true := fun c hc => by
      have hne := hn.without (c := '<') (by decide) (by decide) c hc
      simpa using hne
    unfold withArguments
    split_ifs
    · exact List.takeWhile_eq_self_iff.mpr hall
    · simp [List.takeWhile_append_of_pos hall]
  refine String.toList_injective ?_
  rw [← hname hn, ← hname hm, h]

theorem IsWritten.outer {c : Container} (h : c.IsWritten) : ∀ o ∈ c.outerTypes, OuterWithout o := by
  intro o ho
  obtain ⟨head, hhead, rfl⟩ := h.outerTypes o ho
  refine ⟨keyword_without, heading_without hhead.name (fun a ha => ?_) (by decide)
    (by decide) (by decide)⟩
  obtain ⟨q, hq, rfl⟩ := List.mem_map.mp ha
  exact hhead.typeParameters q hq

theorem IsWritten.space_without {c : Container} (h : c.IsWritten) :
    Without (· = ':') (c.space.getD "").toList := by
  cases hspace : c.space with
  | none => exact fun d hd => absurd hd (by simp)
  | some s => exact dotted_without (h.space s hspace) (by decide) (by decide) (by decide)

theorem code_injective {a b : Accessibility} (h : a.code = b.code) : a = b := by
  revert h
  cases a <;> cases b <;> decide

/-- What a facade depends on in a container. -/
structure Alike (c d : Container) : Prop where
  name : c.name = d.name
  keyword : c.keyword = d.keyword
  displayName : c.displayName = d.displayName
  accessibility : c.accessibility = d.accessibility
  space : c.space.getD "" = d.space.getD ""
  outerTypes : c.outerTypes = d.outerTypes

/-- A fingerprinted text begins with a keyword before a colon, and goes on with a name and a level of
access before an equals sign. -/
theorem toList_stream_append (c : Container) (z : List Char) : c.stream.toList ++ z =
    "CONTAINER:".toList ++ (c.keyword.toList ++ ':' ::
      ((c.displayName.toList ++ ('@' :: c.accessibility.code.toList ++ "ns".toList)) ++ '=' ::
        ((c.space.getD "").toList ++ (outerStream c.outerTypes ++ z)))) := by
  unfold stream outerStream
  simp only [String.toList_append, String.toList_join, List.flatMap_map, List.append_assoc,
    List.cons_append]
  rfl

/-- **What a facade depends on in a container can be told from its fingerprinted text**, and so can
what follows. -/
theorem alike_of_stream {c d : Container} (hc : c.IsWritten) (hd : d.IsWritten) {x y : List Char}
    (h : c.stream.toList ++ ("TARGET:".toList ++ x) = d.stream.toList ++ ("TARGET:".toList ++ y)) :
    c.Alike d ∧ x = y := by
  rw [toList_stream_append, toList_stream_append] at h
  have hkeyword : ∀ {c : Container}, c.IsWritten → Without (· = ':') c.keyword.toList := by
    intro c hc
    obtain ⟨form, hform⟩ := hc.keyword
    exact hform ▸ keyword_without
  have hname : ∀ {c : Container}, c.IsWritten → Without (· = '=') c.displayName.toList :=
    fun hc => heading_without hc.name hc.typeParameters (by decide) (by decide) (by decide)
  have hcode : ∀ a : Accessibility, Without (· = '=') ('@' :: a.code.toList ++ "ns".toList) ∧
      Without (· = '@') a.code.toList := by
    intro a
    cases a <;> decide
  obtain ⟨hkeyword', -, h⟩ := cut_at (hkeyword hc) (hkeyword hd) rfl rfl
    (List.append_cancel_left h)
  obtain ⟨hleft, -, h⟩ := cut_at (without_append.mpr ⟨hname hc, (hcode c.accessibility).1⟩)
    (without_append.mpr ⟨hname hd, (hcode d.accessibility).1⟩) rfl rfl h
  rw [← List.append_assoc, ← List.append_assoc] at hleft
  obtain ⟨hdisplay, -, haccess⟩ := cut_at_last (hcode c.accessibility).2 (hcode d.accessibility).2
    rfl rfl (List.append_cancel_right hleft)
  obtain ⟨hspace, houter, hrest⟩ := outer_unique hc.outer hd.outer hc.space_without
    hd.space_without h
  have hdisplay' := String.toList_injective hdisplay
  exact ⟨⟨name_of_displayName hc.name hd.name hdisplay', String.toList_injective hkeyword',
    hdisplay', code_injective (String.toList_injective haccess), String.toList_injective hspace,
    houter⟩, hrest⟩

end Container

end Facade
