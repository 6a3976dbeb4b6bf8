import Mathlib.Tactic.Common
import Facade.Cache.Manifest
import Facade.Proofs.Text.Encoding

/-!
# Manifests as they are read back

A manifest that was written is read back as what it says, so that a cache knows its own manifest and
that of no other directory.

* `Json.readString_quoted`: a quoted string is read back as its code units, which it is known by;
* `Manifest.parse_text`: what a manifest is read back as;
* `Manifest.agrees_of_parse_text`: which caches it agrees with.
-/

namespace Facade

namespace Text

theorem digits_four {n : Nat} (h : n < 65536) :
    (hexDigits 4 n).toList = [(n / 4096).digitChar, (n / 256 % 16).digitChar,
      (n / 16 % 16).digitChar, (n % 16).digitChar] := by
  have hstep : ∀ m, ¬ m < 16 → Nat.toDigits 16 m = Nat.toDigits 16 (m / 16) ++ [(m % 16).digitChar] :=
    fun m hm => Nat.toDigits_of_base_le (by decide) (by omega)
  have hlast : ∀ m, m < 16 → Nat.toDigits 16 m = [m.digitChar] :=
    fun m hm => Nat.toDigits_of_lt_base hm
  have hzero : Nat.digitChar 0 = '0' := rfl
  simp only [hexDigits, String.toList_ofList]
  by_cases h1 : n < 16
  · rw [hlast n h1]
    have e1 : n / 4096 = 0 := by omega
    have e2 : n / 256 % 16 = 0 := by omega
    have e3 : n / 16 % 16 = 0 := by omega
    have e4 : n % 16 = n := by omega
    rw [e1, e2, e3, e4]
    rfl
  by_cases h2 : n / 16 < 16
  · rw [hstep n h1, hlast _ h2]
    have e1 : n / 4096 = 0 := by omega
    have e2 : n / 256 % 16 = 0 := by omega
    have e3 : n / 16 % 16 = n / 16 := by omega
    rw [e1, e2, e3]
    rfl
  by_cases h3 : n / 16 / 16 < 16
  · rw [hstep n h1, hstep _ h2, hlast _ h3]
    have e1 : n / 4096 = 0 := by omega
    have e2 : n / 256 % 16 = n / 16 / 16 := by omega
    rw [e1, e2]
    rfl
  · have h4 : n / 16 / 16 / 16 < 16 := by omega
    rw [hstep n h1, hstep _ h2, hstep _ h3, hlast _ h4]
    have e1 : n / 4096 = n / 16 / 16 / 16 := by omega
    have e2 : n / 256 % 16 = n / 16 / 16 % 16 := by omega
    rw [e1, e2]
    rfl

end Text

namespace Json

/-! ## Quoted strings -/

theorem hexValue?_digitChar : ∀ n, n < 16 → hexValue? n.digitChar = some n := by decide

theorem hexNumber?_digitChar {a b c d : Nat} (ha : a < 16) (hb : b < 16) (hc : c < 16)
    (hd : d < 16) : hexNumber? a.digitChar b.digitChar c.digitChar d.digitChar =
      some (((a * 16 + b) * 16 + c) * 16 + d) := by
  simp [hexNumber?, hexValue?_digitChar, ha, hb, hc, hd]

theorem readString_unitEscape {n : Nat} (h : n < 65536) (rest : List Char) :
    readString (unitEscape n ++ rest) = (readString rest).map fun r => (n :: r.1, r.2) := by
  rw [unitEscape, Text.digits_four h]
  simp only [List.cons_append, List.nil_append, readString]
  rw [hexNumber?_digitChar (by omega) (by omega) (by omega) (by omega)]
  have hn : ((n / 4096 * 16 + n / 256 % 16) * 16 + n / 16 % 16) * 16 + n % 16 = n := by omega
  rw [hn]
  cases readString rest <;> rfl

theorem unitsOf_lt {c : Char} : ∀ n ∈ unitsOf c, n < 65536 := by
  intro n hn
  have hc : c.toNat < 0x110000 := by
    have hvalid := c.valid
    simp only [UInt32.isValidChar, Nat.isValidChar] at hvalid
    change c.toNat < 0xd800 ∨ _ < c.toNat ∧ c.toNat < 0x110000 at hvalid
    omega
  unfold unitsOf at hn
  split_ifs at hn
  · simp at hn; omega
  · simp at hn; omega

theorem readString_units {ns : List Nat} (h : ∀ n ∈ ns, n < 65536) (rest : List Char) :
    readString (ns.flatMap unitEscape ++ rest) =
      (readString rest).map fun r => (ns ++ r.1, r.2) := by
  induction ns with
  | nil => simp
  | cons n ns ih =>
    rw [List.flatMap_cons, List.append_assoc, readString_unitEscape (h n List.mem_cons_self),
      ih fun m hm => h m (List.mem_cons_of_mem _ hm), Option.map_map]
    rfl

theorem readString_escape (c : Char) (rest : List Char) :
    readString (escape c ++ rest) = (readString rest).map fun r => (unitsOf c ++ r.1, r.2) := by
  have hletter : ∀ (e : Char) (n : Nat), e ≠ 'u' → unescape? e = some n →
      readString ('\\' :: e :: rest) = (readString rest).map fun r => (n :: r.1, r.2) := by
    intro e n he hn
    rw [readString]
    · rw [hn]
      cases readString rest <;> rfl
    · rintro a b c d more h -
      exact he h
  unfold escape
  split_ifs with h1 h2 h3 h4 h5 h6 h7 h8
  · subst h1; exact hletter '"' 34 (by decide) rfl
  · subst h2; exact hletter '\\' 92 (by decide) rfl
  · subst h3; exact hletter 'n' 10 (by decide) rfl
  · subst h4; exact hletter 'r' 13 (by decide) rfl
  · subst h5; exact hletter 't' 9 (by decide) rfl
  · have hu : unitsOf c = [8] := by simp [unitsOf, h6]
    rw [hu]; exact hletter 'b' 8 (by decide) rfl
  · have hu : unitsOf c = [12] := by simp [unitsOf, h7]
    rw [hu]; exact hletter 'f' 12 (by decide) rfl
  · simp only [Bool.and_eq_true, decide_eq_true_eq] at h8
    rw [List.cons_append, List.nil_append, readString]
    · rw [if_neg (by omega)]
      cases readString rest <;> rfl
    · exact h1
    · exact fun _ _ _ _ _ hr => absurd hr h2
    · exact fun _ _ hr => absurd hr h2
  · exact readString_units (fun n => unitsOf_lt n) rest

/-- **A quoted string is read back** as its code units. -/
theorem readString_quoted (s : String) (rest : List Char) :
    readString (s.toList.flatMap escape ++ '"' :: rest) = some (codeUnits s, rest) := by
  unfold codeUnits
  induction s.toList with
  | nil => simp [readString]
  | cons c cs ih =>
    rw [List.flatMap_cons, List.append_assoc, readString_escape, ih]
    rfl

theorem toList_quote (s : String) : (quote s).toList = '"' :: (s.toList.flatMap escape ++ ['"']) := by
  simp [quote]

theorem readValue_quote (n : Nat) (s : String) (rest : List Char) :
    readValue (n + 1) ((quote s).toList ++ rest) = some (string (codeUnits s), rest) := by
  rw [toList_quote, List.cons_append, List.append_assoc, readValue]
  simp [readString_quoted]

/-! ## Fields -/

section

variable {n : Nat} (name : String) {value : Json} {text rest after : List Char}
  (hvalue : readValue n text = some (value, rest)) (htext : skipSpace (' ' :: text) = text)

include hvalue htext

theorem readFields_last (hrest : skipSpace rest = '\x7d' :: after) :
    readFields (n + 1) ((quote name).toList ++ ':' :: ' ' :: text) =
      some ([(codeUnits name, value)], after) := by
  have hcolon : skipSpace (':' :: ' ' :: text) = ':' :: ' ' :: text := by
    simp [skipSpace, isSpace]
  rw [toList_quote, List.cons_append, List.append_assoc, readFields]
  simp [readString_quoted, hcolon, htext, hvalue, hrest]

theorem readFields_more (hrest : skipSpace rest = ',' :: after) :
    readFields (n + 1) ((quote name).toList ++ ':' :: ' ' :: text) =
      (readFields n (skipSpace after)).map fun r => ((codeUnits name, value) :: r.1, r.2) := by
  have hcolon : skipSpace (':' :: ' ' :: text) = ':' :: ' ' :: text := by
    simp [skipSpace, isSpace]
  rw [toList_quote, List.cons_append, List.append_assoc, readFields]
  simp only [List.singleton_append, readString_quoted, Option.bind_eq_bind, Option.bind_some,
    hcolon, htext, hvalue, hrest]
  cases readFields n (skipSpace after) <;> rfl

end

theorem skipSpace_quote (s : String) (rest : List Char) :
    skipSpace ((quote s).toList ++ rest) = (quote s).toList ++ rest := by
  simp [skipSpace, toList_quote, isSpace]

theorem readValue_fields {n : Nat} {name : String} {rest more : List Char}
    (h : skipSpace rest = (quote name).toList ++ more) :
    readValue (n + 1) ('\x7b' :: rest) =
      (readFields n ((quote name).toList ++ more)).map fun r => (object r.1, r.2) := by
  rw [readValue, h, toList_quote, List.cons_append]
  rfl

/-! ## Code units -/

theorem units_eq_of_append {c d : Char} {x y : List Nat} (h : unitsOf c ++ x = unitsOf d ++ y) :
    c = d ∧ x = y := by
  have bound : ∀ e : Char, e.toNat < 0xD800 ∨ 0xDFFF < e.toNat ∧ e.toNat < 0x110000 := fun e => e.valid
  have hc := bound c
  have hd := bound d
  unfold unitsOf at h
  split_ifs at h with h1 h2 h2 <;>
    simp only [List.cons_append, List.nil_append, List.cons.injEq] at h
  · exact ⟨Char.toNat_inj.mp h.1, h.2⟩
  · omega
  · omega
  · exact ⟨Char.toNat_inj.mp (by omega), h.2.2⟩

theorem codeUnits_injective : Function.Injective codeUnits := by
  intro s t h
  unfold codeUnits at h
  rw [← String.toList_inj]
  generalize s.toList = cs at h ⊢
  generalize t.toList = ds at h ⊢
  induction cs generalizing ds with
  | nil =>
    cases ds with
    | nil => rfl
    | cons d ds =>
      simp only [List.flatMap_nil, List.flatMap_cons] at h
      unfold unitsOf at h
      split_ifs at h <;> simp at h
  | cons c cs ih =>
    cases ds with
    | nil =>
      simp only [List.flatMap_nil, List.flatMap_cons] at h
      unfold unitsOf at h
      split_ifs at h <;> simp at h
    | cons d ds =>
      rw [List.flatMap_cons, List.flatMap_cons] at h
      obtain ⟨rfl, hrest⟩ := units_eq_of_append h
      rw [ih ds hrest]

end Json

/-! ## Manifests -/

namespace Manifest

theorem skipSpace_newline (cs : List Char) :
    Json.skipSpace ('\n' :: ' ' :: ' ' :: cs) = Json.skipSpace cs := by
  simp [Json.skipSpace, Json.isSpace]

/-- What a manifest is read back as. -/
theorem parse_text (version directory : String) :
    Json.parse (Manifest.text ⟨version, some directory⟩) = some (.object
      [(Json.codeUnits versionField, .string (Json.codeUnits version)),
        (Json.codeUnits outDirectoryField, .string (Json.codeUnits directory))]) := by
  have htext : (Manifest.text ⟨version, some directory⟩).toList =
      '\x7b' :: '\n' :: ' ' :: ' ' :: ((Json.quote versionField).toList ++ ':' :: ' ' ::
        ((Json.quote version).toList ++ ',' :: '\n' :: ' ' :: ' ' ::
          ((Json.quote outDirectoryField).toList ++ ':' :: ' ' ::
            ((Json.quote directory).toList ++ ['\n', '\x7d'])))) := by
    simp [Manifest.text, fieldText]
  have hblank : ∀ s rest, Json.skipSpace (' ' :: ((Json.quote s).toList ++ rest)) =
      (Json.quote s).toList ++ rest := by
    intro s rest
    simp [Json.skipSpace, Json.isSpace, Json.toList_quote]
  have hcomma : ∀ cs, Json.skipSpace (',' :: cs) = ',' :: cs := fun cs => by
    simp [Json.skipSpace, Json.isSpace]
  have hsecond : ∀ n, Json.readFields (n + 2) ((Json.quote outDirectoryField).toList ++ ':' :: ' ' ::
      ((Json.quote directory).toList ++ ['\n', '\x7d'])) =
      some ([(Json.codeUnits outDirectoryField, .string (Json.codeUnits directory))], []) :=
    fun n => Json.readFields_last _ (Json.readValue_quote n _ _) (hblank _ _)
      (by simp [Json.skipSpace, Json.isSpace])
  have hfields : ∀ n, Json.readFields (n + 3) ((Json.quote versionField).toList ++ ':' :: ' ' ::
      ((Json.quote version).toList ++ ',' :: '\n' :: ' ' :: ' ' ::
          ((Json.quote outDirectoryField).toList ++ ':' :: ' ' ::
            ((Json.quote directory).toList ++ ['\n', '\x7d'])))) =
      some ([(Json.codeUnits versionField, .string (Json.codeUnits version)),
        (Json.codeUnits outDirectoryField, .string (Json.codeUnits directory))], []) := by
    intro n
    have hmore := Json.readFields_more versionField (Json.readValue_quote (n + 1) version _)
      (hblank _ _) (hcomma ('\n' :: ' ' :: ' ' :: ((Json.quote outDirectoryField).toList ++
        ':' :: ' ' :: ((Json.quote directory).toList ++ ['\n', '\x7d']))))
    rw [skipSpace_newline, Json.skipSpace_quote, hsecond] at hmore
    exact hmore
  obtain ⟨n, hn⟩ : ∃ n, 2 * (Manifest.text ⟨version, some directory⟩).toList.length = n + 3 := by
    refine ⟨2 * (Manifest.text ⟨version, some directory⟩).toList.length - 3, ?_⟩
    rw [htext]
    simp only [List.length_cons]
    omega
  simp only [Json.parse, hn]
  rw [htext]
  have hopen : ∀ cs, Json.skipSpace ('\x7b' :: cs) = '\x7b' :: cs := fun cs => by
    simp [Json.skipSpace, Json.isSpace]
  rw [hopen, Json.readValue_fields ((skipSpace_newline _).trans (Json.skipSpace_quote _ _)), hfields]
  rfl

theorem get?_version (version directory : List Nat) :
    (Json.object [(Json.codeUnits versionField, .string version),
      (Json.codeUnits outDirectoryField, .string directory)]).get? versionField =
        some (.string version) := by
  have hne : Json.codeUnits outDirectoryField ≠ Json.codeUnits versionField := by decide
  simp [Json.get?, hne]

theorem get?_outDirectory (version directory : List Nat) :
    (Json.object [(Json.codeUnits versionField, .string version),
      (Json.codeUnits outDirectoryField, .string directory)]).get? outDirectoryField =
        some (.string directory) := by
  simp [Json.get?]

/-- **A manifest that was written agrees** with a cache for the same directory, and with no other. -/
theorem agrees_of_parse_text {version directory : String} {j : Json}
    (h : Json.parse (Manifest.text ⟨version, some directory⟩) = some j) (other : String) :
    agrees ⟨version, some other⟩ j = true ↔ other = directory := by
  rw [parse_text, Option.some.injEq] at h
  subst h
  rw [agrees, get?_version, get?_outDirectory]
  simp only [Option.getD_some, Json.isString, beq_self_eq_true, Bool.true_and, beq_iff_eq,
    Json.codeUnits_injective.eq_iff]
  exact eq_comm

/-! ## Characters of a manifest -/

theorem ne_carriageReturn_of_mem_escape {c e : Char} (h : e ∈ Json.escape c) : e ≠ '\r' := by
  rintro rfl
  unfold Json.escape at h
  split_ifs at h with h1 h2 h3 h4 h5 h6 h7 h8
  · simp at h
  · simp at h
  · simp at h
  · simp at h
  · simp at h
  · simp at h
  · simp at h
  · exact h4 (List.mem_singleton.mp h).symm
  · obtain ⟨n, -, hn⟩ := List.mem_flatMap.mp h
    simp only [Json.unitEscape, List.mem_cons] at hn
    rcases hn with hn | hn | hn
    · simp at hn
    · simp at hn
    · exact (Text.isHexDigit_of_mem_hexDigits hn).ne_carriageReturn rfl

theorem carriageReturn_not_mem_quote (s : String) : '\r' ∉ (Json.quote s).toList := by
  intro h
  simp only [Json.toList_quote, List.mem_cons, List.mem_append, List.mem_flatMap] at h
  rcases h with h | ⟨c, -, hc⟩ | h
  · simp at h
  · exact ne_carriageReturn_of_mem_escape hc rfl
  · simp at h

theorem carriageReturn_not_mem_text (m : Manifest) : '\r' ∉ m.text.toList := by
  obtain ⟨version, directory⟩ := m
  cases directory <;>
    simp [Manifest.text, fieldText, carriageReturn_not_mem_quote]

end Manifest

end Facade
