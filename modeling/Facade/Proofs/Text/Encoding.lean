import Mathlib.Tactic.Common
import Facade.Digest.Sha256
import Facade.Text.CharClass
import Facade.Text.Lines
import Facade.Text.Quoted
import Facade.Text.Utf8

/-!
# Text in files

What is written to a file as bytes is read back as the same text.

* `Utf8.decode_encode`: bytes that were encoded decode to the text they stand for;
* `Text.unifyLineEnds_of_not_mem`, `Text.trimBlanks_of_forall`: texts that reading leaves as they are;
* `Sha256.isHexDigit_of_mem_hex`: a hash in hexadecimal digits is such a text.
-/

namespace Facade

namespace Utf8

theorem toList_data_toUTF8 (s : String) :
    s.toUTF8.data.toList = s.toList.flatMap String.utf8EncodeChar := by
  have h : s.toUTF8 = s.toList.utf8Encode := by
    conv_lhs => rw [← String.ofList_toList (s := s)]
    simp
  rw [h, List.utf8Encode]
  simp

/-- The byte of six bits that continues a character. -/
def tailByte (n : Nat) : UInt8 := UInt8.ofNat (n % 64 + 128)

theorem toNat_tailByte (n : Nat) : (tailByte n).toNat = n % 64 + 128 := by
  simp [tailByte]; omega

theorem low_tailByte (n : Nat) : low (tailByte n) = n % 64 := by
  rw [low, toNat_tailByte]
  omega

theorem isContinuation_tailByte (n : Nat) : isContinuation (tailByte n) = true := by
  simp only [isContinuation, UInt8.le_iff_toNat_le, toNat_tailByte, Bool.and_eq_true,
    decide_eq_true_eq]
  exact ⟨by simp, by simp; omega⟩

theorem isSecond_tailByte {first : UInt8} {n : Nat}
    (he0 : first.toNat = 0xE0 → 0x20 ≤ n % 64) (hed : first.toNat = 0xED → n % 64 < 0x20)
    (hf0 : first.toNat = 0xF0 → 0x10 ≤ n % 64) (hf4 : first.toNat = 0xF4 → n % 64 < 0x10) :
    isSecond first (tailByte n) = true := by
  have hlt := Nat.mod_lt n (show 0 < 64 by decide)
  simp only [isSecond, ← UInt8.toNat_inj, UInt8.le_iff_toNat_le, toNat_tailByte]
  split_ifs with h1 h2 h3 h4
  · have := he0 (by simpa using h1)
    simp; omega
  · have := hed (by simpa using h2)
    simp; omega
  · have := hf0 (by simpa using h3)
    simp; omega
  · have := hf4 (by simpa using h4)
    simp; omega
  · exact isContinuation_tailByte n

theorem next_encode (c : Char) (rest : List UInt8) :
    ∃ a more, String.utf8EncodeChar c = a :: more ∧
      next a (more ++ rest) = .char c (more.length + 1) := by
  have hvalid := c.valid
  have hc : Char.ofNat c.toNat = c := Char.ofNat_toNat c
  have hv : c.val.toNat = c.toNat := rfl
  unfold String.utf8EncodeChar
  simp only [hv]
  simp only [UInt32.isValidChar, Nat.isValidChar, hv] at hvalid
  generalize hn : c.toNat = n at *
  split_ifs with h1 h2 h3
  · refine ⟨_, [], rfl, ?_⟩
    have ha : (UInt8.ofNat n).toNat = n := by simp; omega
    simp only [next, UInt8.lt_iff_toNat_lt, ha]
    rw [if_pos (by simp; omega), hc]
    rfl
  · refine ⟨_, [tailByte n], rfl, ?_⟩
    have ha : (UInt8.ofNat (n / 64 % 0x20 + 0xc0)).toNat = n / 64 % 32 + 192 := by simp; omega
    simp only [next, UInt8.lt_iff_toNat_lt, ha, List.cons_append, List.nil_append]
    rw [if_neg (by simp), if_neg (by simp; omega), if_pos (by simp; omega),
      if_pos (isContinuation_tailByte n), low_tailByte]
    have hval : (n / 64 % 32 + 192) % 32 * 64 + n % 64 = n := by omega
    rw [hval, hc]
    rfl
  · refine ⟨_, [tailByte (n / 64), tailByte n], rfl, ?_⟩
    have ha : (UInt8.ofNat (n / 4096 % 0x10 + 0xe0)).toNat = n / 4096 % 16 + 224 := by simp; omega
    have hsecond : isSecond (UInt8.ofNat (n / 4096 % 0x10 + 0xe0)) (tailByte (n / 64)) = true :=
      isSecond_tailByte (by omega) (by omega) (by omega) (by omega)
    simp only [next, UInt8.lt_iff_toNat_lt, ha, List.cons_append, List.nil_append]
    rw [if_neg (by simp), if_neg (by simp), if_neg (by simp),
      if_pos (by simp; omega)]
    simp only [hsecond, isContinuation_tailByte, low_tailByte, Bool.not_true, Bool.false_eq_true,
      if_false]
    have hval : ((n / 4096 % 16 + 224) % 16 * 64 + n / 64 % 64) * 64 + n % 64 = n := by omega
    rw [hval, hc]
    rfl
  · refine ⟨_, [tailByte (n / 4096), tailByte (n / 64), tailByte n], rfl, ?_⟩
    have ha : (UInt8.ofNat (n / 262144 % 0x08 + 0xf0)).toNat = n / 262144 % 8 + 240 := by
      simp; omega
    have hsecond : isSecond (UInt8.ofNat (n / 262144 % 0x08 + 0xf0)) (tailByte (n / 4096)) = true :=
      isSecond_tailByte (by omega) (by omega) (by omega) (by omega)
    simp only [next, UInt8.lt_iff_toNat_lt, ha, List.cons_append, List.nil_append]
    rw [if_neg (by simp), if_neg (by simp), if_neg (by simp),
      if_neg (by simp), if_pos (by simp; omega)]
    simp only [hsecond, isContinuation_tailByte, low_tailByte, Bool.not_true, Bool.false_eq_true,
      if_false]
    have hval : (((n / 262144 % 8 + 240) % 8 * 64 + n / 4096 % 64) * 64 + n / 64 % 64) * 64 +
        n % 64 = n := by omega
    rw [hval, hc]
    rfl

theorem decodeFrom_skip (position : Nat) (more rest : List UInt8) :
    decodeFrom position more.length (more ++ rest) =
      decodeFrom (position + more.length) 0 rest := by
  induction more generalizing position with
  | nil => rfl
  | cons b more ih =>
    rw [List.length_cons, List.cons_append, decodeFrom, ih]
    congr 1
    omega

theorem decodeFrom_encode (cs : List Char) (position : Nat) :
    decodeFrom position 0 (cs.flatMap String.utf8EncodeChar) = .ok cs := by
  induction cs generalizing position with
  | nil => rfl
  | cons c cs ih =>
    obtain ⟨a, more, hbytes, hnext⟩ := next_encode c (cs.flatMap String.utf8EncodeChar)
    rw [List.flatMap_cons, hbytes, List.cons_append]
    simp only [decodeFrom, hnext, Nat.add_sub_cancel, decodeFrom_skip, ih]
    rfl

/-- **Text is read back from its bytes.** -/
theorem decode_encode (s : String) : decode (encode s) = .ok s := by
  rw [decode, encode, toList_data_toUTF8, decodeFrom_encode]
  simp [Except.map]

end Utf8

namespace Text

/-- A text without carriage returns keeps its line ends. -/
theorem unifyLineEnds_of_not_mem {cs : List Char} (h : '\r' ∉ cs) : unifyLineEnds cs = cs := by
  induction cs with
  | nil => rfl
  | cons c cs ih =>
    simp only [List.mem_cons, not_or] at h
    rw [unifyLineEnds, ih h.2]
    · exact fun _ hc => absurd hc.symm h.1
    · exact fun hc => absurd hc.symm h.1

theorem dropWhile_of_forall {p : Char → Bool} {cs : List Char} (h : ∀ c ∈ cs, p c = false) :
    cs.dropWhile p = cs := by
  cases cs with
  | nil => rfl
  | cons c cs => rw [List.dropWhile_cons, h c List.mem_cons_self]; rfl

/-- A text without white space has none at its ends. -/
theorem trimBlanks_of_forall {s : String} (h : ∀ c ∈ s.toList, isBlank c = false) :
    trimBlanks s = s := by
  rw [trimBlanks, dropWhile_of_forall h,
    dropWhile_of_forall fun c hc => h c (List.mem_reverse.mp hc)]
  simp

/-- The digits that numbers are written with to the base sixteen. -/
def IsHexDigit (c : Char) : Prop := ∃ n < 16, c = Nat.digitChar n

theorem isHexDigit_of_mem_toDigits {n : Nat} {c : Char} (h : c ∈ Nat.toDigits 16 n) :
    IsHexDigit c := by
  induction n using Nat.strongRecOn with
  | _ n ih =>
    by_cases hn : n < 16
    · rw [Nat.toDigits_of_lt_base hn, List.mem_singleton] at h
      exact ⟨n, hn, h⟩
    · rw [Nat.toDigits_of_base_le (by decide) (by omega), List.mem_append, List.mem_singleton] at h
      rcases h with h | h
      · exact ih (n / 16) (by omega) h
      · exact ⟨n % 16, by omega, h⟩

theorem isHexDigit_of_mem_hexDigits {width n : Nat} {c : Char}
    (h : c ∈ (hexDigits width n).toList) : IsHexDigit c := by
  simp only [hexDigits, String.toList_ofList, List.mem_append, List.mem_replicate] at h
  rcases h with ⟨-, rfl⟩ | h
  · exact ⟨0, by decide, rfl⟩
  · exact isHexDigit_of_mem_toDigits h

theorem IsHexDigit.isBlank {c : Char} (h : IsHexDigit c) : isBlank c = false := by
  obtain ⟨n, hn, rfl⟩ := h
  revert n
  decide

theorem IsHexDigit.ne_carriageReturn {c : Char} (h : IsHexDigit c) : c ≠ '\r' := by
  rintro rfl
  exact absurd h.isBlank (by decide)

end Text

namespace Sha256

theorem hexWord_eq (w : UInt32) : hexWord w = Text.hexDigits 8 w.toNat := rfl

/-- A hash is written in hexadecimal digits. -/
theorem isHexDigit_of_mem_hex {text : String} {c : Char} (h : c ∈ (hex text).toList) :
    Text.IsHexDigit c := by
  simp only [hex, String.toList_join, List.mem_flatMap, List.mem_map] at h
  obtain ⟨_, ⟨w, -, rfl⟩, hc⟩ := h
  exact Text.isHexDigit_of_mem_hexDigits (hexWord_eq w ▸ hc)

theorem trimBlanks_hex (text : String) : Text.trimBlanks (hex text) = hex text :=
  Text.trimBlanks_of_forall fun _ h => (isHexDigit_of_mem_hex h).isBlank

end Sha256

end Facade
