import Mathlib.Data.Nat.Basic

/-!
# Decimal numerals as bytes

Natural numbers written in ASCII digits, most significant first, and read back.

* `decimal`, `ofDecimal` — writing and reading; `ofDecimal_decimal` — the round trip;
* `isDigit_of_mem_decimal`, `decimal_ne_nil` — what a numeral looks like;
* `ofDecimal_le_append` — more digits never make a number smaller;
* `isUtf8_of_ascii` — ASCII text is UTF-8.
-/

namespace Decimal

open List

def isDigit (b : UInt8) : Bool := 48 ≤ b && b ≤ 57

def decimal (n : Nat) : List UInt8 := (Nat.toDigits 10 n).map (fun c => UInt8.ofNat c.toNat)

def ofDecimal (text : List UInt8) : Nat := text.foldl (fun n b => 10 * n + (b.toNat - 48)) 0

variable {b : UInt8}

theorem isDigit_iff : isDigit b = true ↔ 48 ≤ b.toNat ∧ b.toNat ≤ 57 := by
  simp only [isDigit, Bool.and_eq_true, decide_eq_true_eq, UInt8.le_iff_toNat_le]
  rfl

theorem toNat_of_isDigit {c : Char} (h : c.isDigit = true) : 48 ≤ c.toNat ∧ c.toNat ≤ 57 := by
  simp only [Char.isDigit, Bool.and_eq_true, decide_eq_true_eq, UInt32.le_iff_toNat_le] at h
  exact h

theorem toNat_ofNat_of_isDigit {c : Char} (h : c.isDigit = true) :
    (UInt8.ofNat c.toNat).toNat = c.toNat := by
  have hc := toNat_of_isDigit h
  apply UInt8.toNat_ofNat_of_lt
  grind

theorem isDigit_of_mem_decimal {n : Nat} (h : b ∈ decimal n) : isDigit b = true := by
  obtain ⟨c, hc, rfl⟩ := mem_map.mp h
  have hdigit := Nat.isDigit_of_mem_toDigits (by omega) (by omega) hc
  rw [isDigit_iff, toNat_ofNat_of_isDigit hdigit]
  exact toNat_of_isDigit hdigit

theorem decimal_ne_nil (n : Nat) : decimal n ≠ [] := by
  intro h
  exact Nat.toDigits_ne_nil (map_eq_nil_iff.mp h)

theorem foldl_digits : ∀ {cs : List Char} (init : Nat), (∀ c ∈ cs, c.isDigit = true) →
    (cs.map (fun c => UInt8.ofNat c.toNat)).foldl (fun n b => 10 * n + (b.toNat - 48)) init =
      Nat.ofDigitChars 10 cs init
  | [], _, _ => rfl
  | c :: cs, init, h => by
    have hhead := toNat_ofNat_of_isDigit (h c (.head _))
    have htail : ∀ c ∈ cs, c.isDigit = true := fun c hc => h c (.tail _ hc)
    rw [map_cons, foldl_cons, Nat.ofDigitChars_cons, foldl_digits _ htail, hhead]
    rfl

/-- **Round trip**: a numeral is read as the number it was written for. -/
theorem ofDecimal_decimal (n : Nat) : ofDecimal (decimal n) = n := by
  unfold ofDecimal decimal
  rw [foldl_digits 0 fun c hc => Nat.isDigit_of_mem_toDigits (by omega) (by omega) hc]
  simp

theorem le_foldl_digits : ∀ (text : List UInt8) (n : Nat),
    n ≤ text.foldl (fun n b => 10 * n + (b.toNat - 48)) n
  | [], n => le_rfl
  | b :: text, n => by
    have htail := le_foldl_digits text (10 * n + (b.toNat - 48))
    grind

theorem ofDecimal_le_append (text more : List UInt8) : ofDecimal text ≤ ofDecimal (text ++ more) := by
  unfold ofDecimal
  rw [foldl_append]
  exact le_foldl_digits more _

/-! ## ASCII text -/

/-- The bytes are UTF-8. -/
def isUtf8 (text : List UInt8) : Bool := (String.fromUTF8? ⟨text.toArray⟩).isSome

theorem utf8EncodeChar_ascii (hb : b.toNat < 128) :
    String.utf8EncodeChar (Char.ofNat b.toNat) = [b] := by
  have hchar : (Char.ofNat b.toNat).toNat = b.toNat := by
    have hvalid : b.toNat.isValidChar := .inl (by omega)
    unfold Char.ofNat
    rw [dif_pos hvalid]
    rfl
  have hsize : (Char.ofNat b.toNat).utf8Size = 1 := by
    rw [Char.utf8Size_eq_one_iff, UInt32.le_iff_toNat_le]
    show (Char.ofNat b.toNat).toNat ≤ 127
    omega
  rw [String.utf8EncodeChar_eq_singleton hsize]
  congr 1
  apply UInt8.toNat_inj.mp
  show (Char.ofNat b.toNat).toNat % 256 = b.toNat
  omega

theorem flatMap_utf8EncodeChar_ascii : ∀ {text : List UInt8}, (∀ b ∈ text, b.toNat < 128) →
    (text.map (fun b => Char.ofNat b.toNat)).flatMap String.utf8EncodeChar = text
  | [], _ => rfl
  | b :: text, h => by
    have htail : ∀ b ∈ text, b.toNat < 128 := fun b hb => h b (.tail _ hb)
    rw [map_cons, flatMap_cons, flatMap_utf8EncodeChar_ascii htail,
      utf8EncodeChar_ascii (h b (.head _)), singleton_append]

theorem isUtf8_of_ascii {text : List UInt8} (h : ∀ b ∈ text, b.toNat < 128) :
    isUtf8 text = true := by
  have hvalid : (⟨text.toArray⟩ : ByteArray).IsValidUTF8 := by
    refine ⟨text.map (fun b => Char.ofNat b.toNat), ?_⟩
    rw [List.utf8Encode, flatMap_utf8EncodeChar_ascii h]
    apply ByteArray.ext
    simp
  unfold isUtf8 String.fromUTF8?
  grind

end Decimal
