import Clojurust.Lib.Decimal
import Clojurust.Lib.ParseInt
import Clojurust.Reader.Lexer
import Mathlib.Data.List.Basic

/-!
# Numerals

Texts that denote numbers: `BigInt::from_str` as `parse_bigint` of
`crates/cljrs-builtins/src/util.rs` uses it, and the decimal texts that it reads.

* `parseBigInt` — a sign and digits, `parseBigInt_signed`;
* `decimalChars` — the characters of the numbers that `str::parse` reads, `parseDigits_toDigits`;
* `ofDigits_toDigits`, `parseBigInt_repr` — numbers in decimal are read back;
* `Denotes` — an integer token denotes an integer, `denotes_integerToken`.
-/

namespace Clojurust.Reader

open List

/-! ## Reading -/

/-- `BigUint::from_str_radix` at radix 10: one plus sign is dropped and underscores are skipped. -/
def parseBigUint (text : List Char) : Option Nat :=
  let digits :=
    match text with
    | '+' :: tail => if tail.head? = some '+' then text else tail
    | _ => text
  if digits.isEmpty ∨ digits.head? = some '_' then none
  else
    let kept := digits.filter (· != '_')
    if kept.all Char.isDigit then some (ofDigits 10 kept) else none

/-- `BigInt::from_str`. -/
def parseInt (text : List Char) : Option Int :=
  match text with
  | '-' :: tail =>
    if tail.head? = some '+' then (parseBigUint text).map fun n => -(n : Int)
    else (parseBigUint tail).map fun n => -(n : Int)
  | _ => (parseBigUint text).map fun n => (n : Int)

/-- `parse_bigint`: suffixes `N` are dropped first. -/
def parseBigInt (s : String) : Option Int :=
  parseInt (s.toList.reverse.dropWhile (· == 'N')).reverse

/-- The digits and the signs of a number in characters. -/
def decimalChars : ParseInt.Alphabet Char where
  digit c := toDigit c 10
  plus := '+'
  minus := '-'
  plus_digit := by decide
  minus_digit := by decide

/-! ## Digits -/

/-- A text of one or more decimal digits. -/
@[grind cases]
structure Digits (cs : List Char) : Prop where
  ne_nil : cs ≠ []
  digits : ∀ c ∈ cs, c.isDigit = true

theorem ne_of_isDigit {c d : Char} (h : c.isDigit = true) (hd : d.isDigit = false) : c ≠ d := by
  grind

variable {cs : List Char} {value : Nat}

theorem Digits.head_ne (h : Digits cs) {d : Char} (hd : d.isDigit = false) : cs.head? ≠ some d := by
  cases cs with
  | nil => simp
  | cons => grind

theorem foldl_digitValue : ∀ {cs : List Char} (init : Nat), (∀ c ∈ cs, c.isDigit = true) →
    cs.foldl (fun n c => n * 10 + digitValue c) init = Nat.ofDigitChars 10 cs init
  | [], _, _ => rfl
  | c :: cs, init, h => by
    obtain ⟨hc, hcs⟩ := forall_mem_cons.mp h
    have hvalue : init * 10 + digitValue c = 10 * init + (c.toNat - '0'.toNat) := by
      rw [digitValue, if_pos hc, Nat.mul_comm]
      rfl
    rw [foldl_cons, Nat.ofDigitChars_cons, foldl_digitValue _ hcs, hvalue]

theorem digits_toDigits (n : Nat) : Digits (Nat.toDigits 10 n) where
  ne_nil := Nat.toDigits_ne_nil
  digits _ hc := Nat.isDigit_of_mem_toDigits (by omega) (by omega) hc

theorem ofDigits_toDigits (n : Nat) : ofDigits 10 (Nat.toDigits 10 n) = n := by
  rw [ofDigits, foldl_digitValue 0 (digits_toDigits n).digits]
  simp

theorem decimalChars_digit {c : Char} (h : c.isDigit = true) :
    decimalChars.digit c = some (digitValue c) := by
  have hrange := Decimal.toNat_of_isDigit h
  have hvalue : digitValue c < 10 := by
    rw [digitValue, if_pos h]
    omega
  exact if_pos hvalue

theorem Digits.isNumeral (h : Digits cs) : ParseInt.IsNumeral decimalChars cs :=
  ⟨h.ne_nil, fun c hc => by rw [decimalChars_digit (h.digits c hc), Option.isSome_some]⟩

theorem Digits.value_eq (h : Digits cs) : ParseInt.value decimalChars cs 0 = ofDigits 10 cs := by
  refine foldl_ext _ _ 0 fun n c hc => ?_
  rw [decimalChars_digit (h.digits c hc), Option.getD_some]

/-- `str::parse` reads a number that the type has from its digits. -/
theorem parseDigits_toDigits {n max : Nat} {overflow : ParseInt.IntError} (h : n ≤ max) :
    ParseInt.parseDigits decimalChars max overflow (Nat.toDigits 10 n) = .ok n := by
  have hdigits := digits_toDigits n
  rw [ParseInt.parseDigits_numeral hdigits.isNumeral, hdigits.value_eq, ofDigits_toDigits, if_pos h]

/-! ## Decimal texts -/

theorem parseBigUint_digits (h : Digits cs) : parseBigUint cs = some (ofDigits 10 cs) := by
  have hfilter : cs.filter (· != '_') = cs := by
    rw [filter_eq_self]
    intro c hc
    simpa using ne_of_isDigit (h.digits c hc) (d := '_') rfl
  have hall : cs.all Char.isDigit = true := all_eq_true.mpr h.digits
  unfold parseBigUint
  grind

theorem dropWhile_reverse_digits (sign : List Char) (h : Digits cs) :
    ((sign ++ cs).reverse.dropWhile (· == 'N')).reverse = sign ++ cs := by
  obtain ⟨front, d, rfl⟩ := eq_nil_or_concat cs |>.resolve_left h.ne_nil
  have hd : d.isDigit = true := h.digits d (by simp)
  have hne : (d == 'N') = false := by simpa using ne_of_isDigit hd (d := 'N') rfl
  simp [hne]

/-- The integer with a sign and an absolute value. -/
def withSign (negative : Bool) (value : Nat) : Int := if negative then -(value : Int) else value

theorem parseInt_signed (negative : Bool) (h : Digits cs) :
    parseInt (signed negative (String.ofList cs)).toList =
      some (withSign negative (ofDigits 10 cs)) := by
  have hplus := h.head_ne (d := '+') rfl
  have hminus := h.head_ne (d := '-') rfl
  have hparse := parseBigUint_digits h
  cases negative with
  | true => simp [signed, parseInt, withSign, hplus, hparse]
  | false =>
    simp only [signed, Bool.false_eq_true, if_false, String.toList_ofList, withSign]
    unfold parseInt
    grind

theorem parseBigInt_signed (negative : Bool) (h : Digits cs) :
    parseBigInt (signed negative (String.ofList cs)) =
      some (withSign negative (ofDigits 10 cs)) := by
  have htext : (signed negative (String.ofList cs)).toList = (if negative then ['-'] else []) ++ cs := by
    cases negative <;> simp [signed]
  rw [parseBigInt, htext, dropWhile_reverse_digits _ h, ← htext]
  exact parseInt_signed negative h

/-! ## Integer tokens -/

/-- The integer has a `Long`. -/
def FitsLong (n : Int) : Prop := -2 ^ 63 ≤ n ∧ n < 2 ^ 63

/-- A token denotes an integer: a `Long` if it fits, and otherwise a text that is read as it. -/
def Denotes (n : Int) : Token → Prop
  | .int i => i.toInt = n
  | .bigInt s => ¬ FitsLong n ∧ parseBigInt s = some n
  | _ => False

theorem toInt_asI64 (h : value < 2 ^ 63) : (asI64 value).toInt = value :=
  Int64.toInt_ofNat_of_lt h

theorem toInt_zero_sub_asI64 (h : value ≤ 2 ^ 63) : (0 - asI64 value).toInt = -(value : Int) := by
  by_cases hmin : value = 2 ^ 63
  · subst hmin
    decide
  · have hlt : value < 2 ^ 63 := by omega
    rw [Int64.toInt_sub, toInt_asI64 hlt, Int64.toInt_zero, Int.zero_sub]
    grind

/-- **The token for a number denotes it**, if the digits are its own. -/
theorem denotes_integerToken (negative : Bool) (h : Digits cs) (hvalue : ofDigits 10 cs = value) :
    Denotes (withSign negative value) (integerToken negative value (String.ofList cs)) := by
  cases negative with
  | true =>
    simp only [integerToken, if_true]
    by_cases hfits : value ≤ 2 ^ 63
    · rw [if_pos hfits]
      exact toInt_zero_sub_asI64 hfits
    · rw [if_neg hfits]
      refine ⟨?_, ?_⟩
      · simp only [FitsLong, withSign, if_true]
        omega
      · exact hvalue ▸ parseBigInt_signed true h
  | false =>
    simp only [integerToken, Bool.false_eq_true, if_false]
    by_cases hfits : value < 2 ^ 63
    · rw [if_pos hfits]
      exact toInt_asI64 hfits
    · rw [if_neg hfits]
      refine ⟨?_, ?_⟩
      · simp only [FitsLong, withSign, Bool.false_eq_true, if_false]
        omega
      · exact hvalue ▸ parseBigInt_signed false h

theorem denotes_integerToken_repr (negative : Bool) (value : Nat) :
    Denotes (withSign negative value) (integerToken negative value (Nat.repr value)) := by
  exact denotes_integerToken negative (digits_toDigits value) (ofDigits_toDigits value)

end Clojurust.Reader
