import Mathlib.Data.Nat.Basic

/-!
# Reading integers

What `str::parse` of the standard library does for an integer type (`from_str_radix` with the radix
ten), over any kind of text. A text is a sign, if there is one, and digits; after every digit the value
is compared with the bounds of the type, so that a digit that is none is reported before an overflow
that comes later, and an overflow before a later digit that is none.

* `Alphabet` — the digits and the signs of a kind of text; `IntError` — why a text is refused;
* `parseUnsigned`, `parseSigned` — the types without and with a sign;
* `readDigits_append` — the digits are read from left to right, and an error stays;
* `parseDigits_numeral`, `parseUnsigned_numeral`, `parseSigned_numeral`, `parseSigned_minus` — what is
  read of a numeral;
* `parseSigned_append_error` — no continuation mends a text that is refused.

A type is given by its largest value; other radices and the types that do not contain zero are left out.
-/

namespace ParseInt

open List

/-- `IntErrorKind`, as far as it occurs. -/
inductive IntError where
  | empty
  | invalidDigit
  | posOverflow
  | negOverflow

def IntError.message : IntError → String
  | empty => "cannot parse integer from empty string"
  | invalidDigit => "invalid digit found in string"
  | posOverflow => "number too large to fit in target type"
  | negOverflow => "number too small to fit in target type"

structure Alphabet (α : Type) where
  digit : α → Option Nat
  plus : α
  minus : α
  plus_digit : digit plus = none
  minus_digit : digit minus = none

section Reading

variable {α : Type} (a : Alphabet α)

/-- Digits into a number that stays at most `max`. -/
def readDigits (max : Nat) (overflow : IntError) : List α → Nat → Except IntError Nat
  | [], n => .ok n
  | c :: cs, n =>
    match a.digit c with
    | none => .error .invalidDigit
    | some d =>
      if n * 10 + d ≤ max then readDigits max overflow cs (n * 10 + d) else .error overflow

/-- What follows the sign; a sign alone is no number. -/
def parseDigits (max : Nat) (overflow : IntError) : List α → Except IntError Nat
  | [] => .error .invalidDigit
  | c :: cs => readDigits a max overflow (c :: cs) 0

/-- A type with the values from zero to `max`. -/
def parseUnsigned [DecidableEq α] (max : Nat) : List α → Except IntError Nat
  | [] => .error .empty
  | c :: cs =>
    if c = a.plus then parseDigits a max .posOverflow cs else parseDigits a max .posOverflow (c :: cs)

/-- A type with the values from `-(max + 1)` to `max`. -/
def parseSigned [DecidableEq α] (max : Nat) (text : List α) : Except IntError Int :=
  match text with
  | [] => .error .empty
  | c :: cs =>
    if c = a.minus then (parseDigits a (max + 1) .negOverflow cs).map fun n : Nat => -(n : Int)
    else (parseUnsigned a max text).map fun n : Nat => (n : Int)

/-- The number that digits stand for, after those that gave `n`. -/
def value (cs : List α) (n : Nat) : Nat := cs.foldl (fun n c => n * 10 + (a.digit c).getD 0) n

structure IsNumeral (cs : List α) : Prop where
  ne_nil : cs ≠ []
  digits : ∀ c ∈ cs, (a.digit c).isSome = true

end Reading

variable {α : Type} {a : Alphabet α} {max n : Nat} {overflow : IntError} {cs more : List α}

/-! ## Digits -/

theorem le_value : ∀ (cs : List α) (n : Nat), n ≤ value a cs n
  | [], n => Nat.le_refl n
  | c :: cs, n => by
    have htail := le_value cs (n * 10 + (a.digit c).getD 0)
    rw [value, foldl_cons]
    rw [value] at htail
    omega

theorem readDigits_eq : ∀ {cs : List α} {n : Nat}, (∀ c ∈ cs, (a.digit c).isSome = true) → n ≤ max →
    readDigits a max overflow cs n =
      if value a cs n ≤ max then .ok (value a cs n) else .error overflow
  | [], n, _, hn => (if_pos hn).symm
  | c :: cs, n, hdigits, _ => by
    rw [forall_mem_cons] at hdigits
    obtain ⟨d, hd⟩ := Option.isSome_iff_exists.mp hdigits.1
    have hvalue : value a (c :: cs) n = value a cs (n * 10 + d) := by
      rw [value, foldl_cons, hd, Option.getD_some, value]
    simp only [readDigits, hd, hvalue]
    split
    · exact readDigits_eq hdigits.2 ‹_›
    · -- more digits never make the number smaller
      have hgrow := le_value (a := a) cs (n * 10 + d)
      rw [if_neg (by omega)]

/-- **From left to right**: an error of the first digits is the error of the whole. -/
theorem readDigits_append (cs more : List α) (n : Nat) : readDigits a max overflow (cs ++ more) n =
    (readDigits a max overflow cs n).bind (readDigits a max overflow more) := by
  induction cs generalizing n with
  | nil => rfl
  | cons c cs ih =>
    simp only [cons_append, readDigits]
    cases a.digit c with
    | none => rfl
    | some d =>
      dsimp only
      split
      · exact ih _
      · rfl

theorem readDigits_le : ∀ {cs : List α} {n m : Nat}, n ≤ max → readDigits a max overflow cs n = .ok m →
    m ≤ max
  | [], n, m, hn, h => by
    cases h
    exact hn
  | c :: cs, n, m, _, h => by
    simp only [readDigits] at h
    split at h
    · cases h
    · split at h
      · exact readDigits_le ‹_› h
      · cases h

theorem parseDigits_numeral (h : IsNumeral a cs) : parseDigits a max overflow cs =
    if value a cs 0 ≤ max then .ok (value a cs 0) else .error overflow := by
  cases cs with
  | nil => exact absurd rfl h.ne_nil
  | cons c cs => exact readDigits_eq h.digits (Nat.zero_le max)

theorem parseDigits_append_error {e : IntError} (hne : cs ≠ [])
    (h : parseDigits a max overflow cs = .error e) (more : List α) :
    parseDigits a max overflow (cs ++ more) = .error e := by
  cases cs with
  | nil => exact absurd rfl hne
  | cons c cs =>
    rw [parseDigits] at h
    rw [cons_append, parseDigits, ← cons_append, readDigits_append, h]
    rfl

/-! ## Signs -/

section Signs

variable [DecidableEq α]

theorem parseUnsigned_numeral (h : IsNumeral a cs) : parseUnsigned a max cs =
    if value a cs 0 ≤ max then .ok (value a cs 0) else .error .posOverflow := by
  rw [← parseDigits_numeral h]
  cases cs with
  | nil => exact absurd rfl h.ne_nil
  | cons c cs =>
    have hplus : c ≠ a.plus := by
      rintro rfl
      have hsome := h.digits _ (.head _)
      rw [a.plus_digit] at hsome
      cases hsome
    rw [parseUnsigned, if_neg hplus]

theorem parseUnsigned_le (h : parseUnsigned a max cs = .ok n) : n ≤ max := by
  have hdigits : ∀ {cs : List α}, parseDigits a max .posOverflow cs = .ok n → n ≤ max := by
    intro cs h
    cases cs with
    | nil => cases h
    | cons => exact readDigits_le (Nat.zero_le max) h
  cases cs with
  | nil => cases h
  | cons c cs =>
    rw [parseUnsigned] at h
    split at h
    · exact hdigits h
    · exact hdigits h

theorem parseSigned_minus (cs : List α) : parseSigned a max (a.minus :: cs) =
    (parseDigits a (max + 1) .negOverflow cs).map fun n : Nat => -(n : Int) := if_pos rfl

theorem parseSigned_digit {c : α} (hc : (a.digit c).isSome = true) : parseSigned a max (c :: cs) =
    (parseDigits a max .posOverflow (c :: cs)).map fun n : Nat => (n : Int) := by
  have hminus : c ≠ a.minus := by
    rintro rfl
    rw [a.minus_digit] at hc
    cases hc
  have hplus : c ≠ a.plus := by
    rintro rfl
    rw [a.plus_digit] at hc
    cases hc
  rw [parseSigned, if_neg hminus, parseUnsigned, if_neg hplus]

theorem parseSigned_numeral (h : IsNumeral a cs) : parseSigned a max cs =
    (parseDigits a max .posOverflow cs).map fun n : Nat => (n : Int) := by
  cases cs with
  | nil => exact absurd rfl h.ne_nil
  | cons c cs => exact parseSigned_digit (h.digits c (.head _))

/-- A text with a digit in it that is refused is refused with whatever follows it. -/
theorem parseSigned_append_error {e : IntError} {text : List α}
    (htext : IsNumeral a text ∨ ∃ cs, cs ≠ [] ∧ text = a.minus :: cs)
    (h : parseSigned a max text = .error e) (more : List α) :
    parseSigned a max (text ++ more) = .error e := by
  have hmap : ∀ {x : Except IntError Nat} {f : Nat → Int}, x.map f = .error e ↔ x = .error e := by
    intro x f
    cases x with
    | error => simp [Except.map]
    | ok => simp [Except.map]
  rcases htext with hnumeral | ⟨cs, hne, rfl⟩
  · cases text with
    | nil => exact absurd rfl hnumeral.ne_nil
    | cons c cs =>
      have hc := hnumeral.digits c (.head _)
      rw [parseSigned_digit hc, hmap] at h
      rw [cons_append, parseSigned_digit hc, hmap, ← cons_append]
      exact parseDigits_append_error (cons_ne_nil _ _) h more
  · rw [parseSigned_minus, hmap] at h
    rw [cons_append, parseSigned_minus, hmap]
    exact parseDigits_append_error hne h more

end Signs

end ParseInt
