import Clojurust.Reader.Numerals
import Clojurust.Reader.Steps
import Mathlib.Data.Nat.ModEq

/-!
# Integer literals

Decimal, hexadecimal, octal and radix literals, and what `next_token` makes of them.

* `Literal` — a sign and a body in one of the notations, well formed or not; `Literal.value` — the
  integer it denotes, if it is well formed;
* `Honest` — the literal is read as exactly its value, or rejected with a read error if it has none;
* `Body.Exact` — what the accumulators of each notation can hold;
* `integer_literals_exact_iff` — a literal is read honestly exactly then.
-/

namespace Clojurust.Reader

open StateExcept List

/-! ## Literals -/

inductive Sign where
  | none
  | plus
  | minus
  deriving DecidableEq

def Sign.text : Sign → List Char
  | none => []
  | plus => ['+']
  | minus => ['-']

def Sign.negative : Sign → Bool
  | minus => true
  | _ => false

/-- The digits of a literal in its notation. Hexadecimal and radix digits are any letters and digits,
and there may be none. -/
inductive Body where
  | decimal (digits : List Char) (h : Digits digits)
      (hlead : digits.head? = some '0' → digits = ['0'])
  | hex (mark : Char) (digits : List Char) (hmark : mark = 'x' ∨ mark = 'X')
      (h : ∀ c ∈ digits, c.isAlphanum = true)
  | octal (digits : List Char) (h : Digits digits)
  | radix (base : List Char) (mark : Char) (digits : List Char) (hbase : Digits base)
      (hmark : mark = 'r' ∨ mark = 'R') (h : ∀ c ∈ digits, c.isAlphanum = true)

def Body.text : Body → List Char
  | decimal digits _ _ => digits
  | hex mark digits _ _ => '0' :: mark :: digits
  | octal digits _ => '0' :: digits
  | radix base mark digits _ _ _ => base ++ mark :: digits

/-- The number a well-formed body denotes. -/
def Body.value : Body → Option Nat
  | decimal digits _ _ => some (ofDigits 10 digits)
  | hex _ digits _ _ =>
    if digits ≠ [] ∧ digits.all isHexDigit then some (ofDigits 16 digits) else none
  | octal digits _ => if digits.all isOctalDigit then some (ofDigits 8 digits) else none
  | radix base _ digits _ _ _ =>
    if (2 ≤ ofDigits 10 base ∧ ofDigits 10 base ≤ 36) ∧ digits ≠ [] ∧
        digits.all (fun c => digitValue c < ofDigits 10 base) then
      some (ofDigits (ofDigits 10 base) digits)
    else none

structure Literal where
  sign : Sign
  body : Body

def Literal.text (lit : Literal) : List Char := lit.sign.text ++ lit.body.text

def Literal.value (lit : Literal) : Option Int :=
  lit.body.value.map (withSign lit.sign.negative)

/-- The literal is read off the front of the text and denotes its value, or it is rejected and has
none. -/
def Honest (lit : Literal) (rest : List Char) : EStateM.Result Raised Lexer (Token × Span) → Prop
  | .ok (token, _) l => ∃ n, lit.value = some n ∧ Denotes n token ∧ l.rest = rest
  | .error (.error _) _ => lit.value = none
  | .error _ _ => False

/-- What the accumulator of a notation can hold: 128 bits for hexadecimal and radix digits, 63 for
octal ones. A hexadecimal literal ends at its first other letter, radix digits must be there, the
radix must be in range, and with overflow checks the radix literal for the least `Long` panics. -/
def Body.Exact (checks negative : Bool) : Body → Prop
  | decimal _ _ _ => True
  | hex _ digits _ _ =>
    (digits.all isHexDigit = true → ofDigits 16 digits < 2 ^ 128) ∧
      (digits.all isHexDigit = false → digits.head?.any isHexDigit = false)
  | octal digits _ => digits.all isOctalDigit = true → ofDigits 8 digits < 2 ^ 63
  | radix base _ digits _ _ _ =>
    digits ≠ [] ∧ (2 ≤ ofDigits 10 base ∧ ofDigits 10 base ≤ 36) ∧
      (digits.all (fun c => digitValue c < ofDigits 10 base) = true →
        ofDigits (ofDigits 10 base) digits < 2 ^ 128 ∧
          ¬ (checks = true ∧ negative = true ∧ ofDigits (ofDigits 10 base) digits = 2 ^ 63))

/-! ## Ends of tokens -/

/-- The text after a literal: a delimiter or nothing. -/
def Ends (rest : List Char) : Prop := Stops isSymbolChar rest

theorem delimiters_not_alphanum : ∀ c ∈ delimiters, c.isAlphanum = false := by decide

variable {c : Char} {rest : List Char} {kind : Char → Bool} {radix : Nat} {digits : List Char}
  {sign : Sign} {token : Token} {lit : Literal}

theorem isSymbolChar_of_isAlphanum (h : c.isAlphanum = true) : isSymbolChar c = true := by
  rw [isSymbolChar, Bool.not_eq_true', ← Bool.not_eq_true, contains_iff_mem]
  intro hc
  rw [delimiters_not_alphanum c hc] at h
  cases h

theorem isAlphanum_of_isDigit (h : c.isDigit = true) : c.isAlphanum = true := by
  rw [Char.isAlphanum, h, Bool.or_true]

theorem isAlphanum_iff : c.isAlphanum = true ↔
    ('A'.val ≤ c.val ∧ c.val ≤ 'Z'.val) ∨ ('a'.val ≤ c.val ∧ c.val ≤ 'z'.val) ∨ c.isDigit = true := by
  have hrun : c.isAlphanum = ((decide (c.val ≥ 'A'.val ∧ c.val ≤ 'Z'.val) ||
      decide (c.val ≥ 'a'.val) && decide (c.val ≤ 'z'.val)) || c.isDigit) := rfl
  grind

theorem isAlphanum_of_isHexDigit (h : isHexDigit c = true) : c.isAlphanum = true := by
  simp only [isHexDigit, Bool.or_eq_true] at h
  rcases h with (h | h) | h
  · exact isAlphanum_of_isDigit h
  all_goals
    simp only [Bool.and_eq_true, decide_eq_true_eq, Char.le_def, UInt32.le_iff_toNat_le] at h
    rw [isAlphanum_iff]
    simp only [UInt32.le_iff_toNat_le]
    grind

theorem Ends.stops (h : Ends rest)
    (hkind : ∀ c, kind c = true → isSymbolChar c = true) : Stops kind rest := by
  cases rest with
  | nil => rfl
  | cons c =>
    have hc : isSymbolChar c = false := h
    by_contra hne
    have hk : kind c = true := by simpa [Stops] using hne
    grind

theorem Ends.head_ne (h : Ends rest) (hc : isSymbolChar c = true) : rest.head? ≠ some c := by
  cases rest with
  | nil => simp
  | cons d =>
    have hd : isSymbolChar d = false := h
    grind

theorem takeWhile_append_of_stops (h : Stops kind rest) :
    ∀ cs : List Char, (cs ++ rest).takeWhile kind = cs.takeWhile kind ∧
      (cs ++ rest).dropWhile kind = cs.dropWhile kind ++ rest
  | [] => takeWhile_of_stops (by simp) h
  | c :: cs => by
    have ih := takeWhile_append_of_stops h cs
    by_cases hc : kind c = true
    · simp [hc, ih.1, ih.2]
    · simp [hc]

/-! ## The loop over radix digits -/

variable {p : Platform} {l : Lexer} {start : Lexer}

/-- What the digits of a radix literal come to: their number modulo `2 ^ 128`, or one is no digit of
the radix, or there are some and the radix is out of range. -/
inductive RadixRun (radix : Nat) (digits : List Char) (value : Nat) (f : Nat → Lex Token) (l : Lexer) :
    EStateM.Result Raised Lexer Token → Prop where
  | read (hin : digits = [] ∨ 2 ≤ radix ∧ radix ≤ 36)
      (hall : digits.all (fun c => digitValue c < radix) = true) :
      RadixRun radix digits value f l (f (value % 2 ^ 128) l)
  | error (hin : 2 ≤ radix ∧ radix ≤ 36)
      (hall : digits.all (fun c => digitValue c < radix) = false) (e : ReadError) :
      RadixRun radix digits value f l (.error (.error e) l)
  | panic (hne : digits ≠ []) (hout : ¬ (2 ≤ radix ∧ radix ≤ 36)) (message : String) :
      RadixRun radix digits value f l (.error (.panic message) l)

theorem radixLoop_run (start l : Lexer) (f : Nat → Lex Token) : ∀ (digits : List Char) {n m : Nat},
    m = n % 2 ^ 128 →
    RadixRun radix digits (digits.foldl (fun n c => n * radix + digitValue c) n) f l
      ((radixLoop p start radix digits m >>= f) l)
  | [], _, _, rfl => .read (.inl rfl) rfl
  | c :: digits, n, m, hm => by
    rw [radixLoop, toDigit]
    by_cases hrange : radix < 2 ∨ 36 < radix
    · rw [if_pos hrange]
      exact .panic (by simp) (by omega) _
    rw [if_neg hrange]
    by_cases hc : digitValue c < radix
    · have hnext : (m * radix % 2 ^ 128 + digitValue c) % 2 ^ 128 =
          (n * radix + digitValue c) % 2 ^ 128 := by
        rw [hm, Nat.mod_mul_mod, Nat.mod_add_mod]
      have hall : (c :: digits).all (fun c => digitValue c < radix) =
          digits.all (fun c => digitValue c < radix) := by simp [hc]
      have hrest := radixLoop_run start l f digits hnext
      simp only [if_pos hc, foldl_cons]
      generalize (radixLoop p start radix digits _ >>= f) l = result at hrest ⊢
      cases hrest with
      | read _ h => exact .read (.inr (by omega)) (hall.trans h)
      | error hin h e => exact .error hin (hall.trans h) e
      | panic _ hout => omega
    · rw [if_neg hc]
      exact .error (by omega) (by simp [hc]) _

/-! ## Sign and digits -/

theorem lexSign_run (sign : Sign) (hl : Small l) (h : l.rest = sign.text ++ rest)
    (hrest : rest.head?.any Char.isDigit = true) :
    ∃ l', lexSign p l = .ok sign.negative l' ∧ Steps l sign.text l' ∧ l'.rest = rest := by
  cases sign with
  | none =>
    have hne : ∀ d : Char, d.isDigit = false → rest.head? ≠ some d := by
      intro d hd heq
      rw [heq] at hrest
      simp [hd] at hrest
    have hrest' : l.rest = rest := h
    refine ⟨l, ?_, hl.steps, hrest'⟩
    rw [lexSign, run_bind (peek_run l), hrest', if_neg (hne '-' rfl), if_neg (hne '+' rfl)]
    rfl
  | plus | minus =>
    obtain ⟨l', hadv, hsteps, hrest'⟩ := advance_run p hl h
    refine ⟨l', ?_, hsteps, hrest'⟩
    rw [lexSign, run_bind (peek_run l), h]
    exact run_bind hadv

theorem lexNumber_run (start : Lexer) (sign : Sign) (hl : Small l)
    (hd : Digits digits) (h : l.rest = sign.text ++ (digits ++ rest)) (hrest : Stops Char.isDigit rest) :
    ∃ l', Small l' ∧ l'.rest = rest ∧
      lexNumber p start l = lexAfterDigits p start sign.negative digits l' := by
  have hhead : (digits ++ rest).head?.any Char.isDigit = true := by
    cases digits with
    | nil => exact absurd rfl hd.ne_nil
    | cons c => exact hd.digits c (.head _)
  obtain ⟨l1, hsign, hsteps1, hrest1⟩ := lexSign_run (p := p) sign hl h hhead
  obtain ⟨l2, hwhile, hsteps2, hrest2⟩ := advanceWhile_run p hsteps1.small hrest1 hd.digits hrest
  refine ⟨l2, hsteps2.small, hrest2, ?_⟩
  rw [lexNumber, run_bind hsign, run_bind hwhile]

theorem lead_number (sign : Sign) (rest : List Char) (hd : Digits digits) :
    ∃ c tail, sign.text ++ (digits ++ rest) = c :: tail ∧ lead c tail.head? = .number ∧
      StartsToken c tail := by
  cases digits with
  | nil => exact absurd rfl hd.ne_nil
  | cons d digits =>
    have hdigit := hd.digits d (.head _)
    cases sign with
    | none =>
      refine ⟨d, digits ++ rest, rfl, ?_, ?_⟩
      · have hlookup : punctuation.lookup d = none := by
          rw [lookup_eq_none_iff]
          intro entry hentry
          have hent : ∀ e ∈ punctuation, e.1.isDigit = false := by decide
          have hne := ne_of_isDigit hdigit (hent entry hentry)
          simpa using hne
        have hne : ∀ e : Char, e.isDigit = false → d ≠ e := fun e he => ne_of_isDigit hdigit he
        simp [lead, hlookup, hne '~' rfl, hne '#' rfl, hne '"' rfl, hne '\\' rfl, hne ':' rfl, hdigit]
      · exact startsToken_of (P := (·.isDigit = true)) (by decide) hdigit _
    | plus =>
      have hlookup : punctuation.lookup '+' = none := by decide
      refine ⟨'+', d :: (digits ++ rest), rfl, ?_, startsToken_of (P := (· = '+')) (by decide) rfl _⟩
      simp [lead, hlookup, hdigit]
    | minus =>
      have hlookup : punctuation.lookup '-' = none := by decide
      refine ⟨'-', d :: (digits ++ rest), rfl, ?_, startsToken_of (P := (· = '-')) (by decide) rfl _⟩
      simp [lead, hlookup, hdigit]

/-! ## Honest results -/

/-- The same of the token alone. -/
def HonestToken (lit : Literal) (rest : List Char) : EStateM.Result Raised Lexer Token → Prop
  | .ok token l => ∃ n, lit.value = some n ∧ Denotes n token ∧ l.rest = rest
  | .error (.error _) _ => lit.value = none
  | .error _ _ => False

theorem honest_nextToken {tail : List Char} {exact : Prop} (hl : Small l)
    (hd : Digits digits) (h : l.rest = sign.text ++ (digits ++ tail))
    (htail : Stops Char.isDigit tail) (hiff : ∀ l', Small l' → l'.rest = tail →
      (HonestToken lit rest (lexAfterDigits p l sign.negative digits l') ↔ exact)) :
    Honest lit rest (nextToken p l) ↔ exact := by
  obtain ⟨l', hsmall, hrest, hnumber⟩ := lexNumber_run (p := p) l sign hl hd h htail
  obtain ⟨c, more, htext, hlead, hstarts⟩ := lead_number sign tail hd
  have hl' : l.rest = c :: more := h.trans htext
  rw [← hiff l' hsmall hrest]
  have hlex : lexLead p l c (lead c more.head?) l = lexAfterDigits p l sign.negative digits l' := by
    rw [hlead]
    exact hnumber
  cases hres : lexAfterDigits p l sign.negative digits l' with
  | ok =>
    rw [nextToken_ok hl' hstarts (hlex.trans hres)]
    exact Iff.rfl
  | error e =>
    rw [nextToken_error hl' hstarts (hlex.trans hres)]
    cases e <;> exact Iff.rfl

theorem Denotes.unique {m n : Int} (hm : Denotes m token) (hn : Denotes n token) : m = n := by
  cases token with
  | int i => exact hm.symm.trans hn
  | bigInt s => exact Option.some.inj (hm.2.symm.trans hn.2)
  | _ => exact False.elim hm

theorem honestToken_iff {value read : Nat}
    (hvalue : lit.body.value = some value) (hread : Denotes (withSign lit.sign.negative read) token)
    (hrest : l.rest = rest) : HonestToken lit rest (.ok token l) ↔ value = read := by
  have hlit : lit.value = some (withSign lit.sign.negative value) := by rw [Literal.value, hvalue]; rfl
  constructor
  · rintro ⟨n, hn, hdenotes, -⟩
    rw [hlit] at hn
    cases Option.some.inj hn
    have hsame := hdenotes.unique hread
    unfold withSign at hsame
    split at hsame <;> omega
  · rintro rfl
    exact ⟨_, hlit, hread, hrest⟩

theorem not_honestToken_of_malformed
    (hvalue : lit.body.value = none) : ¬ HonestToken lit rest (.ok token l) := by
  rintro ⟨n, hn, -⟩
  rw [Literal.value, hvalue] at hn
  cases hn

theorem honestToken_of_malformed {e : ReadError}
    (hvalue : lit.body.value = none) : HonestToken lit rest (.error (.error e) l) := by
  simp only [HonestToken, Literal.value, hvalue]
  rfl

/-! ## Each notation -/

theorem Ends.any_eq_false (h : Ends rest) {cs : List Char}
    (hcs : ∀ c ∈ cs, isSymbolChar c = true) : rest.head?.any cs.contains = false := by
  cases rest with
  | nil => rfl
  | cons d =>
    have hd : isSymbolChar d = false := h
    grind

theorem lexAfterDigits_integer (negative : Bool)
    (hlead : digits.head? = some '0' → digits = ['0']) (hends : Ends rest) (hrest : l.rest = rest) :
    lexAfterDigits p start negative digits l =
      .ok (integerToken negative (ofDigits 10 digits) (String.ofList digits)) l := by
  subst hrest
  have hnext : ∀ c : Char, isSymbolChar c = true → l.rest.head? ≠ some c := fun c => hends.head_ne
  have hfloat : l.rest.head?.any ['.', 'e', 'E'].contains = false := hends.any_eq_false (by decide)
  have hoctal : ¬ (1 < digits.length ∧ digits.head? = some '0' ∧
      (!l.rest.head?.any ['.', 'e', 'E', 'N', 'M', '/'].contains) = true) := by
    rintro ⟨hlen, hzero, -⟩
    rw [hlead hzero] at hlen
    simp at hlen
  rw [lexAfterDigits, run_bind (peek_run l)]
  simp only [hnext 'x' rfl, hnext 'X' rfl, hnext 'r' rfl, hnext 'R' rfl, hnext 'N' rfl,
    hnext 'M' rfl, hnext '/' rfl, hfloat, if_neg hoctal, or_self, and_false, false_and, if_false,
    Bool.false_eq_true]
  rfl

theorem ofDigits_cons_zero (radix : Nat) (digits : List Char) :
    ofDigits radix ('0' :: digits) = ofDigits radix digits := by
  rw [ofDigits, foldl_cons]
  have hzero : 0 * radix + digitValue '0' = 0 := by
    rw [Nat.zero_mul]
    rfl
  rw [hzero]
  rfl

theorem any_above_seven (hd : ∀ c ∈ digits, c.isDigit = true) :
    ('0' :: digits).any (fun c => c = '8' ∨ c = '9') = !digits.all isOctalDigit := by
  have hchar : ∀ {c : Char}, c.isDigit = true →
      (decide (c = '8' ∨ c = '9') = !isOctalDigit c) := by
    intro c hc
    have hrange := Decimal.toNat_of_isDigit hc
    have h8 : c = '8' ↔ c.toNat = 56 := by
      rw [← Char.toNat_inj]
      rfl
    have h9 : c = '9' ↔ c.toNat = 57 := by
      rw [← Char.toNat_inj]
      rfl
    have h0 : '0' ≤ c ↔ 48 ≤ c.toNat := Iff.rfl
    have h7 : c ≤ '7' ↔ c.toNat ≤ 55 := Iff.rfl
    rw [isOctalDigit, Bool.eq_iff_iff]
    simp only [decide_eq_true_eq, Bool.not_eq_true', Bool.and_eq_false_iff, decide_eq_false_iff_not,
      h8, h9, h0, h7]
    omega
  grind

theorem toInt_neg_asI64 {value : Nat} (h : value < 2 ^ 63) : (-(asI64 value)).toInt = -(value : Int) := by
  rw [Int64.toInt_neg, toInt_asI64 h]
  grind

attribute [local simp] Body.value

theorem honest_octal (hd : Digits digits) (hends : Ends rest) (hrest : l.rest = rest) :
    HonestToken ⟨sign, .octal digits hd⟩ rest
        (lexAfterDigits p start sign.negative ('0' :: digits) l) ↔
      (Body.octal digits hd).Exact p.checks sign.negative := by
  subst hrest
  have hnext : ∀ c : Char, isSymbolChar c = true → l.rest.head? ≠ some c := fun c => hends.head_ne
  have hoctal : l.rest.head?.any ['.', 'e', 'E', 'N', 'M', '/'].contains = false :=
    hends.any_eq_false (by decide)
  have hlen : 1 < ('0' :: digits).length := by
    have := length_pos_iff.mpr hd.ne_nil
    simp only [length_cons]
    omega
  have hrun : lexAfterDigits p start sign.negative ('0' :: digits) l =
      lexOctal start sign.negative ('0' :: digits) l := by
    rw [lexAfterDigits, run_bind (peek_run l)]
    simp only [hnext 'x' rfl, hnext 'X' rfl, hnext 'r' rfl, hnext 'R' rfl, hoctal, hlen, or_self,
      and_false, if_false, head?_cons, Bool.not_false, and_self, if_true]
  rw [hrun, lexOctal, any_above_seven hd.digits, ofDigits_cons_zero]
  by_cases hall : digits.all isOctalDigit = true
  · have hvalue : (Body.octal digits hd).value = some (ofDigits 8 digits) := by
      simp only [Body.value, if_pos hall]
    simp only [hall, Bool.not_true, Bool.false_eq_true, if_false]
    -- the accumulator holds the number, or zero if it does not fit
    generalize hkept : (if ofDigits 8 digits < 2 ^ 63 then ofDigits 8 digits else 0) = kept
    have hsmall : kept < 2 ^ 63 := by
      rw [← hkept]
      split <;> omega
    have hread : Denotes (withSign sign.negative kept)
        (.int (if sign.negative then -(asI64 kept) else asI64 kept)) := by
      cases sign.negative with
      | true => exact toInt_neg_asI64 hsmall
      | false => exact toInt_asI64 hsmall
    refine (honestToken_iff hvalue hread rfl).trans ?_
    simp only [Body.Exact, hall, true_imp_iff, ← hkept]
    split <;> omega
  · have hvalue : (Body.octal digits hd).value = none := by simp [hall]
    simp only [hall, Bool.not_false, if_true, Body.Exact, Bool.false_eq_true, false_imp_iff, iff_true]
    exact honestToken_of_malformed hvalue

theorem honest_hex {mark : Char}
    (hmark : mark = 'x' ∨ mark = 'X') (hd : ∀ c ∈ digits, c.isAlphanum = true) (hends : Ends rest)
    (hl : Small l) (hrest : l.rest = mark :: (digits ++ rest)) :
    HonestToken ⟨sign, .hex mark digits hmark hd⟩ rest
        (lexAfterDigits p start sign.negative ['0'] l) ↔
      (Body.hex mark digits hmark hd).Exact p.checks sign.negative := by
  have hnext : l.rest.head? = some 'x' ∨ l.rest.head? = some 'X' := by simpa [hrest] using hmark
  have hrun : lexAfterDigits p start sign.negative ['0'] l = lexHex p start sign.negative l := by
    rw [lexAfterDigits, run_bind (peek_run l)]
    simp only [hnext, and_self, if_true]
  obtain ⟨l1, hadv, hsteps, hrest1⟩ := advance_run p hl hrest
  obtain ⟨l2, hwhile, -, hrest2⟩ := advanceWhile_takeWhile p isHexDigit hsteps.small
  have hstops : Stops isHexDigit rest := hends.stops fun c hc =>
    isSymbolChar_of_isAlphanum (isAlphanum_of_isHexDigit hc)
  have hsplit := takeWhile_append_of_stops hstops digits
  rw [hrest1, hsplit.1] at hwhile
  rw [hrest1, hsplit.2] at hrest2
  rw [hrun, lexHex, run_bind hadv, run_bind hwhile]
  by_cases hall : digits.all isHexDigit = true
  · -- all digits are read
    have hnone : Stops isHexDigit [] := rfl
    have hread := takeWhile_of_stops (all_eq_true.mp hall) hnone
    rw [append_nil] at hread
    rw [hread.2, nil_append] at hrest2
    rw [hread.1]
    by_cases hnil : digits = []
    · subst hnil
      have hvalue : (Body.hex mark [] hmark hd).value = none := by simp
      have hexact : (Body.hex mark [] hmark hd).Exact p.checks sign.negative := by
        refine ⟨fun _ => by decide, fun _ => rfl⟩
      exact iff_of_true (honestToken_of_malformed hvalue) hexact
    · have hvalue : (Body.hex mark digits hmark hd).value = some (ofDigits 16 digits) := by
        simp only [Body.value, if_pos (And.intro hnil hall)]
      have hempty : digits.isEmpty = false := by simpa using hnil
      simp only [hempty, Bool.false_eq_true, if_false]
      have hread := denotes_integerToken_repr sign.negative
        (if ofDigits 16 digits ≤ u128Max then ofDigits 16 digits else u128Max)
      refine (honestToken_iff hvalue hread hrest2).trans ?_
      simp only [Body.Exact, hall, Bool.true_eq_false, true_imp_iff, false_imp_iff, and_true]
      have hmax : u128Max + 1 = 2 ^ 128 := rfl
      split <;> omega
  · rw [Bool.not_eq_true] at hall
    have hvalue : (Body.hex mark digits hmark hd).value = none := by simp [hall]
    simp only [Body.Exact, hall, Bool.false_eq_true, false_imp_iff, true_and, true_imp_iff]
    cases digits with
    | nil => cases hall
    | cons c digits =>
      by_cases hc : isHexDigit c = true
      · -- some digits are read and the rest is left over
        have htake : (c :: digits).takeWhile isHexDigit = c :: digits.takeWhile isHexDigit := by
          simp [hc]
        rw [htake]
        refine iff_of_false ?_ (by simp [hc])
        exact not_honestToken_of_malformed hvalue
      · have htake : (c :: digits).takeWhile isHexDigit = [] := by simp [hc]
        rw [htake]
        refine iff_of_true ?_ (by simpa using hc)
        exact honestToken_of_malformed hvalue

/-- The radix of a literal, as a number of 32 bits. -/
def radixOf (base : List Char) : Nat := if ofDigits 10 base < 2 ^ 32 then ofDigits 10 base else 0

theorem radixOf_in_range (base : List Char) :
    (2 ≤ radixOf base ∧ radixOf base ≤ 36 ↔ 2 ≤ ofDigits 10 base ∧ ofDigits 10 base ≤ 36) ∧
      (2 ≤ ofDigits 10 base ∧ ofDigits 10 base ≤ 36 → radixOf base = ofDigits 10 base) := by
  unfold radixOf
  split <;> omega

theorem radixToken_run (p : Platform) (negative : Bool) (value : Nat) (l : Lexer) :
    ((p.checks = true ∧ negative = true ∧ value = 2 ^ 63) ∧
      ∃ message, radixToken p negative value l = .error (.panic message) l) ∨
    (¬ (p.checks = true ∧ negative = true ∧ value = 2 ^ 63) ∧
      ∃ token, radixToken p negative value l = .ok token l ∧
        Denotes (withSign negative value) token) := by
  unfold radixToken
  by_cases hsmall : negative = true ∧ value ≤ 2 ^ 63
  · rw [if_pos hsmall, negI64, hsmall.1]
    by_cases hmin : value = 2 ^ 63
    · subst hmin
      by_cases hchecks : p.checks = true
      · rw [if_pos hchecks]
        exact .inl ⟨⟨hchecks, rfl, rfl⟩, _, rfl⟩
      · rw [if_neg hchecks]
        refine .inr ⟨fun h => hchecks h.1, _, rfl, ?_⟩
        show (asI64 (2 ^ 63)).toInt = withSign true (2 ^ 63)
        decide
    · have hlt : value < 2 ^ 63 := by omega
      have hne : asI64 value ≠ Int64.minValue := by
        intro heq
        have := toInt_asI64 hlt
        rw [heq] at this
        have hminValue : Int64.minValue.toInt = -2 ^ 63 := by decide
        omega
      rw [if_neg hne]
      exact .inr ⟨fun h => hmin h.2.2, _, rfl, toInt_neg_asI64 hlt⟩
  · rw [if_neg hsmall]
    refine .inr ⟨?_, _, rfl, denotes_integerToken_repr negative value⟩
    grind

theorem lexRadix_run {mark : Char} {tail : List Char} (start : Lexer) (negative : Bool)
    (base : List Char) (hl : Small l) (hrest : l.rest = mark :: tail) :
    ∃ l', Steps l (mark :: tail.takeWhile Char.isAlphanum) l' ∧
      l'.rest = tail.dropWhile Char.isAlphanum ∧
      RadixRun (radixOf base) (tail.takeWhile Char.isAlphanum)
        (ofDigits (radixOf base) (tail.takeWhile Char.isAlphanum)) (radixToken p negative) l'
        (lexRadix p start negative base l) := by
  obtain ⟨l1, hadv, hsteps1, hrest1⟩ := advance_run p hl hrest
  obtain ⟨l2, hwhile, hsteps2, hrest2⟩ :=
    advanceWhile_takeWhile p Char.isAlphanum hsteps1.small
  rw [hrest1] at hwhile hsteps2 hrest2
  refine ⟨l2, hsteps1.trans hsteps2, hrest2, ?_⟩
  rw [lexRadix, run_bind hadv, run_bind hwhile]
  exact radixLoop_run start l2 (radixToken p negative) _ rfl

theorem honest_radix {mark : Char} {base : List Char} (hbase : Digits base)
    (hmark : mark = 'r' ∨ mark = 'R') (hd : ∀ c ∈ digits, c.isAlphanum = true) (hends : Ends rest)
    (hl : Small l) (hrest : l.rest = mark :: (digits ++ rest)) :
    HonestToken ⟨sign, .radix base mark digits hbase hmark hd⟩ rest
        (lexAfterDigits p start sign.negative base l) ↔
      (Body.radix base mark digits hbase hmark hd).Exact p.checks sign.negative := by
  have hnext : l.rest.head? = some 'r' ∨ l.rest.head? = some 'R' := by simpa [hrest] using hmark
  have hhex : ¬ (base = ['0'] ∧ (l.rest.head? = some 'x' ∨ l.rest.head? = some 'X')) := by
    rintro ⟨-, hx | hx⟩ <;> rcases hnext with h | h <;> rw [hx] at h <;> cases h
  have hrun : lexAfterDigits p start sign.negative base l =
      lexRadix p start sign.negative base l := by
    rw [lexAfterDigits, run_bind (peek_run l)]
    simp only [if_neg hhex, hnext, if_true]
  have hstops : Stops Char.isAlphanum rest := hends.stops fun c hc => isSymbolChar_of_isAlphanum hc
  obtain ⟨htake, hdrop⟩ := takeWhile_of_stops hd hstops
  obtain ⟨l2, -, hrest2, hradix⟩ := lexRadix_run (p := p) start sign.negative base hl hrest
  rw [htake] at hradix
  rw [hdrop] at hrest2
  obtain ⟨hrange, hsame⟩ := radixOf_in_range base
  rw [hrun]
  generalize lexRadix p start sign.negative base l = result at hradix ⊢
  cases hradix with
  | read hin hall =>
    by_cases hnil : digits = []
    · -- without digits the value is zero
      subst hnil
      have hvalue : (Body.radix base mark [] hbase hmark hd).value = none := by simp
      refine iff_of_false ?_ (fun h => h.1 rfl)
      rcases radixToken_run p sign.negative 0 l2 with ⟨h, -⟩ | ⟨-, token, htoken, -⟩
      · cases h.2.2
      · exact htoken ▸ not_honestToken_of_malformed hvalue
    · have hin := hrange.mp (hin.resolve_left hnil)
      rw [hsame hin] at hall ⊢
      have hvalue : (Body.radix base mark digits hbase hmark hd).value =
          some (ofDigits (ofDigits 10 base) digits) := by
        simp only [Body.value, if_pos (And.intro hin (And.intro hnil hall))]
      have hexact : (Body.radix base mark digits hbase hmark hd).Exact p.checks sign.negative ↔
          ofDigits (ofDigits 10 base) digits < 2 ^ 128 ∧ ¬ (p.checks = true ∧
            sign.negative = true ∧ ofDigits (ofDigits 10 base) digits = 2 ^ 63) :=
        ⟨fun h => h.2.2 hall, fun h => ⟨hnil, hin, fun _ => h⟩⟩
      rw [hexact]
      rcases radixToken_run p sign.negative (ofDigits (ofDigits 10 base) digits % 2 ^ 128) l2 with
        ⟨⟨hchecks, hneg, hmin⟩, message, hpanic⟩ | ⟨hno, token, htoken, hread⟩
      · rw [hpanic]
        refine iff_of_false id ?_
        grind
      · rw [htoken, honestToken_iff hvalue hread hrest2]
        constructor
        · grind
        · omega
  | error hin hall e =>
    have hin := hrange.mp hin
    rw [hsame hin] at hall
    have hvalue : (Body.radix base mark digits hbase hmark hd).value = none := by simp [hall]
    refine iff_of_true (honestToken_of_malformed hvalue) ⟨fun hnil => ?_, hin, ?_⟩
    all_goals grind
  | panic hne hout message => exact iff_of_false id fun h => hout (hrange.mpr h.2.1)

/-- Tables in which every character beyond ASCII is a letter, without floats. -/
def plainPlatform (checks : Bool) : Platform where
  checks := checks
  isAlphanumeric c := if c.toNat < 128 then c.isAlphanum else true
  isAlphanumeric_ascii c h := by rw [if_pos h]
  debugChar c := "'" ++ String.singleton c ++ "'"
  parseF64 _ := none

end Clojurust.Reader
