import Clojurust.Reader.Integers

/-!
# The lexer comes to an end

Every call of `next_token` returns a token, fails with a read error or panics, and it panics exactly
if a text that `Hazard` names starts where the token starts.

* `Hazard` — a `\u` literal whose fifth byte is inside a character, and radix literals with a radix
  that has no digits or whose negation overflows;
* `Outcome` — what a lexer function that starts at some state can do; `Reads` — one that
  never panics, with one rule for each construct;
* `tokenStart` — where the next token starts;
* `nextToken_outcome` — tokens consume text, and only hazards panic.

The lexer has no recursion of its own, so that its native stack is of no concern here.
-/

namespace Clojurust.Reader

open StateExcept List

/-! ## Hazards -/

/-- The characters that `lex_char_literal` takes for a name. -/
def charName (p : Platform) (text : List Char) : List Char :=
  text.takeWhile fun c => p.isAlphanumeric c || c == '-'

/-- After the backslash stands `u`, and the next four bytes do not end with a character. -/
def CharHazard (p : Platform) (text : List Char) : Prop :=
  (charName p text).head? = some 'u' ∧ 5 ≤ utf8Len (charName p text) ∧
    splitBytes 4 (charName p text).tail = none

/-- After the leading digits stand `r` and digits, and the radix is out of range or the number is
negated to `2 ^ 63`. -/
def RadixHazard (p : Platform) (negative : Bool) (intPart text : List Char) : Prop :=
  (text.head? = some 'r' ∨ text.head? = some 'R') ∧ text.tail.takeWhile Char.isAlphanum ≠ [] ∧
    (2 ≤ radixOf intPart ∧ radixOf intPart ≤ 36 →
      (text.tail.takeWhile Char.isAlphanum).all (fun c => digitValue c < radixOf intPart) = true ∧
        p.checks = true ∧ negative = true ∧
          ofDigits (radixOf intPart) (text.tail.takeWhile Char.isAlphanum) % 2 ^ 128 = 2 ^ 63)

/-- The text after an optional sign. -/
def unsigned (text : List Char) : List Char :=
  if text.head? = some '-' ∨ text.head? = some '+' then text.tail else text

def NumberHazard (p : Platform) (text : List Char) : Prop :=
  RadixHazard p (text.head? = some '-') ((unsigned text).takeWhile Char.isDigit)
    ((unsigned text).dropWhile Char.isDigit)

/-- The texts at which the lexer panics. -/
def Hazard (p : Platform) : List Char → Prop
  | [] => False
  | c :: rest =>
    match lead c rest.head? with
    | .charLiteral => CharHazard p rest
    | .number => NumberHazard p (c :: rest)
    | _ => False

instance (p : Platform) (text : List Char) : Decidable (CharHazard p text) :=
  inferInstanceAs (Decidable (_ ∧ _))

instance (p : Platform) (negative : Bool) (intPart text : List Char) :
    Decidable (RadixHazard p negative intPart text) := inferInstanceAs (Decidable (_ ∧ _))

instance (p : Platform) (text : List Char) : Decidable (NumberHazard p text) :=
  inferInstanceAs (Decidable (RadixHazard ..))

instance (p : Platform) : DecidablePred (Hazard p)
  | [] => .isFalse id
  | c :: rest =>
    if hchar : lead c rest.head? = .charLiteral then
      decidable_of_iff (CharHazard p rest) (by simp [Hazard, hchar])
    else if hnumber : lead c rest.head? = .number then
      decidable_of_iff (NumberHazard p (c :: rest)) (by simp [Hazard, hnumber])
    else .isFalse (by unfold Hazard; split <;> simp_all)

/-! ## Outcomes -/

/-- Some characters have been read. -/
def Onward (l l' : Lexer) : Prop := ∃ cs, Steps l cs l'

/-- At least one character has been read. -/
def Forward (l l' : Lexer) : Prop := ∃ cs, cs ≠ [] ∧ Steps l cs l'

/-- What may be raised, with and without a hazard. -/
def Raised.Due (hazard : Prop) : Raised → Prop
  | error _ => ¬ hazard
  | panic _ => hazard
  | diverged => False

/-- From `l` on, `x` returns with `Q` and some progress, fails with a read error, or there is a
hazard and it panics. -/
def Outcome {α : Type} (hazard : Prop) (Progress : Lexer → Lexer → Prop) (Q : α → Prop) (l : Lexer)
    (x : Lex α) : Prop :=
  wp x (fun a l' => Progress l l' ∧ Q a ∧ ¬ hazard) (fun e l' => Onward l l' ∧ e.Due hazard) l

/-- `x` never panics. -/
def Reads {α : Type} (Q : α → Prop) (x : Lex α) : Prop :=
  ∀ l, Small l → Outcome False Onward Q l x

variable {l l' : Lexer}

theorem Onward.refl (h : Small l) : Onward l l := ⟨[], h.steps⟩

theorem Onward.small (h : Onward l l') : Small l' := by
  obtain ⟨cs, hcs⟩ := h
  exact hcs.small

theorem Onward.trans {l'' : Lexer} (h : Onward l l') (h' : Onward l' l'') : Onward l l'' := by
  obtain ⟨cs, hcs⟩ := h
  obtain ⟨ds, hds⟩ := h'
  exact ⟨cs ++ ds, hcs.trans hds⟩

theorem Onward.suffix (h : Onward l l') : l'.rest <:+ l.rest := by
  obtain ⟨cs, hcs⟩ := h
  exact ⟨cs, hcs.rest.symm⟩

theorem Forward.onward (h : Forward l l') : Onward l l' := by
  obtain ⟨cs, -, hcs⟩ := h
  exact ⟨cs, hcs⟩

theorem Forward.trans {l'' : Lexer} (h : Forward l l') (h' : Onward l' l'') : Forward l l'' := by
  obtain ⟨cs, hne, hcs⟩ := h
  obtain ⟨ds, hds⟩ := h'
  exact ⟨cs ++ ds, by simp [hne], hcs.trans hds⟩

theorem Forward.pos_lt (h : Forward l l') : l.pos < l'.pos := by
  obtain ⟨cs, hne, hcs⟩ := h
  have hlen := length_le_utf8Len cs
  have hpos := length_pos_iff.mpr hne
  rw [hcs.pos]
  omega

theorem Onward.forward (h : Onward l l') (hne : l'.rest ≠ l.rest) : Forward l l' := by
  obtain ⟨cs, hcs⟩ := h
  refine ⟨cs, ?_, hcs⟩
  grind

section Rules

variable {α β : Type} {Q : α → Prop} {R : β → Prop} {x : Lex α} {f : α → Lex β} {l l' : Lexer}
  {hazard : Prop}

variable {a : α} {message : String}

theorem outcome_pure (hl : Small l) (h : Q a) (hsafe : ¬ hazard) :
    Outcome hazard Onward Q l (pure a : Lex α) := ⟨.refl hl, h, hsafe⟩

theorem outcome_readError {start : Lexer} (hl : Small l) (hsafe : ¬ hazard) :
    Outcome hazard Onward Q l (readError start message) := ⟨.refl hl, hsafe⟩

theorem outcome_from {Progress : Lexer → Lexer → Prop} {y : Lex α} (heq : x l = y l')
    (h : Onward l l') (hprogress : ∀ l'', Onward l' l'' → Progress l l'')
    (hy : Outcome hazard Onward Q l' y) : Outcome hazard Progress Q l x := by
  unfold Outcome wp
  rw [heq]
  exact wp_weaken hy (fun _ _ hr => ⟨hprogress _ hr.1, hr.2⟩) (fun _ _ he => ⟨h.trans he.1, he.2⟩)

theorem outcome_forward {y : Lex α} (heq : x l = y l') (h : Forward l l')
    (hy : Outcome hazard Onward Q l' y) : Outcome hazard Forward Q l x :=
  outcome_from heq h.onward (fun _ => h.trans) hy

theorem outcome_after (hrun : x l = .ok a l') (h : Onward l l')
    (hf : Outcome hazard Onward R l' (f a)) : Outcome hazard Onward R l (x >>= f) :=
  outcome_from (run_bind hrun) h (fun _ => h.trans) hf

theorem Reads.outcome (h : Reads Q x) (hl : Small l) (hsafe : ¬ hazard) :
    Outcome hazard Onward Q l x := by
  refine wp_weaken (h l hl) (fun a l' ha => ⟨ha.1, ha.2.1, hsafe⟩) (fun e l' he => ⟨he.1, ?_⟩)
  grind

theorem Reads.then (hx : Reads Q x) (hl : Small l) (hsafe : ¬ hazard)
    (hf : ∀ a l', Q a → Onward l l' → Outcome hazard Onward R l' (f a)) :
    Outcome hazard Onward R l (x >>= f) := by
  refine wp_seq (hx.outcome hl hsafe) ?_
  intro a l' ha
  exact wp_weaken (hf a l' ha.2.1 ha.1) (fun _ _ hr => ⟨ha.1.trans hr.1, hr.2⟩)
    (fun _ _ he => ⟨ha.1.trans he.1, he.2⟩)

theorem Reads.bind (hx : Reads Q x) (hf : ∀ a, Q a → Reads R (f a)) : Reads R (x >>= f) :=
  fun _ hl => hx.then hl id fun a l' ha h => hf a ha l' h.small

theorem reads_pure (h : Q a) : Reads Q (pure a : Lex α) :=
  fun _ hl => outcome_pure hl h id

theorem reads_readError {start : Lexer} :
    Reads Q (readError start message) := fun _ hl => outcome_readError hl id

theorem reads_get : Reads (fun _ => True) (get : Lex Lexer) :=
  fun _ hl => ⟨.refl hl, trivial, id⟩

theorem reads_peek : Reads (fun _ => True) peek := fun _ hl => ⟨.refl hl, trivial, id⟩

theorem reads_peekNext : Reads (fun _ => True) peekNext := fun _ hl => ⟨.refl hl, trivial, id⟩

end Rules

/-! ## Operations on characters -/

section Operations

variable {p : Platform}

theorem reads_advance : Reads (fun _ => True) (advance p) := by
  intro l hl
  cases h : l.rest with
  | nil =>
    rw [Outcome, wp, advance_nil h]
    exact ⟨.refl hl, trivial, id⟩
  | cons =>
    obtain ⟨l', hrun, hsteps, -⟩ := advance_run p hl h
    rw [Outcome, wp, hrun]
    exact ⟨⟨_, hsteps⟩, trivial, id⟩

theorem reads_advanceOver : ∀ cs : List Char, Reads (fun _ => True) (advanceOver p cs)
  | [] => reads_pure trivial
  | _ :: cs => reads_advance.bind fun _ _ => reads_advanceOver cs

theorem reads_advanceWhile (kind : Char → Bool) : Reads (fun _ => True) (advanceWhile p kind) := by
  intro l hl
  obtain ⟨l', hrun, hsteps, -⟩ := advanceWhile_takeWhile p kind hl
  rw [Outcome, wp, hrun]
  exact ⟨⟨_, hsteps⟩, trivial, id⟩

theorem reads_readSymbolChars : Reads (fun _ => True) (readSymbolChars p) :=
  (reads_advanceWhile isSymbolChar).bind fun _ _ => reads_pure trivial

/-! ## Tokens -/

/-- A token that is not the end of the text, and that the parser has a case for. -/
def Proper (token : Token) : Prop :=
  token ≠ .eof ∧ ∀ s, token = .symbolic s → s = "Inf" ∨ s = "-Inf" ∨ s = "NaN"

attribute [local simp] Proper

theorem proper_symbolToken (name : String) : Proper (symbolToken name) := by
  unfold symbolToken
  split
  · simp
  · split
    · simp
    · split <;> simp

theorem proper_integerToken (negative : Bool) (value : Nat) (digits : String) :
    Proper (integerToken negative value digits) := by
  unfold integerToken
  split <;> split <;> simp

theorem proper_punctuation : ∀ e ∈ punctuation, Proper e.2 := by
  simp [punctuation]

variable {token : Token} {start : Lexer} {next : Option Char} {raw : String} {l : Lexer}
  {hazard : Prop} {c : Char} {rest name : List Char}

theorem reads_closeWith (h : Proper token) : Reads Proper (closeWith p token) :=
  reads_advance.bind fun _ _ => reads_pure h

theorem reads_lexSymbolic : Reads Proper (lexSymbolic p start) := by
  refine reads_advance.bind fun _ _ => reads_readSymbolChars.bind fun name _ => ?_
  split
  · rename_i hname
    exact reads_pure ⟨by simp, fun s hs => by cases hs; exact hname⟩
  · exact reads_readError

theorem reads_unicodeLoop :
    ∀ (n : Nat) (hex : List Char), Reads (fun _ => True) (unicodeLoop p start n hex)
  | 0, _ => reads_pure trivial
  | n + 1, hex => by
    refine reads_advance.bind fun next _ => ?_
    split
    · split
      · exact reads_unicodeLoop n _
      · exact reads_readError
    · exact reads_readError

theorem reads_readUnicodeEscape : Reads (fun _ => True) (readUnicodeEscape p start) := by
  refine (reads_unicodeLoop 4 []).bind fun hex _ => ?_
  split
  · exact reads_pure trivial
  · exact reads_readError

/-- A character is read, and less is left, or the input has ended. -/
theorem outcome_char {f : Option Char → Lex Token} (hl : Small l)
    (hend : Outcome False Onward Proper l (f none))
    (hchar : ∀ c l1, Small l1 → l1.rest.length < l.rest.length →
      Outcome False Onward Proper l1 (f (some c))) :
    Outcome False Onward Proper l (advance p >>= f) := by
  cases h : l.rest with
  | nil => exact outcome_after (advance_nil h) (.refl hl) hend
  | cons c cs =>
    obtain ⟨l1, hrun, hsteps, hrest⟩ := advance_run p hl h
    refine outcome_after hrun ⟨_, hsteps⟩ (hchar c l1 hsteps.small ?_)
    rw [h, hrest]
    exact Nat.lt_succ_self _

theorem outcome_regexLoop : ∀ (n : Nat) (buf : List Char) {l : Lexer}, Small l →
    l.rest.length < n → Outcome False Onward Proper l (regexLoop p start n buf)
  | 0, _, l, _, hn => absurd hn (Nat.not_lt_zero _)
  | n + 1, buf, l, hl, hn => by
    refine outcome_char hl (outcome_readError hl id) fun c l1 hl1 hlt => ?_
    simp only
    split
    · exact outcome_pure hl1 (by simp) id
    split
    · refine reads_advance.then hl1 id fun next l2 _ h2 => ?_
      have hlen := h2.suffix.length_le
      split
      · exact outcome_regexLoop n _ h2.small (by omega)
      · exact outcome_readError h2.small id
    · exact outcome_regexLoop n _ hl1 (by omega)

theorem reads_lexRegex : Reads Proper (lexRegex p start) := by
  refine reads_advance.bind fun _ _ l hl => ?_
  exact outcome_after run_get (.refl hl) (outcome_regexLoop _ _ hl (Nat.lt_succ_self _))

theorem outcome_stringLoop : ∀ (n : Nat) (buf : List Char) {l : Lexer}, Small l →
    l.rest.length < n → Outcome False Onward Proper l (stringLoop p start n buf)
  | 0, _, l, _, hn => absurd hn (Nat.not_lt_zero _)
  | n + 1, buf, l, hl, hn => by
    refine outcome_char hl (outcome_readError hl id) fun c l1 hl1 hlt => ?_
    simp only
    split
    · exact outcome_pure hl1 (by simp) id
    split
    · -- an escape: what follows it is shorter still
      refine reads_advance.then hl1 id fun next l2 _ h2 => ?_
      have hlen := h2.suffix.length_le
      split
      · exact outcome_readError h2.small id
      split
      · exact outcome_stringLoop n _ h2.small (by omega)
      split
      · refine reads_readUnicodeEscape.then h2.small id fun e l3 _ h3 => ?_
        have hlen3 := h3.suffix.length_le
        exact outcome_stringLoop n _ h3.small (by omega)
      · exact outcome_readError h2.small id
    · exact outcome_stringLoop n _ hl1 (by omega)

theorem reads_lexDispatch : Reads Proper (lexDispatch p start next) := by
  unfold lexDispatch
  split
  iterate 4 exact reads_closeWith (by simp)
  · exact reads_lexRegex
  · refine reads_advance.bind fun _ _ => reads_peek.bind fun after _ => ?_
    split
    · exact reads_closeWith (by simp)
    · exact reads_pure (by simp)
  · exact reads_lexSymbolic
  · split
    · exact reads_readSymbolChars.bind fun name _ => reads_pure (by simp)
    · exact reads_readError

theorem reads_lexFraction : Reads (fun _ => True) (lexFraction p raw) := by
  refine reads_peek.bind fun next _ => ?_
  split
  · exact reads_advance.bind fun _ _ => (reads_advanceWhile _).bind fun _ _ => reads_pure trivial
  · exact reads_pure trivial

theorem reads_lexExponentSign : Reads (fun _ => True) (lexExponentSign p) := by
  refine reads_peek.bind fun next _ => ?_
  split
  · exact reads_advance.bind fun _ _ => reads_pure trivial
  · exact reads_pure trivial

theorem reads_lexExponent : Reads (fun _ => True) (lexExponent p raw) := by
  refine reads_peek.bind fun next _ => ?_
  split
  · exact reads_advance.bind fun _ _ => reads_lexExponentSign.bind fun _ _ =>
      (reads_advanceWhile _).bind fun _ _ => reads_pure trivial
  · exact reads_pure trivial

theorem reads_lexFloat : Reads Proper (lexFloat p start raw) := by
  refine reads_lexFraction.bind fun _ _ => reads_lexExponent.bind fun _ _ =>
    reads_peek.bind fun next _ => ?_
  split
  · exact reads_closeWith (by simp)
  · split
    · exact reads_pure (by simp)
    · exact reads_readError

theorem reads_lexHex {negative : Bool} : Reads Proper (lexHex p start negative) := by
  refine reads_advance.bind fun _ _ => (reads_advanceWhile _).bind fun hex _ => ?_
  split
  · exact reads_readError
  · exact reads_pure (proper_integerToken ..)

theorem reads_lexOctal {negative : Bool} {intPart : List Char} :
    Reads Proper (lexOctal start negative intPart) := by
  unfold lexOctal
  split
  · exact reads_readError
  · exact reads_pure (by simp)

theorem Denotes.proper {n : Int} (h : Denotes n token) : Proper token := by
  cases token with
  | int | bigInt => simp
  | _ => exact h.elim

theorem outcome_lexRadix (hl : Small l) (negative : Bool) (intPart : List Char)
    (hnext : l.rest.head? = some 'r' ∨ l.rest.head? = some 'R') :
    Outcome (RadixHazard p negative intPart l.rest) Onward Proper l
      (lexRadix p start negative intPart) := by
  obtain ⟨mark, tail, hrest⟩ : ∃ mark tail, l.rest = mark :: tail := by
    cases h : l.rest with
    | nil => simp [h] at hnext
    | cons mark tail => exact ⟨mark, tail, rfl⟩
  obtain ⟨l2, hsteps, -, hrun⟩ := lexRadix_run (p := p) start negative intPart hl hrest
  have htail : l.rest.tail = tail := by rw [hrest]; rfl
  rw [Outcome, wp]
  simp only [RadixHazard, htail, hnext, true_and]
  generalize tail.takeWhile Char.isAlphanum = digits at *
  generalize lexRadix p start negative intPart l = result at hrun ⊢
  cases hrun with
  | read hin hall =>
    rcases radixToken_run p negative (ofDigits (radixOf intPart) digits % 2 ^ 128) l2 with
      ⟨h, message, htoken⟩ | ⟨h, token, htoken, hread⟩
    · rw [htoken]
      refine ⟨⟨_, hsteps⟩, ?_, fun _ => ⟨hall, h⟩⟩
      rintro rfl
      cases h.2.2
    · rw [htoken]
      refine ⟨⟨_, hsteps⟩, hread.proper, ?_⟩
      rintro ⟨hne, hhazard⟩
      exact h (hhazard (hin.resolve_left hne)).2
  | error hin hall e =>
    refine ⟨⟨_, hsteps⟩, ?_⟩
    rintro ⟨-, hhazard⟩
    rw [(hhazard hin).1] at hall
    cases hall
  | panic hne hout message => exact ⟨⟨_, hsteps⟩, hne, fun h => absurd h hout⟩

theorem outcome_lexAfterDigits (start : Lexer) (hl : Small l) (negative : Bool)
    (intPart : List Char) :
    Outcome (RadixHazard p negative intPart l.rest) Onward Proper l
      (lexAfterDigits p start negative intPart) := by
  refine outcome_after (peek_run l) (.refl hl) ?_
  split
  · refine reads_lexHex.outcome hl ?_
    rintro ⟨hr, -⟩
    grind
  split
  · rename_i hnext
    exact outcome_lexRadix hl negative intPart hnext
  rename_i hnext
  have hsafe : ¬ RadixHazard p negative intPart l.rest := fun h => hnext h.1
  split
  · exact reads_lexOctal.outcome hl hsafe
  split
  · exact (reads_closeWith (by simp)).outcome hl hsafe
  split
  · exact (reads_closeWith (by simp)).outcome hl hsafe
  split
  · exact reads_lexFloat.outcome hl hsafe
  refine Reads.outcome ?_ hl hsafe
  refine reads_peekNext.bind fun next _ => ?_
  split
  · exact reads_advance.bind fun _ _ => (reads_advanceWhile _).bind fun _ _ =>
      reads_pure (by simp)
  · exact reads_pure (proper_integerToken ..)

theorem lexSign_unsigned (hl : Small l) :
    ∃ l', lexSign p l = .ok (decide (l.rest.head? = some '-')) l' ∧ Onward l l' ∧
      l'.rest = unsigned l.rest := by
  have hrun : ∀ {c : Char}, l.rest.head? = some c →
      ∃ l', advance p l = .ok (some c) l' ∧ Onward l l' ∧ l'.rest = l.rest.tail := by
    intro c hc
    obtain ⟨cs, h⟩ := head?_eq_some_iff.mp hc
    obtain ⟨l', hadv, hsteps, hrest⟩ := advance_run p hl h
    exact ⟨l', hadv, ⟨_, hsteps⟩, by rw [hrest, h]; rfl⟩
  rw [lexSign, run_bind (peek_run l), unsigned]
  by_cases hminus : l.rest.head? = some '-'
  · obtain ⟨l', hadv, honward, hrest⟩ := hrun hminus
    refine ⟨l', ?_, honward, by simp [hminus, hrest]⟩
    simp only [hminus, if_true, decide_true]
    exact run_bind hadv
  by_cases hplus : l.rest.head? = some '+'
  · obtain ⟨l', hadv, honward, hrest⟩ := hrun hplus
    refine ⟨l', ?_, honward, by simp [hplus, hrest]⟩
    simp only [hplus, if_true]
    exact run_bind hadv
  · refine ⟨l, ?_, .refl hl, by simp [hminus, hplus]⟩
    simp only [hminus, hplus, if_false, decide_false]
    rfl

theorem dropWhile_unsigned_ne (h : lead c rest.head? = .number) :
    (unsigned (c :: rest)).dropWhile Char.isDigit ≠ c :: rest := by
  intro heq
  have hlen : ((unsigned (c :: rest)).dropWhile Char.isDigit).length ≤ (unsigned (c :: rest)).length :=
    (dropWhile_suffix _).length_le
  rw [heq, unsigned] at hlen
  split at hlen
  · grind
  · rename_i hsign
    have hdigit : c.isDigit = true := by
      by_contra hno
      have hsign' : ¬ (c = '+' ∨ c = '-') := by simpa [or_comm] using hsign
      simp only [lead, hno, hsign', false_and, if_false] at h
      split at h
      · cases h
      · split_ifs at h
    rw [unsigned, if_neg hsign, dropWhile_cons_of_pos hdigit] at heq
    have hle := (dropWhile_suffix (l := rest) Char.isDigit).length_le
    grind

theorem outcome_lexNumber (start : Lexer) (hl : Small l)
    (hrest : l.rest = c :: rest) (hlead : lead c rest.head? = .number) :
    Outcome (NumberHazard p l.rest) Forward Proper l (lexNumber p start) := by
  obtain ⟨l1, hsign, honward1, hrest1⟩ := lexSign_unsigned (p := p) hl
  obtain ⟨l2, hdigits, hsteps2, hrest2⟩ :=
    advanceWhile_takeWhile p Char.isDigit honward1.small
  rw [hrest1] at hdigits hrest2
  have honward : Onward l l2 := honward1.trans ⟨_, hsteps2⟩
  have hforward : Forward l l2 := by
    refine honward.forward ?_
    rw [hrest2, hrest]
    exact dropWhile_unsigned_ne hlead
  have hdigits' := outcome_lexAfterDigits (p := p) start hsteps2.small
    (decide (l.rest.head? = some '-')) ((unsigned l.rest).takeWhile Char.isDigit)
  rw [hrest2] at hdigits'
  refine outcome_forward ?_ hforward hdigits'
  rw [lexNumber, run_bind hsign, run_bind hdigits]

/-! ## Character literals -/

theorem splitBytes_spec : ∀ {n : Nat} {cs front back : List Char},
    splitBytes n cs = some (front, back) → cs = front ++ back ∧ utf8Len front = n
  | 0, cs, front, back, h => by
    rw [splitBytes] at h
    cases h
    exact ⟨rfl, rfl⟩
  | n + 1, [], front, back, h => by cases h
  | n + 1, c :: cs, front, back, h => by
    rw [splitBytes] at h
    split at h
    · cases htail : splitBytes (n + 1 - c.utf8Size) cs with
      | none => grind
      | some =>
        rw [htail] at h
        cases h
        obtain ⟨hcs, hlen⟩ := splitBytes_spec htail
        refine ⟨by rw [hcs]; rfl, ?_⟩
        rw [utf8Len_cons, hlen]
        omega
    · cases h

theorem head_of_namedChar
    (h : namedChar (String.ofList name) = some c) : name.head? ≠ some 'u' := by
  have hhead : ∀ s, namedChar s = some c → s.toList.head? ≠ some 'u' := by
    intro s hs
    unfold namedChar at hs
    split at hs
    all_goals first
      | decide
      | cases hs
  simpa using hhead _ h

theorem outcome_jump {cs : List Char} (hl : Small l)
    (h : l.rest = cs ++ rest) (hsafe : ¬ hazard) (htoken : Proper token) :
    Outcome hazard Onward Proper l (do jump p (utf8Len cs); return token) := by
  obtain ⟨l', hrun, hsteps, -⟩ := jump_run p hl h
  exact outcome_after hrun ⟨_, hsteps⟩ (outcome_pure hsteps.small htoken hsafe)

/-- After the backslash, a literal panics only when it is cut inside a character. -/
theorem outcome_lexCharLiteral (hl : Small l) (hrest : l.rest = c :: rest) :
    Outcome (CharHazard p rest) Forward Proper l (lexCharLiteral p start) := by
  obtain ⟨l1, hrun, hsteps, hrest1⟩ := advance_run p hl hrest
  have hforward : Forward l l1 := ⟨_, by simp, hsteps⟩
  refine outcome_forward (run_bind hrun) hforward (outcome_after run_get (.refl hsteps.small) ?_)
  have hname : l1.rest.takeWhile (fun c => p.isAlphanumeric c || c == '-') = charName p rest := by
    rw [hrest1]; rfl
  have hsplit : l1.rest = charName p rest ++
      rest.dropWhile fun c => p.isAlphanumeric c || c == '-' := by
    rw [hrest1]
    exact takeWhile_append_dropWhile.symm
  simp only [hname]
  split
  · rename_i d hd
    exact outcome_jump hsteps.small hsplit (fun h => head_of_namedChar hd h.1) (by simp)
  split
  · rename_i hoctal
    have hsafe : ¬ CharHazard p rest := by
      intro h
      have := h.1
      unfold isOctalName at hoctal
      grind
    simp only [lexOctalChar]
    split
    · exact outcome_readError hsteps.small hsafe
    · exact outcome_jump hsteps.small hsplit hsafe (by simp)
  split
  · rename_i hu
    unfold lexUnicodeChar
    split
    · rename_i hcut
      exact ⟨.refl hsteps.small, hu.1, hu.2, hcut⟩
    · rename_i hex tail hcut
      have hsafe : ¬ CharHazard p rest := by
        intro h
        rw [h.2.2] at hcut
        cases hcut
      split
      · split
        · -- the `u` and the four digits are five bytes
          obtain ⟨hcs, hlen⟩ := splitBytes_spec hcut
          obtain ⟨ds, hds⟩ := head?_eq_some_iff.mp hu.1
          have hfive : utf8Len ('u' :: hex) = 5 := by
            rw [utf8Len_cons, hlen]; rfl
          rw [hds, tail_cons] at hcs
          rw [hds, hcs, ← cons_append, append_assoc] at hsplit
          rw [← hfive]
          exact outcome_jump hsteps.small hsplit hsafe (by simp)
        · exact outcome_readError hsteps.small hsafe
      · exact outcome_readError hsteps.small hsafe
  rename_i hu
  have hsafe : ¬ CharHazard p rest := fun h => hu ⟨h.1, h.2.1⟩
  split
  · refine outcome_after (peek_run l1) (.refl hsteps.small) ?_
    cases hfirst : l1.rest with
    | nil => exact outcome_readError hsteps.small hsafe
    | cons d ds =>
      have hone : utf8Len [d] = d.utf8Size := by simp
      simp only [head?_cons]
      rw [← hone]
      exact outcome_jump hsteps.small hfirst hsafe (by simp)
  · exact outcome_readError hsteps.small hsafe

/-! ## Symbols, keywords and strings -/

theorem outcome_advance {β : Type} {Q : β → Prop} {f : Option Char → Lex β}
    (hl : Small l) (hrest : l.rest = c :: rest)
    (hsafe : ¬ hazard) (hf : Reads Q (f (some c))) :
    Outcome hazard Forward Q l (advance p >>= f) := by
  obtain ⟨l1, hrun, hsteps, hrest1⟩ := advance_run p hl hrest
  exact outcome_forward (run_bind hrun) ⟨_, by simp, hsteps⟩ (hf.outcome hsteps.small hsafe)

theorem reads_lexKeywordName {token : String → Token} {message : String}
    (h : ∀ s, Proper (token s)) : Reads Proper (lexKeywordName p start message token) := by
  refine reads_readSymbolChars.bind fun name _ => ?_
  split
  · exact reads_readError
  · exact reads_pure (h name)

theorem reads_stringTail : Reads Proper (do stringLoop p start ((← get).rest.length + 1) []) := by
  intro l hl
  exact outcome_after run_get (.refl hl) (outcome_stringLoop _ _ hl (Nat.lt_succ_self _))

theorem outcome_lexSymbol (hl : Small l)
    (hrest : l.rest = c :: rest) (hc : isSymbolChar c = true) (hsafe : ¬ hazard) :
    Outcome hazard Forward Proper l (lexSymbol p) := by
  obtain ⟨l1, hrun, hsteps, hrest1⟩ := advanceWhile_takeWhile p isSymbolChar hl
  have hname : readSymbolChars p l = .ok (String.ofList (l.rest.takeWhile isSymbolChar)) l1 := by
    rw [readSymbolChars, run_bind hrun]
    rfl
  have hforward : Forward l l1 := by
    refine ⟨_, ?_, hsteps⟩
    simp [hrest, hc]
  refine outcome_forward (run_bind hname) hforward ?_
  refine Reads.outcome (reads_peek.bind fun next _ => ?_) hsteps.small hsafe
  split
  · refine reads_get.bind fun l' _ => ?_
    split
    · exact reads_advance.bind fun _ _ => (reads_advanceOver _).bind fun _ _ =>
        reads_pure (proper_symbolToken _)
    · exact reads_pure (proper_symbolToken _)
  · exact reads_pure (proper_symbolToken _)

/-! ## The next token -/

/-- `x` returns, somewhere ahead. -/
def Skips (l : Lexer) (x : Lex Unit) : Prop := ∃ l', x l = .ok () l' ∧ Onward l l'

theorem skips_pure (hl : Small l) : Skips l (pure ()) := ⟨l, rfl, .refl hl⟩

theorem Skips.after {α : Type} {l' : Lexer} {x : Lex α} {a : α} {f : α → Lex Unit} (hrun : x l = .ok a l')
    (h : Onward l l') (hf : Skips l' (f a)) : Skips l (x >>= f) := by
  obtain ⟨l2, hrun2, h2⟩ := hf
  exact ⟨l2, (run_bind hrun).trans hrun2, h.trans h2⟩

theorem skips_skipLoop : ∀ (n : Nat) {l : Lexer}, Small l → l.rest.length < n → Skips l (skipLoop p n)
  | 0, l, _, hn => absurd hn (Nat.not_lt_zero _)
  | n + 1, l, hl, hn => by
    refine Skips.after (peek_run l) (.refl hl) ?_
    cases h : l.rest with
    | nil => exact skips_pure hl
    | cons c rest =>
      rw [h, length_cons] at hn
      -- a line that starts with a character other than a newline is not empty
      have hline : c ≠ '\n' → Skips l (do skipLine p; skipLoop p n) := by
        intro hc
        obtain ⟨l1, hrun, hsteps, hrest1⟩ := advanceWhile_takeWhile p (· != '\n') hl
        have hlen : l1.rest.length ≤ rest.length := by
          rw [hrest1, h, dropWhile_cons_of_pos (by simpa using hc)]
          exact (dropWhile_suffix _).length_le
        rw [skipLine, bind_assoc]
        refine Skips.after hrun ⟨_, hsteps⟩ ?_
        rw [bind_assoc]
        cases hnext : l1.rest with
        | nil =>
          refine Skips.after (advance_nil hnext) (.refl hsteps.small) ?_
          exact skips_skipLoop n hsteps.small (by omega)
        | cons d ds =>
          obtain ⟨l2, hrun2, hsteps2, hrest2⟩ := advance_run p hsteps.small hnext
          refine Skips.after hrun2 ⟨_, hsteps2⟩ (skips_skipLoop n hsteps2.small ?_)
          rw [hnext, length_cons] at hlen
          rw [hrest2]
          omega
      simp only [head?_cons]
      split
      · rename_i hhash
        refine Skips.after run_get (.refl hl) (Skips.after (peekNext_run l) (.refl hl) ?_)
        split
        · exact hline (by rw [hhash]; decide)
        · exact skips_pure hl
      split
      · obtain ⟨l1, hrun, hsteps, hrest1⟩ := advance_run p hl h
        refine Skips.after hrun ⟨_, hsteps⟩ (skips_skipLoop n hsteps.small ?_)
        rw [hrest1]
        omega
      split
      · rename_i hcomment
        exact hline (by rw [hcomment]; decide)
      · exact skips_pure hl

theorem skips_skip (hl : Small l) : Skips l (skipWhitespaceAndComments p) :=
  Skips.after run_get (.refl hl) (skips_skipLoop _ hl (Nat.lt_succ_self _))

/-- The text from the start of the next token on. -/
def tokenStart (p : Platform) (l : Lexer) : List Char := (final (skipWhitespaceAndComments p) l).rest

theorem isSymbolChar_of_lead (h : lead c next = .symbol) : isSymbolChar c = true := by
  unfold lead at h
  split at h
  · cases h
  · split_ifs at h
    rename_i hstart
    simp only [isSymbolStart, Bool.and_eq_true] at hstart
    exact hstart.1.1.1

theorem proper_of_lead (h : lead c next = .punctuation token) : Proper token := by
  unfold lead at h
  split at h
  · rename_i hfound
    cases h
    obtain ⟨front, back, heq, -⟩ := lookup_eq_some_iff.mp hfound
    exact proper_punctuation (c, token) (by simp [heq])
  · split_ifs at h

theorem outcome_lexLead (hl : Small l) (hrest : l.rest = c :: rest) :
    Outcome (Hazard p l.rest) Forward Proper l (lexLead p l c (lead c rest.head?)) := by
  rw [hrest, Hazard]
  cases hlead : lead c rest.head? with
  | punctuation => exact outcome_advance hl hrest id (reads_pure (proper_of_lead hlead))
  | unquote =>
    refine outcome_advance hl hrest id (reads_peek.bind fun next _ => ?_)
    split
    · exact reads_advance.bind fun _ _ => reads_pure (by simp)
    · exact reads_pure (by simp)
  | hash => exact outcome_advance hl hrest id (reads_peek.bind fun _ _ => reads_lexDispatch)
  | string => exact outcome_advance hl hrest id reads_stringTail
  | charLiteral => exact outcome_lexCharLiteral hl hrest
  | keyword =>
    refine outcome_advance hl hrest id (reads_peek.bind fun next _ => ?_)
    split
    · exact reads_advance.bind fun _ _ => reads_lexKeywordName (by simp)
    · exact reads_lexKeywordName (by simp)
  | number =>
    have h := outcome_lexNumber (p := p) l hl hrest hlead
    rw [hrest] at h
    exact h
  | symbol => exact outcome_lexSymbol hl hrest (isSymbolChar_of_lead hlead) id
  | unexpected => exact outcome_advance hl hrest id reads_readError

/-- A pair of a token and a span that `next_token` may return: the end of the text, or a token that
starts at `l` or behind it and ends, at least one byte later, at `l'`. -/
@[grind cases]
structure TokenBetween (l : Lexer) (pair : Token × Span) (l' : Lexer) : Prop where
  start : l.pos ≤ pair.2.start
  stop : pair.2.stop = l'.pos
  token : (pair.1 = .eof ∧ pair.2.start = l'.pos ∧ l'.rest = []) ∨
    (Proper pair.1 ∧ pair.2.start < l'.pos)

/-- **Every call of the lexer** returns or fails with a read error, unless a hazard starts the next
token: then it panics. -/
theorem nextToken_outcome (hl : Small l) :
    wp (nextToken p)
      (fun pair l' => Onward l l' ∧ TokenBetween l pair l' ∧ ¬ Hazard p (tokenStart p l))
      (fun e l' => Onward l l' ∧ e.Due (Hazard p (tokenStart p l))) l := by
  obtain ⟨l1, hskip, honward⟩ := skips_skip (p := p) hl
  have hstart : tokenStart p l = l1.rest := by rw [tokenStart, final, hskip]
  have hpos : l.pos ≤ l1.pos := by
    obtain ⟨cs, hcs⟩ := honward
    rw [hcs.pos]
    exact Nat.le_add_right ..
  rw [hstart, nextToken, wp, run_bind hskip]
  refine wp_bind.mpr ?_
  rw [wp_get]
  cases hrest : l1.rest with
  | nil => exact ⟨honward, ⟨hpos, rfl, .inl ⟨rfl, rfl, hrest⟩⟩, id⟩
  | cons c rest =>
    have hlead := outcome_lexLead (p := p) honward.small hrest
    rw [hrest] at hlead
    refine wp_seq_weaken hlead ?_ fun e l2 he => ⟨honward.trans he.1, he.2⟩
    rintro token l2 ⟨hforward, hproper, hsafe⟩
    exact ⟨honward.trans hforward.onward, ⟨hpos, rfl, .inr ⟨hproper, hforward.pos_lt⟩⟩, hsafe⟩

end Operations

end Clojurust.Reader
