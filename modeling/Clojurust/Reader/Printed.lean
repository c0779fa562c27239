import Clojurust.Builtins.FormValue
import Clojurust.Reader.Integers
import Clojurust.Value.Print

/-!
# Printed values as tokens

Each printed scalar is one token, and the brackets of collections are tokens of their own.

* `Closes` — what may follow a printed value; `Lexes p text token` — the text is read as the token
  whatever closes it;
* `lexes_long`, `lexes_bigInt`, `lexes_ratio`, `lexes_str`, `lexes_symbol`, `lexes_keyword`;
* `Garbled` — the characters whose literal is not read back, `lexes_char`, `rejects_char`;
* `nextToken_blank` — blanks between values are skipped.
-/

namespace Clojurust.Reader

open StateExcept List Nat Value

/-! ## What follows a value -/

/-- Nothing, a blank, a comma or a closing bracket. -/
def Closes (rest : List Char) : Prop := ∀ c ∈ rest.head?, c ∈ [' ', ',', ')', ']', '}']

variable {rest : List Char} {c : Char} {tail : List Char} {token : Token} {l start : Lexer}
  {n : Nat} {buf more hash : List Char}

theorem Closes.stops (h : Closes rest) {kind : Char → Bool}
    (hkind : ∀ c ∈ [' ', ',', ')', ']', '}'], kind c = false) : Stops kind rest := by
  cases rest with
  | nil => rfl
  | cons c => exact hkind c (h c rfl)

theorem Closes.ends (h : Closes rest) : Ends rest := h.stops (by decide)

theorem closes_cons (rest : List Char) (hc : c ∈ [' ', ',', ')', ']', '}']) :
    Closes (c :: rest) := by
  intro d hd
  grind

variable {p : Platform}

/-- The text is read as the token. -/
def Lexes (p : Platform) (text : List Char) (token : Token) : Prop :=
  ∀ (l : Lexer) (rest : List Char), Small l → l.rest = text ++ rest → Closes rest →
    ∃ span l', nextToken p l = .ok (token, span) l' ∧ Small l' ∧ l'.rest = rest

theorem lexes_of_lead (hstart : ∀ rest, Closes rest → StartsToken c (tail ++ rest))
    (hlex : ∀ (l : Lexer) (rest : List Char), Small l → l.rest = c :: (tail ++ rest) → Closes rest →
      ∃ l', lexLead p l c (lead c (tail ++ rest).head?) l = .ok token l' ∧ Small l' ∧
        l'.rest = rest) : Lexes p (c :: tail) token := by
  intro l rest hl htext hrest
  obtain ⟨l', hrun, hsmall, hrest'⟩ := hlex l rest hl htext hrest
  exact ⟨_, l', nextToken_ok htext (hstart rest hrest) hrun, hsmall, hrest'⟩

/-- The text is read as the token, whatever follows it. -/
def LexesAlways (p : Platform) (text : List Char) (token : Token) : Prop :=
  ∀ (l : Lexer) (rest : List Char), Small l → l.rest = text ++ rest →
    ∃ span l', nextToken p l = .ok (token, span) l' ∧ Small l' ∧ l'.rest = rest

theorem lexes_punctuation (hc : punctuation.lookup c = some token)
    (hstart : ∀ rest, StartsToken c rest) : LexesAlways p [c] token := by
  intro l rest hl htext
  have hlead : ∀ next, lead c next = .punctuation token := by
    intro next
    rw [lead, hc]
  obtain ⟨l', hadv, hsteps, hrest'⟩ := advance_run p hl htext
  refine ⟨_, l', nextToken_ok htext (hstart _) ?_, hsteps.small, hrest'⟩
  rw [hlead, lexLead, closeWith, run_bind hadv]
  rfl

theorem lexes_hashSet : LexesAlways p ['#', '{'] .hashSet := by
  intro l rest hl htext
  have htext' : l.rest = '#' :: '{' :: rest := htext
  obtain ⟨l1, hadv1, hsteps1, hrest1⟩ := advance_run p hl htext'
  obtain ⟨l2, hadv2, hsteps2, hrest2⟩ := advance_run p hsteps1.small hrest1
  have hlead : lead '#' ('{' :: rest).head? = .hash := rfl
  refine ⟨_, l2, nextToken_ok htext' ⟨by decide, by decide, fun _ => by simp⟩ ?_, hsteps2.small,
    hrest2⟩
  rw [hlead, lexLead, lexHash, run_bind hadv1, run_bind (peek_cons hrest1), lexDispatch, closeWith,
    run_bind hadv2]
  rfl

/-! ## Blanks -/

theorem nextToken_blank (hl : Small l) (h : l.rest = c :: rest) (hc : c = ' ' ∨ c = ',') :
    ∃ l', Small l' ∧ l'.rest = rest ∧ nextToken p l = nextToken p l' := by
  obtain ⟨l', hadv, hsteps, hrest⟩ := advance_run p hl h
  refine ⟨l', hsteps.small, hrest, ?_⟩
  have hblank : [' ', '\t', '\r', '\n', ','].contains c = true := by
    rcases hc with rfl | rfl <;> decide
  have hhash : c ≠ '#' := by rcases hc with rfl | rfl <;> decide
  have hlen : l.rest.length = l'.rest.length + 1 := by rw [h, hrest]; rfl
  have hskip : skipWhitespaceAndComments p l = skipWhitespaceAndComments p l' := by
    rw [skipWhitespaceAndComments, run_bind run_get, run_bind run_get, hlen, skipLoop,
      run_bind (peek_cons h)]
    simp only [if_neg hhash, hblank, if_true]
    rw [run_bind hadv]
  unfold nextToken
  simp only [bind, EStateM.bind, hskip]

theorem nextToken_blanks : ∀ {blanks : List Char} {l : Lexer} {rest : List Char}, Small l →
    l.rest = blanks ++ rest → (∀ c ∈ blanks, c = ' ' ∨ c = ',') →
    ∃ l', Small l' ∧ l'.rest = rest ∧ nextToken p l = nextToken p l'
  | [], l, rest, hl, h, _ => ⟨l, hl, h, rfl⟩
  | c :: blanks, l, rest, hl, h, hblanks => by
    rw [forall_mem_cons] at hblanks
    obtain ⟨l1, hl1, hrest1, heq1⟩ := nextToken_blank (p := p) hl h hblanks.1
    obtain ⟨l2, hl2, hrest2, heq2⟩ := nextToken_blanks hl1 hrest1 hblanks.2
    grind

theorem nextToken_end (h : l.rest = []) :
    nextToken p l = .ok (.eof, ⟨l.pos, l.pos, l.line, l.col⟩) l := by
  have hpeek : peek l = .ok none l := by rw [peek_run, h]; rfl
  have hskip : skipWhitespaceAndComments p l = .ok () l := by
    rw [skipWhitespaceAndComments, run_bind run_get, skipLoop, run_bind hpeek]
    rfl
  rw [nextToken, run_bind hskip, run_bind run_get, h]
  rfl

/-! ## Numbers -/

/-- The sign of an integer as it is displayed. -/
def signOf (n : Int) : Sign := if n < 0 then .minus else .none

theorem withSign_signOf (n : Int) : withSign (signOf n).negative n.natAbs = n := by
  unfold signOf withSign
  split
  · simp only [Sign.negative, if_true]
    omega
  · simp only [Sign.negative, Bool.false_eq_true, if_false]
    omega

theorem toList_toString (n : Int) :
    (toString n).toList = (signOf n).text ++ toDigits 10 n.natAbs := by
  cases n with
  | ofNat m =>
    have hsign : signOf (Int.ofNat m) = .none := if_neg (by simp)
    have htext : toString (Int.ofNat m) = Nat.repr m := rfl
    rw [htext, hsign, Nat.repr_eq_ofList_toDigits, String.toList_ofList]
    rfl
  | negSucc m =>
    have hsign : signOf (Int.negSucc m) = .minus := if_pos (Int.negSucc_lt_zero m)
    have htext : toString (Int.negSucc m) = "-" ++ Nat.repr m.succ := rfl
    simp only [htext, hsign, Nat.repr_eq_ofList_toDigits, String.toList_append, String.toList_ofList]
    rfl

theorem head_toDigits : ∀ {n : Nat}, 0 < n → (Nat.toDigits 10 n).head? ≠ some '0' := by
  intro n
  induction n using Nat.strong_induction_on with
  | _ n ih =>
    intro hn
    by_cases hlt : n < 10
    · rw [toDigits_of_lt_base hlt]
      have hdigit : ∀ d < 10, 0 < d → d.digitChar ≠ '0' := by decide
      simpa using hdigit n hlt hn
    · rw [toDigits_of_base_le (by decide) (by omega), head?_append_of_ne_nil _
        toDigits_ne_nil]
      exact ih (n / 10) (by omega) (by omega)

theorem toDigits_lead (n : Nat) :
    (Nat.toDigits 10 n).head? = some '0' → Nat.toDigits 10 n = ['0'] := by
  intro h
  rcases Nat.eq_zero_or_pos n with rfl | hn
  · rfl
  · exact absurd h (head_toDigits hn)

/-- An integer is read up to the end of its digits; what follows them decides on the token. -/
theorem lexes_number (n : Int) (htail : ∀ rest, Closes rest → Stops Char.isDigit (tail ++ rest))
    (hlex : ∀ (l start : Lexer) (rest : List Char), Small l → l.rest = tail ++ rest → Closes rest →
      ∃ l', lexAfterDigits p start (signOf n).negative (toDigits 10 n.natAbs) l = .ok token l' ∧
        Small l' ∧ l'.rest = rest) : Lexes p ((toString n).toList ++ tail) token := by
  intro l rest hl htext hrest
  have hd := digits_toDigits n.natAbs
  have htext' : l.rest = (signOf n).text ++ (toDigits 10 n.natAbs ++ (tail ++ rest)) := by
    rw [htext, toList_toString]
    simp only [append_assoc]
  obtain ⟨l1, hl1, hrest1, hnumber⟩ :=
    lexNumber_run (p := p) l (signOf n) hl hd htext' (htail rest hrest)
  obtain ⟨l', hrun, hsmall, hrest'⟩ := hlex l1 l rest hl1 hrest1 hrest
  obtain ⟨c, more, hsplit, hlead, hstarts⟩ := lead_number (signOf n) (tail ++ rest) hd
  have hlexed : lexLead p l c (lead c more.head?) l = .ok token l' := by
    rw [hlead]
    exact hnumber.trans hrun
  exact ⟨_, l', nextToken_ok (htext'.trans hsplit) hstarts hlexed, hsmall, hrest'⟩

theorem fitsLong_toInt (n : Int64) : FitsLong n.toInt := by
  have hlow := n.le_toInt
  have hhigh := n.toInt_lt
  exact ⟨by omega, by omega⟩

theorem lexes_long (n : Int64) : Lexes p (toString n.toInt).toList (.int n) := by
  rw [← append_nil (toString n.toInt).toList]
  refine lexes_number n.toInt (fun rest h => h.stops (by decide)) ?_
  intro l start rest hl hrest hcloses
  have hdenotes : Denotes n.toInt (integerToken (signOf n.toInt).negative
      (ofDigits 10 (toDigits 10 n.toInt.natAbs))
      (String.ofList (toDigits 10 n.toInt.natAbs))) := by
    have h := denotes_integerToken (signOf n.toInt).negative (digits_toDigits n.toInt.natAbs) rfl
    rw [ofDigits_toDigits, withSign_signOf] at h
    rwa [ofDigits_toDigits]
  have htoken : integerToken (signOf n.toInt).negative (ofDigits 10 (toDigits 10 n.toInt.natAbs))
      (String.ofList (toDigits 10 n.toInt.natAbs)) = .int n := by
    revert hdenotes
    generalize integerToken _ _ _ = token
    intro hdenotes
    cases token with
    | int i => rw [Int64.toInt_inj.mp hdenotes]
    | bigInt s => exact absurd (fitsLong_toInt n) hdenotes.1
    | _ => exact False.elim hdenotes
  refine ⟨l, ?_, hl, hrest⟩
  rw [lexAfterDigits_integer _ (toDigits_lead _) hcloses.ends hrest, htoken]

theorem toString_eq_signed (n : Int) : toString n = signed (signOf n).negative (String.ofList (toDigits 10 n.natAbs)) := by
  rw [← String.toList_inj, toList_toString]
  unfold signOf
  split <;> simp [signed, Sign.negative, Sign.text]

theorem parseInt_toString (n : Int) : parseInt (toString n).toList = some n := by
  rw [toString_eq_signed, parseInt_signed _ (digits_toDigits _), ofDigits_toDigits, withSign_signOf]

theorem parseBigInt_toString (n : Int) : parseBigInt (toString n) = some n := by
  rw [toString_eq_signed, parseBigInt_signed _ (digits_toDigits _), ofDigits_toDigits, withSign_signOf]

theorem lexes_bigInt (n : Int) : Lexes p ((toString n).toList ++ ['N']) (.bigInt (toString n)) := by
  refine lexes_number n (fun _ _ => rfl) ?_
  rw [toString_eq_signed]
  intro l start rest hl htext _
  obtain ⟨l', hadv, hsteps, hrest'⟩ := advance_run p hl htext
  refine ⟨l', ?_, hsteps.small, hrest'⟩
  have hoctal : (!(some 'N').any ['.', 'e', 'E', 'N', 'M', '/'].contains) = false := rfl
  rw [lexAfterDigits, run_bind (peek_cons htext)]
  simp only [Option.some.injEq, Char.reduceEq, hoctal, or_self, and_false, if_false, if_true,
    Bool.false_eq_true, closeWith]
  rw [run_bind hadv]
  rfl

theorem lexes_ratio (n : Int) (d : Nat) : Lexes p ((toString n).toList ++ '/' :: toDigits 10 d)
    (.ratio (toString n ++ "/" ++ String.ofList (toDigits 10 d))) := by
  refine lexes_number n (fun _ _ => rfl) ?_
  rw [toString_eq_signed]
  intro l start rest hl htext hcloses
  have hd := digits_toDigits d
  obtain ⟨l1, hadv, hsteps1, hrest1⟩ := advance_run p hl htext
  obtain ⟨l2, hwhile, hsteps2, hrest2⟩ :=
    advanceWhile_run p hsteps1.small hrest1 hd.digits (hcloses.stops (by decide))
  have hnext : peekNext l = .ok (toDigits 10 d ++ rest).head? l := by
    rw [peekNext_run, htext, cons_append, getElem?_cons_succ, head?_eq_getElem?]
  have hdigit : (toDigits 10 d ++ rest).head?.any Char.isDigit = true := by
    cases hdigits : toDigits 10 d with
    | nil => exact absurd hdigits hd.ne_nil
    | cons => grind
  refine ⟨l2, ?_, hsteps2.small, hrest2⟩
  rw [lexAfterDigits, run_bind (peek_cons htext)]
  have hoctal : (!(some '/').any ['.', 'e', 'E', 'N', 'M', '/'].contains) = false := rfl
  have hfloat : (some '/').any ['.', 'e', 'E'].contains = false := rfl
  simp only [Option.some.injEq, Char.reduceEq, hoctal, hfloat, or_self, and_false, if_false,
    Bool.false_eq_true]
  rw [run_bind hnext]
  simp only [hdigit, and_self, if_true]
  rw [run_bind hadv, run_bind hwhile]
  rfl

theorem toList_displayRatio {r : ℚ} (h : r.den ≠ 1) :
    (displayRatio r).toList = (toString r.num).toList ++ '/' :: toDigits 10 r.den := by
  have hden : (toString r.den).toList = Nat.toDigits 10 r.den := by
    have htext : toString r.den = Nat.repr r.den := rfl
    rw [htext, Nat.repr_eq_ofList_toDigits, String.toList_ofList]
  rw [displayRatio, if_neg h, String.toList_append, String.toList_append, hden, append_assoc]
  rfl

theorem parseRatio_toString {r : ℚ} (h : r.den ≠ 1) : Builtins.parseRatio
    (toString r.num ++ "/" ++ String.ofList (toDigits 10 r.den)) = some (.ratio r) := by
  have hslash : ∀ n : Nat, '/' ∉ toDigits 10 n := by
    intro n hmem
    have hdigit := (digits_toDigits n).digits '/' hmem
    cases hdigit
  have hnum : '/' ∉ (toString r.num).toList := by
    rw [toList_toString, mem_append, not_or]
    refine ⟨?_, hslash _⟩
    unfold signOf
    split <;> decide
  have hsplit : (toString r.num ++ "/" ++ String.ofList (toDigits 10 r.den)).toList.splitOn '/' =
      [(toString r.num).toList, toDigits 10 r.den] := by
    have hone : "/".toList = ['/'] := rfl
    rw [String.toList_append, String.toList_append, hone, String.toList_ofList, append_assoc,
      singleton_append, splitOn_append_cons_self, splitOn_eq_singleton hnum,
      splitOn_eq_singleton (hslash _)]
    rfl
  have hden : parseInt (toDigits 10 r.den) = some (r.den : Int) := by
    have h := parseInt_signed false (digits_toDigits r.den)
    rwa [ofDigits_toDigits, signed, if_neg Bool.false_ne_true, String.toList_ofList] at h
  have hne : (r.den : Int) ≠ 0 := by exact_mod_cast r.den_ne_zero
  have hvalue : ((r.num : ℚ) / ((r.den : Int) : ℚ)) = r := by
    rw [Int.cast_natCast]
    exact Rat.num_div_den r
  rw [Builtins.parseRatio, hsplit]
  simp only [parseInt_toString, hden, Option.bind_eq_bind, Option.bind_some, if_neg hne, hvalue,
    if_neg h]

/-! ## Strings -/

theorem length_le_flatMap_escapeChar : ∀ cs : List Char,
    cs.length ≤ (cs.flatMap escapeChar).length
  | [] => le_refl 0
  | c :: cs => by
    have ih := length_le_flatMap_escapeChar cs
    have hc : 1 ≤ (escapeChar c).length := by
      unfold escapeChar
      split_ifs <;> simp
    grind

theorem stringLoop_escaped {letter : Char}
    (hl : Small l) (h : l.rest = '\\' :: letter :: more) (hletter : unescape letter = some c) :
    ∃ l', Small l' ∧ l'.rest = more ∧
      stringLoop p start (n + 1) buf l = stringLoop p start n (buf ++ [c]) l' := by
  obtain ⟨l1, hadv1, hsteps1, hrest1⟩ := advance_run p hl h
  obtain ⟨l2, hadv2, hsteps2, hrest2⟩ := advance_run p hsteps1.small hrest1
  refine ⟨l2, hsteps2.small, hrest2, ?_⟩
  rw [stringLoop, run_bind hadv1]
  simp only [Char.reduceEq, if_false, if_true]
  rw [run_bind hadv2]
  simp only [hletter]

theorem stringLoop_escapeChar (c : Char) (hl : Small l) (h : l.rest = escapeChar c ++ more) :
    ∃ l', Small l' ∧ l'.rest = more ∧
      stringLoop p start (n + 1) buf l = stringLoop p start n (buf ++ [c]) l' := by
  unfold escapeChar at h
  split_ifs at h with hquote hback hnewline htab hreturn
  · exact stringLoop_escaped hl h (by rw [hquote]; rfl)
  · exact stringLoop_escaped hl h (by rw [hback]; rfl)
  · exact stringLoop_escaped hl h (by rw [hnewline]; rfl)
  · exact stringLoop_escaped hl h (by rw [htab]; rfl)
  · exact stringLoop_escaped hl h (by rw [hreturn]; rfl)
  · obtain ⟨l1, hadv1, hsteps1, hrest1⟩ := advance_run p hl h
    refine ⟨l1, hsteps1.small, hrest1, ?_⟩
    rw [stringLoop, run_bind hadv1]
    simp only [if_neg hquote, if_neg hback]

/-- **A string literal** is read back from its escaped text, character by character. -/
theorem stringLoop_run (start : Lexer) : ∀ {cs : List Char} (buf : List Char)
    {n : Nat} {l : Lexer}, cs.length < n → Small l →
    l.rest = cs.flatMap escapeChar ++ '"' :: rest →
    ∃ l', stringLoop p start n buf l = .ok (.str (String.ofList (buf ++ cs))) l' ∧ Small l' ∧
      l'.rest = rest
  | [], buf, n + 1, l, _, hl, h => by
    obtain ⟨l', hadv, hsteps, hrest⟩ := advance_run p hl h
    refine ⟨l', ?_, hsteps.small, hrest⟩
    rw [stringLoop, run_bind hadv, append_nil]
    rfl
  | c :: cs, buf, n + 1, l, hn, hl, h => by
    rw [flatMap_cons, append_assoc] at h
    obtain ⟨l1, hl1, hrest1, hstep⟩ := stringLoop_escapeChar (p := p) c hl h
    obtain ⟨l', hrun, hsmall, hrest⟩ :=
      stringLoop_run start (buf ++ [c]) (lt_of_succ_lt_succ hn) hl1 hrest1
    refine ⟨l', ?_, hsmall, hrest⟩
    rw [hstep, hrun, append_assoc, singleton_append]

theorem lexes_str (s : String) : Lexes p (strText true s) (.str s) := by
  refine lexes_of_lead (fun rest _ => startsToken_of (P := (· = '"')) (by decide) rfl _) ?_
  intro l rest hl htext _
  obtain ⟨l1, hadv, hsteps, hrest1⟩ := advance_run p hl htext
  rw [append_assoc, singleton_append] at hrest1
  have hlen : s.toList.length < l1.rest.length + 1 := by
    have := length_le_flatMap_escapeChar s.toList
    rw [hrest1, length_append]
    omega
  obtain ⟨l', hrun, hsmall, hrest'⟩ := stringLoop_run (p := p) l [] hlen hsteps.small hrest1
  have hlead : lead '"' (s.toList.flatMap escapeChar ++ ['"'] ++ rest).head? = .string := rfl
  refine ⟨l', ?_, hsmall, hrest'⟩
  rw [hlead, lexLead, lexString, run_bind hadv, run_bind run_get, hrun, nil_append,
    String.ofList_toList]

/-! ## Characters -/

/-- A letter or digit outside ASCII: its literal is taken for a name. -/
def Garbled (p : Platform) (c : Char) : Prop := p.isAlphanumeric c = true ∧ c.utf8Size ≠ 1

/-- The characters of a name after the backslash. -/
def nameChar (p : Platform) (c : Char) : Bool := p.isAlphanumeric c || c == '-'

theorem nameChar_ascii (h : c.toNat < 128) : nameChar p c = (c.isAlphanum || c == '-') := by
  rw [nameChar, p.isAlphanumeric_ascii c h]

theorem Closes.stops_nameChar (h : Closes rest) : Stops (nameChar p) rest := by
  refine h.stops ?_
  intro c hc
  have hascii : ∀ c ∈ [' ', ',', ')', ']', '}'], c.toNat < 128 ∧ (c.isAlphanum || c == '-') = false := by
    decide
  rw [nameChar_ascii (hascii c hc).1]
  exact (hascii c hc).2

theorem namedChar_short (name : List Char) (h : name.length ≤ 1) :
    namedChar (String.ofList name) = none := by
  have hlong : ∀ s : String, String.ofList name = s → s.toList.length ≤ 1 := by
    rintro s rfl
    rwa [String.toList_ofList]
  unfold namedChar
  split
  on_goal 7 => rfl
  all_goals exact absurd (hlong _ ‹_›) (by decide)

theorem lexCharLiteral_named {name : List Char} (hl : Small l)
    (h : l.rest = '\\' :: (name ++ rest)) (hcloses : Closes rest)
    (hascii : ∀ d ∈ name, d.toNat < 128 ∧ d.isAlphanum = true)
    (hname : namedChar (String.ofList name) = some c) :
    ∃ l', lexCharLiteral p start l = .ok (.char c) l' ∧ Small l' ∧ l'.rest = rest := by
  obtain ⟨l1, hadv, hsteps1, hrest1⟩ := advance_run p hl h
  have hrun : l1.rest.takeWhile (fun c => p.isAlphanumeric c || c == '-') = name := by
    rw [hrest1]
    refine (takeWhile_of_stops ?_ hcloses.stops_nameChar).1
    intro d hd
    have hd' : nameChar p d = true := by
      rw [nameChar_ascii (hascii d hd).1, (hascii d hd).2, Bool.true_or]
    exact hd'
  obtain ⟨l', hjump, hsteps', hrest'⟩ := jump_run p hsteps1.small hrest1
  refine ⟨l', ?_, hsteps'.small, hrest'⟩
  rw [lexCharLiteral, run_bind hadv, run_bind run_get]
  simp only [hrun, hname]
  rw [run_bind hjump]
  rfl

/-- The literal of a single character: it is taken as it is, unless a name of more bytes starts
there. -/
theorem lexCharLiteral_single (start : Lexer) (hl : Small l)
    (h : l.rest = '\\' :: c :: rest) (hcloses : Closes rest) :
    (¬ Garbled p c → ∃ l', lexCharLiteral p start l = .ok (.char c) l' ∧ Small l' ∧ l'.rest = rest) ∧
      (Garbled p c → ∃ e l', lexCharLiteral p start l = .error e l') := by
  obtain ⟨l1, hadv, hsteps1, hrest1⟩ := advance_run p hl h
  have hnil : rest.takeWhile (fun c => p.isAlphanumeric c || c == '-') = [] :=
    (takeWhile_append_of_stops hcloses.stops_nameChar []).1
  have hsize := c.utf8Size_le_four
  have hlen : utf8Len [c] = c.utf8Size := by simp
  have hfirst : ∃ l', lexFirstChar p start l1 = .ok (.char c) l' ∧ Small l' ∧ l'.rest = rest := by
    obtain ⟨l', hjump, hsteps', hrest'⟩ := jump_run p hsteps1.small
      (singleton_append.symm ▸ hrest1 : l1.rest = [c] ++ rest)
    rw [hlen] at hjump
    refine ⟨l', ?_, hsteps'.small, hrest'⟩
    rw [lexFirstChar, run_bind (peek_cons hrest1)]
    simp only
    rw [run_bind hjump]
    rfl
  rw [lexCharLiteral, run_bind hadv, run_bind run_get, hrest1, takeWhile_cons, hnil]
  by_cases hc : (p.isAlphanumeric c || c == '-') = true
  · have hoctal : isOctalName [c] = false := by
      unfold isOctalName
      split
      · grind
      · rfl
    have hunicode : ¬ ([c].head? = some 'u' ∧ 5 ≤ c.utf8Size) := by omega
    simp only [hc, if_true, namedChar_short [c] (by simp), hoctal, Bool.false_eq_true, if_false, hlen,
      if_neg hunicode, isEmpty_cons, or_false]
    constructor
    · intro hnot
      have hone : c.utf8Size = 1 := by
        by_contra hne
        rcases Bool.or_eq_true_iff.mp hc with halnum | hdash
        · exact hnot ⟨halnum, hne⟩
        · rw [beq_iff_eq.mp hdash] at hne
          exact hne rfl
      grind
    · intro hgarbled
      rw [if_neg hgarbled.2]
      exact ⟨_, _, rfl⟩
  · have hempty : ¬ ([].head? = some 'u' ∧ 5 ≤ utf8Len []) := by simp
    simp only [hc, if_false, namedChar_short [] (by simp), isOctalName, Bool.false_eq_true,
      if_neg hempty, isEmpty_nil, or_true, if_true]
    refine ⟨fun _ => hfirst, ?_⟩
    intro hgarbled
    rw [hgarbled.1, Bool.true_or] at hc
    exact absurd rfl hc

theorem lexes_char (h : ¬ Garbled p c) : Lexes p (charText true c) (.char c) := by
  have hstart : ∀ rest, StartsToken '\\' rest := startsToken_of (P := (· = '\\')) (by decide) rfl
  have hnamed : ∀ name : List Char, (∀ d ∈ name, d.toNat < 128 ∧ d.isAlphanum = true) →
      namedChar (String.ofList name) = some c → Lexes p ('\\' :: name) (.char c) := by
    intro name hascii hname
    refine lexes_of_lead (fun rest _ => hstart _) ?_
    intro l rest hl htext hcloses
    exact lexCharLiteral_named hl htext hcloses hascii hname
  unfold charText
  simp only [if_true]
  split_ifs with hnewline htab hspace hreturn
  · exact hnamed _ (by decide) (by rw [hnewline]; rfl)
  · exact hnamed _ (by decide) (by rw [htab]; rfl)
  · exact hnamed _ (by decide) (by rw [hspace]; rfl)
  · exact hnamed _ (by decide) (by rw [hreturn]; rfl)
  · refine lexes_of_lead (fun rest _ => hstart _) ?_
    intro l rest hl htext hcloses
    exact (lexCharLiteral_single l hl htext hcloses).1 h

/-- A garbled character is refused. -/
theorem rejects_char (h : Garbled p c) (hl : Small l)
    (htext : l.rest = charText true c ++ rest) (hcloses : Closes rest) :
    ∃ e l', nextToken p l = .error e l' := by
  have hne : ∀ d : Char, d.utf8Size = 1 → c ≠ d := by
    rintro d hd rfl
    exact h.2 hd
  have htext' : l.rest = '\\' :: c :: rest := by
    rw [htext, charText, if_pos rfl, if_neg (hne '\n' rfl), if_neg (hne '\t' rfl),
      if_neg (hne ' ' rfl), if_neg (hne '\r' rfl)]
    rfl
  obtain ⟨e, l', hrun⟩ := (lexCharLiteral_single (p := p) l hl htext' hcloses).2 h
  exact ⟨e, l', nextToken_error htext' (startsToken_of (P := (· = '\\')) (by decide) rfl _) hrun⟩

/-! ## Names -/

/-- A keyword whose text is read as one token and parsed as the keyword. -/
@[grind cases]
structure ReadableKeyword (k : Keyword) : Prop where
  chars : ∀ c ∈ k.fullName.toList, isSymbolChar c = true
  ne_nil : k.fullName.toList ≠ []
  single : k.fullName.toList.head? ≠ some ':'
  parse : Keyword.parse k.fullName = k

/-- A symbol whose text is read as one token and parsed as the symbol. -/
@[grind cases]
structure ReadableSymbol (s : Symbol) : Prop where
  chars : ∀ c ∈ s.fullName.toList, isSymbolChar c = true
  start : ∃ c tail, s.fullName.toList = c :: tail ∧ lead c tail.head? = .symbol
  word : s.versionedName ≠ "nil" ∧ s.versionedName ≠ "true" ∧ s.versionedName ≠ "false"
  version : ∀ hash ∈ s.version, isCommitHash hash.toList = true
  parse : Symbol.parse s.versionedName = s

theorem toList_display (k : Keyword) : k.display.toList = ':' :: k.fullName.toList := by
  unfold Keyword.display Keyword.fullName
  cases k.ns <;> simp

variable (p) in
theorem readSymbolChars_run {cs : List Char} (hl : Small l)
    (h : l.rest = cs ++ rest) (hcs : ∀ c ∈ cs, isSymbolChar c = true) (hrest : Ends rest) :
    ∃ l', readSymbolChars p l = .ok (String.ofList cs) l' ∧ Small l' ∧ l'.rest = rest := by
  obtain ⟨l', hwhile, hsteps, hrest'⟩ := advanceWhile_run p hl h hcs hrest
  refine ⟨l', ?_, hsteps.small, hrest'⟩
  rw [readSymbolChars, run_bind hwhile]
  rfl

theorem lexes_keyword {k : Keyword} (h : ReadableKeyword k) :
    Lexes p k.display.toList (.keyword k.fullName) := by
  rw [toList_display]
  refine lexes_of_lead (fun rest _ => startsToken_of (P := (· = ':')) (by decide) rfl _) ?_
  intro l rest hl htext hcloses
  obtain ⟨l1, hadv, hsteps1, hrest1⟩ := advance_run p hl htext
  obtain ⟨l2, hname, hsmall2, hrest2⟩ :=
    readSymbolChars_run p hsteps1.small hrest1 h.chars hcloses.ends
  have hhead : l1.rest.head? ≠ some ':' := by
    rw [hrest1, head?_append_of_ne_nil _ h.ne_nil]
    exact h.single
  have hlead : lead ':' (k.fullName.toList ++ rest).head? = .keyword := rfl
  have hempty : k.fullName.isEmpty = false := by
    rw [String.isEmpty_eq_false_iff]
    exact fun heq => h.ne_nil (String.toList_eq_nil_iff.mpr heq)
  rw [String.ofList_toList] at hname
  refine ⟨l2, ?_, hsmall2, hrest2⟩
  rw [hlead, lexLead, lexKeyword, run_bind hadv, run_bind (peek_run l1), if_neg hhead,
    lexKeywordName, run_bind hname, hempty, if_neg Bool.false_ne_true]
  rfl

theorem lead_symbol {next : Option Char} (h : lead c next = .symbol) :
    isSymbolStart c = true ∧ ∀ next' : Option Char, next'.any Char.isDigit = false →
      lead c next' = .symbol := by
  have hlookup : punctuation.lookup c = none := by
    by_contra hne
    obtain ⟨token, htoken⟩ := Option.ne_none_iff_exists'.mp hne
    rw [lead, htoken] at h
    cases h
  unfold lead at h ⊢
  rw [hlookup] at h ⊢
  grind

theorem startsToken_of_isSymbolStart (h : isSymbolStart c = true) (rest : List Char) :
    StartsToken c rest := startsToken_of (P := (isSymbolStart · = true)) (by decide) h rest

theorem lead_append (h : lead c tail.head? = .symbol)
    (hmore : Ends more) : lead c (tail ++ more).head? = .symbol := by
  cases tail with
  | nil =>
    refine (lead_symbol h).2 _ ?_
    exact hmore.stops fun c hc => isSymbolChar_of_isAlphanum (isAlphanum_of_isDigit hc)
  | cons => exact h

theorem lexes_name (hlead : lead c tail.head? = .symbol)
    (hchars : ∀ d ∈ c :: tail, isSymbolChar d = true) :
    Lexes p (c :: tail) (symbolToken (String.ofList (c :: tail))) := by
  have hstart := (lead_symbol hlead).1
  refine lexes_of_lead (fun rest _ => startsToken_of_isSymbolStart hstart _) ?_
  intro l rest hl htext hcloses
  obtain ⟨l', hname, hsmall, hrest'⟩ :=
    readSymbolChars_run p hl htext hchars hcloses.ends
  have hat : l'.rest.head? ≠ some '@' := by
    rw [hrest']
    intro heq
    exact absurd (hcloses '@' heq) (by decide)
  refine ⟨l', ?_, hsmall, hrest'⟩
  rw [lead_append hlead hcloses.ends, lexLead, lexSymbol, run_bind hname, run_bind (peek_run l'),
    if_neg hat]
  rfl

theorem peekVersionHash_run (hhash : isCommitHash hash = true)
    (hcloses : Closes rest) : peekVersionHash ('@' :: (hash ++ rest)) = some hash := by
  simp only [isCommitHash, Bool.and_eq_true, decide_eq_true_eq, all_eq_true] at hhash
  obtain ⟨⟨hlow, hhigh⟩, hdigits⟩ := hhash
  have hstop : ∀ n, Stops isHexDigit (rest.take n) := by
    intro n
    cases n with
    | zero => rfl
    | succ n =>
      cases rest with
      | nil => rfl
      | cons c rest =>
        have hc : Closes (c :: rest.take n) := hcloses
        exact hc.stops (by decide)
  have htake : ((hash ++ rest).take 40).takeWhile isHexDigit = hash := by
    rw [take_append, take_of_length_le hhigh]
    exact (takeWhile_of_stops hdigits (hstop _)).1
  have hnext : rest.head?.any isHexDigit = false := hcloses.stops (by decide)
  simp only [peekVersionHash, tail_cons, htake, drop_left, hlow, hnext, Bool.not_false,
    and_self, if_true]

theorem lexes_versioned (hlead : lead c tail.head? = .symbol)
    (hchars : ∀ d ∈ c :: tail, isSymbolChar d = true) (hhash : isCommitHash hash = true) :
    Lexes p (c :: (tail ++ '@' :: hash))
      (symbolToken (String.ofList (c :: tail) ++ "@" ++ String.ofList hash)) := by
  have hstart := (lead_symbol hlead).1
  refine lexes_of_lead (fun rest _ => startsToken_of_isSymbolStart hstart _) ?_
  intro l rest hl htext hcloses
  have hends : Ends ('@' :: (hash ++ rest)) := rfl
  rw [append_assoc, cons_append] at htext ⊢
  obtain ⟨l1, hname, hsmall1, hrest1⟩ := readSymbolChars_run p hl htext hchars hends
  obtain ⟨l2, hadv, hsteps2, hrest2⟩ := advance_run p hsmall1 hrest1
  obtain ⟨l3, hover, hsteps3, hrest3⟩ := advanceOver_run (p := p) hsteps2.small hrest2
  have hat : l1.rest.head? = some '@' := by rw [hrest1]; rfl
  refine ⟨l3, ?_, hsteps3.small, hrest3⟩
  rw [lead_append hlead hends, lexLead, lexSymbol, run_bind hname, run_bind (peek_run l1), if_pos hat,
    run_bind run_get, hrest1, peekVersionHash_run hhash hcloses]
  simp only
  rw [run_bind hadv, run_bind hover]
  rfl

theorem versionedName_eq (s : Symbol) :
    s.versionedName = s.fullName ++ (s.version.map ("@" ++ ·)).getD "" := by
  unfold Symbol.versionedName Symbol.fullName
  cases s.ns <;> cases s.version <;> simp [String.append_assoc]

theorem lexes_symbol {s : Symbol} (h : ReadableSymbol s) :
    Lexes p s.versionedName.toList (.symbol s.versionedName) := by
  obtain ⟨c, tail, hname, hlead⟩ := h.start
  have hchars : ∀ d ∈ c :: tail, isSymbolChar d = true := hname ▸ h.chars
  have hfull : String.ofList (c :: tail) = s.fullName := by rw [← hname, String.ofList_toList]
  have htoken : symbolToken s.versionedName = .symbol s.versionedName := by
    rw [symbolToken, if_neg h.word.1, if_neg h.word.2.1, if_neg h.word.2.2]
  rw [← htoken]
  cases hversion : s.version with
  | none =>
    have htext : s.versionedName = s.fullName := by
      rw [versionedName_eq, hversion]
      exact String.append_empty
    have hlexes := lexes_name (p := p) hlead hchars
    rwa [hfull, ← hname, ← htext] at hlexes
  | some hash =>
    have htext : s.versionedName = s.fullName ++ "@" ++ hash := by
      rw [versionedName_eq, hversion, String.append_assoc]
      rfl
    have hlist : s.versionedName.toList = c :: (tail ++ '@' :: hash.toList) := by
      rw [htext, String.toList_append, String.toList_append, hname, append_assoc]
      rfl
    have hlexes := lexes_versioned (p := p) hlead hchars (h.version hash hversion)
    rwa [hfull, String.ofList_toList, ← htext, ← hlist] at hlexes

end Clojurust.Reader
