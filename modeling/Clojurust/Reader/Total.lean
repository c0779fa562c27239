import Clojurust.Reader.LexerTotal
import Clojurust.Reader.Parser
import Mathlib.Data.List.Infix

/-!
# The reader comes to an end

Every call of the lexer and of the parser returns or fails with a read error, in a text without
hazards at the starts of its tokens.

* `Tame` — no token ahead starts with a hazard, whatever the calls of the lexer return;
* `Ready` — a state of the parser in the middle of such a text; `Later` — what every operation keeps;
* `Takes` — a parser function that never panics and never uses up its rounds, with one rule for each
  construct;
* `takes_parseRaw` — by induction on the rounds: a form consumes at least one byte;
* `reader_total_iff` — the reader is total on a text exactly if the text is tame.

The native stack is left out: the parser recurs once for each level of nesting, and nothing is said about
texts that are nested too deeply for it.
-/

namespace Clojurust.Reader

open StateExcept

variable {p : Platform}

/-! ## States of the parser -/

/-- However often the lexer is called, no hazard is at the start of the next token. -/
def Tame (p : Platform) (l : Lexer) : Prop :=
  ∀ n, ¬ Hazard p (tokenStart p ((final (nextToken p))^[n] l))

theorem Tame.start {l : Lexer} (h : Tame p l) : ¬ Hazard p (tokenStart p l) := h 0

theorem Tame.next {l : Lexer} (h : Tame p l) : Tame p (final (nextToken p) l) := fun n => h (n + 1)

/-- The lexer has room, no hazard is ahead, and the lookahead is a token that ends where the lexer
stands. -/
@[grind cases]
structure Ready (p : Platform) (s : Parser) : Prop where
  small : Small s.lexer
  tame : Tame p s.lexer
  peeked : ∀ pair, s.peeked = some pair →
    (pair.1 = .eof ∧ pair.2.start = s.lexer.pos ∧ s.lexer.rest = []) ∨
      (Proper pair.1 ∧ pair.2.start < s.lexer.pos)

/-- A later state of the parser. -/
@[grind cases]
structure Later (p : Platform) (s s' : Parser) : Prop where
  ready : Ready p s'
  unread : s'.unread ≤ s.unread

theorem Later.refl {s : Parser} (h : Ready p s) : Later p s s := ⟨h, Nat.le_refl _⟩

theorem Later.trans {s s' s'' : Parser} (h : Later p s s') (h' : Later p s' s'') : Later p s s'' :=
  ⟨h'.ready, h'.unread.trans h.unread⟩

/-- From `s` on, `x` returns with `Q` or fails with a read error. -/
def Takes {α : Type} (p : Platform) (s : Parser) (Q : α → Parser → Prop) (x : Parse α) : Prop :=
  wp x (fun a s' => Later p s s' ∧ Q a s') (fun e s' => Later p s s' ∧ e.Due False) s

section Rules

variable {α β : Type} {s : Parser} {Q : α → Parser → Prop} {R : β → Parser → Prop} {x : Parse α}
  {f : α → Parse β}

theorem takes_pure {a : α} (h : Ready p s) (ha : Q a s) : Takes p s Q (pure a : Parse α) :=
  ⟨.refl h, ha⟩

theorem takes_parseError {message : String} {span : Span} (h : Ready p s) :
    Takes p s Q (parseError message span) := ⟨.refl h, id⟩

theorem Takes.bind (hx : Takes p s Q x)
    (hf : ∀ a s', Later p s s' → Q a s' → Takes p s' R (f a)) : Takes p s R (x >>= f) := by
  refine wp_seq hx ?_
  rintro a s' ⟨hlater, ha⟩
  exact wp_weaken (hf a s' hlater ha) (fun _ _ hr => ⟨hlater.trans hr.1, hr.2⟩)
    (fun _ _ he => ⟨hlater.trans he.1, he.2⟩)

theorem Takes.mono {Q' : α → Parser → Prop} (hx : Takes p s Q x)
    (h : ∀ a s', Later p s s' → Q a s' → Q' a s') : Takes p s Q' x :=
  wp_mono hx fun a s' ha => ⟨ha.1, h a s' ha.1 ha.2⟩

end Rules

/-! ## Lookahead -/

section Lookahead

variable {s : Parser}

theorem unread_none (l : Lexer) : Parser.unread ⟨l, none⟩ = utf8Len l.rest := rfl

theorem unread_some (l : Lexer) (tok : Token) (span : Span) :
    Parser.unread ⟨l, some (tok, span)⟩ = utf8Len l.rest + (l.pos - span.start) := rfl

theorem takes_fill (hs : Ready p s) : Takes p s (fun _ s' => ∃ pair, s'.peeked = some pair) (fill p) := by
  obtain ⟨l, peeked⟩ := s
  cases peeked with
  | some pair => exact ⟨.refl hs, pair, rfl⟩
  | none =>
    have houtcome := nextToken_outcome (p := p) hs.small
    have htame := hs.tame.next
    rw [final] at htame
    cases hrun : nextToken p l with
    | ok pair l' =>
      rw [hrun] at htame
      obtain ⟨honward, hbetween, -⟩ := wp_ok houtcome hrun
      have hready : Ready p ⟨l', some pair⟩ :=
        ⟨honward.small, htame, fun q hq => by cases hq; exact hbetween.token⟩
      have hfill : fill p ⟨l, none⟩ = .ok () ⟨l', some pair⟩ := by simp only [fill, hrun]
      rw [Takes, wp, hfill]
      refine ⟨⟨hready, ?_⟩, pair, rfl⟩
      obtain ⟨cs, hcs⟩ := honward
      have hstart := hbetween.start
      rw [unread_none, unread_some, hcs.rest, hcs.pos, utf8Len_append]
      omega
    | error e l' =>
      rw [hrun] at htame
      obtain ⟨honward, hdue⟩ := wp_error houtcome hrun
      have hfill : fill p ⟨l, none⟩ = .error e ⟨l', none⟩ := by simp only [fill, hrun]
      rw [Takes, wp, hfill]
      rw [eq_false hs.tame.start] at hdue
      refine ⟨⟨⟨honward.small, htame, fun q hq => by cases hq⟩, ?_⟩, hdue⟩
      obtain ⟨cs, hcs⟩ := honward
      rw [unread_none, unread_none, hcs.rest, utf8Len_append]
      exact Nat.le_add_left ..

theorem takes_peekPair (hs : Ready p s) :
    Takes p s (fun pair s' => s'.peeked = some pair) (peekPair p) := by
  refine (takes_fill hs).bind fun _ s' hlater ⟨pair, hpair⟩ => ?_
  rw [Takes, wp, run_bind run_get, hpair]
  exact ⟨.refl hlater.ready, hpair⟩

theorem takes_peekTok (hs : Ready p s) :
    Takes p s (fun tok s' => ∃ span, s'.peeked = some (tok, span)) (peekTok p) :=
  (takes_peekPair hs).bind fun pair _ hlater hpair => takes_pure hlater.ready ⟨pair.2, hpair⟩

variable {pair : Token × Span} {tok : Token} {span : Span}

theorem peekPair_run (h : s.peeked = some pair) : peekPair p s = .ok pair s := by
  have hfill : fill p s = .ok () s := by simp only [fill, h]
  rw [peekPair, run_bind hfill, run_bind run_get, h]
  rfl

theorem peekTok_run (h : s.peeked = some (tok, span)) : peekTok p s = .ok tok s := by
  rw [peekTok, run_bind (peekPair_run h)]
  rfl

theorem peekSpan_run (h : s.peeked = some (tok, span)) : peekSpan p s = .ok span s := by
  rw [peekSpan, run_bind (peekPair_run h)]
  rfl

theorem bump_run (h : s.peeked = some pair) : bump p s = .ok pair { s with peeked := none } := by
  rw [bump, run_bind (peekPair_run h)]
  rfl

theorem takes_bump (hs : Ready p s) (h : s.peeked = some (tok, span)) (hne : tok ≠ .eof) :
    Takes p s (fun pair s' => pair = (tok, span) ∧ s'.unread < s.unread) (bump p) := by
  obtain ⟨l, peeked⟩ := s
  cases h
  have hlt : Parser.unread ⟨l, none⟩ < Parser.unread ⟨l, some (tok, span)⟩ := by
    rw [unread_none, unread_some]
    rcases hs.peeked _ rfl with heof | hproper
    · exact absurd heof.1 hne
    · grind
  exact ⟨⟨⟨hs.small, hs.tame, fun q hq => by cases hq⟩, hlt.le⟩, rfl, hlt⟩

end Lookahead

/-! ## Loops -/

/-- Below some number of bytes, a form in front of the parser is consumed. -/
def Consumes (p : Platform) (n : Nat) (raw : Parse (Option Form)) : Prop :=
  ∀ (s : Parser) (tok : Token) (span : Span), Ready p s → s.peeked = some (tok, span) → tok ≠ .eof →
    s.unread < n → Takes p s (fun _ s' => s'.unread < s.unread) raw

section Loops

variable {raw : Parse (Option Form)} {n : Nat} {s : Parser}

theorem takes_parseSeqForms (hraw : Consumes p n raw) {closing : Token} {openSpan : Span}
    {name : String} (hn : s.unread < n) (hs : Ready p s) :
    ∀ (k : Nat) (forms : List Form), s.unread < k →
      Takes p s (fun _ _ => True) (parseSeqForms p raw closing openSpan name k forms) := by
  intro k
  induction k generalizing s with
  | zero => omega
  | succ =>
    intro forms hk
    refine (takes_peekTok hs).bind fun tok s1 h1 ⟨span, hpeeked⟩ => ?_
    have hle := h1.unread
    split
    · exact takes_parseError h1.ready
    rename_i hne
    split
    · exact (takes_bump h1.ready hpeeked hne).bind fun _ s2 h2 _ => takes_pure h2.ready trivial
    refine (hraw s1 tok span h1.ready hpeeked hne (by omega)).bind fun form s2 h2 hlt => ?_
    grind

theorem takes_requireForm (hraw : Consumes p n raw) {macroSpan : Span} {what : String}
    (hn : s.unread < n) (hs : Ready p s) :
    ∀ k : Nat, s.unread < k → Takes p s (fun _ _ => True) (requireForm p raw macroSpan what k) := by
  intro k
  induction k generalizing s with
  | zero => omega
  | succ k ih =>
    intro hk
    refine (takes_peekTok hs).bind fun tok s1 h1 ⟨span, hpeeked⟩ => ?_
    have hle := h1.unread
    split
    · exact takes_parseError h1.ready
    rename_i hne
    refine (hraw s1 tok span h1.ready hpeeked hne (by omega)).bind fun form s2 h2 hlt => ?_
    split
    · exact takes_pure h2.ready trivial
    · exact ih (by omega) h2.ready (by omega)

theorem takes_construct {α : Type} {tok : Token} {span : Span} {f : Token × Span → Parse α}
    (hs : Ready p s) (hpeeked : s.peeked = some (tok, span)) (hne : tok ≠ .eof)
    (hf : ∀ s', Ready p s' → s'.unread < s.unread → Takes p s' (fun _ _ => True) (f (tok, span))) :
    Takes p s (fun _ s' => s'.unread < s.unread) (bump p >>= f) := by
  refine (takes_bump hs hpeeked hne).bind ?_
  rintro _ s1 h1 ⟨rfl, hlt⟩
  exact (hf s1 h1.ready hlt).mono fun _ s2 h2 _ => Nat.lt_of_le_of_lt h2.unread hlt

/-- **Forms.** Each of them consumes at least one byte, and its rounds are enough. -/
theorem consumes_parseRaw : ∀ n : Nat, Consumes p n (parseRaw p n)
  | 0 => fun s tok span _ _ _ hn => absurd hn (Nat.not_lt_zero _)
  | n + 1 => by
    intro s tok span hs hpeeked hne hn
    have hraw := consumes_parseRaw n
    have hproper : Proper tok := by
      rcases hs.peeked _ hpeeked with heof | hproper
      · exact absurd heof.1 hne
      · exact hproper.1
    have hatom : ∀ kind, Takes p s (fun _ s' => s'.unread < s.unread) (parseAtom p kind span) :=
      fun kind => takes_construct hs hpeeked hne fun s' hs' _ => takes_pure hs' trivial
    have hcollection : ∀ closing name kind, Takes p s (fun _ s' => s'.unread < s.unread)
        (parseCollection p (parseRaw p n) n closing name span kind) := by
      intro closing name kind
      refine takes_construct hs hpeeked hne fun s' hs' hlt => ?_
      exact (takes_parseSeqForms hraw (by omega) hs' n [] (by omega)).bind
        fun _ _ h _ => takes_pure h.ready trivial
    have hwrapped : ∀ what kind, Takes p s (fun _ s' => s'.unread < s.unread)
        (parseWrapped p (parseRaw p n) n what span kind) := by
      intro what kind
      refine takes_construct hs hpeeked hne fun s' hs' hlt => ?_
      exact (takes_requireForm hraw (by omega) hs' n (by omega)).bind
        fun _ _ h _ => takes_pure h.ready trivial
    have hcond : ∀ splicing, Takes p s (fun _ s' => s'.unread < s.unread)
        (parseReaderCond p (parseRaw p n) n splicing span) := by
      intro splicing
      refine takes_construct hs hpeeked hne fun s' hs' hlt => ?_
      refine (takes_peekTok hs').bind fun next s1 h1 ⟨nextSpan, hnext⟩ => ?_
      split
      · rw [Takes, wp, run_bind (peekSpan_run hnext)]
        exact ⟨.refl h1.ready, id⟩
      · rename_i hparen
        have hparen : next = .lParen := by simpa using hparen
        have hne : next ≠ .eof := by rw [hparen]; simp
        refine (takes_bump h1.ready hnext hne).bind fun pair s2 h2 hpair => ?_
        have hle := h1.unread
        refine (takes_parseSeqForms hraw (by omega) h2.ready n [] (by omega)).bind ?_
        rintro ⟨clauses, close⟩ s3 h3 -
        simp only
        split
        · exact takes_parseError h3.ready
        · exact takes_pure h3.ready trivial
    unfold parseRaw
    rw [Takes, wp, run_bind (peekTok_run hpeeked), run_bind (peekSpan_run hpeeked)]
    cases tok with
    | eof => exact absurd rfl hne
    | rParen | rBracket | rBrace =>
      exact takes_construct hs hpeeked hne fun s' hs' _ => takes_parseError hs'
    | symbolic name =>
      have hname : ∃ x, symbolicValue name = some x := by
        rcases hproper.2 name rfl with rfl | rfl | rfl <;> exact ⟨_, rfl⟩
      obtain ⟨x, hx⟩ := hname
      simp only [hx]
      exact hatom _
    | lParen | lBracket | hashSet | hashFn => exact hcollection ..
    | lBrace =>
      refine takes_construct hs hpeeked hne fun s' hs' hlt => ?_
      refine (takes_parseSeqForms hraw (by omega) hs' n [] (by omega)).bind ?_
      rintro ⟨forms, close⟩ s2 h2 -
      simp only
      split
      · exact takes_parseError h2.ready
      · exact takes_pure h2.ready trivial
    | quote | syntaxQuote | unquote | unquoteSplice | deref | hashVar | taggedLiteral => exact hwrapped ..
    | metadata =>
      refine takes_construct hs hpeeked hne fun s' hs' hlt => ?_
      refine (takes_requireForm hraw (by omega) hs' n (by omega)).bind fun data s2 h2 _ => ?_
      have hle := h2.unread
      exact (takes_requireForm hraw (by omega) h2.ready n (by omega)).bind
        fun target s3 h3 _ => takes_pure h3.ready trivial
    | hashDiscard =>
      refine takes_construct hs hpeeked hne fun s' hs' hlt => ?_
      refine (takes_peekTok hs').bind fun next s1 h1 ⟨nextSpan, hnext⟩ => ?_
      have hle := h1.unread
      split
      · exact takes_parseError h1.ready
      · rename_i hnextEof
        exact (hraw s1 next nextSpan h1.ready hnext hnextEof (by omega)).bind
          fun _ s2 h2 _ => takes_pure h2.ready trivial
    | readerCond | readerCondSplice => exact hcond _
    | _ => exact hatom _

/-- The next form of a text is consumed; without one, the text is at its end. -/
def Answered (s : Parser) : Option Form → Parser → Prop
  | some _, s' => s'.unread < s.unread
  | none, s' => s'.unread = 0

theorem takes_parseOneLoop (hraw : Consumes p n raw) (hn : s.unread < n) (hs : Ready p s) :
    ∀ k : Nat, s.unread < k → Takes p s (Answered s) (parseOneLoop p raw k) := by
  intro k
  induction k generalizing s with
  | zero => omega
  | succ k ih =>
    intro hk
    refine (takes_peekTok hs).bind fun tok s1 h1 ⟨span, hpeeked⟩ => ?_
    have hle := h1.unread
    split
    · rename_i heof
      refine takes_pure h1.ready ?_
      rcases h1.ready.peeked _ hpeeked with hend | hproper
      · obtain ⟨l, peeked⟩ := s1
        cases hpeeked
        show Parser.unread _ = 0
        rw [unread_some, hend.2.2, hend.2.1, utf8Len_nil, Nat.zero_add, Nat.sub_self]
      · exact absurd heof hproper.1.1
    rename_i hne
    refine (hraw s1 tok span h1.ready hpeeked hne (by omega)).bind fun form s2 h2 hlt => ?_
    split
    · refine takes_pure h2.ready ?_
      show s2.unread < s.unread
      omega
    · refine (ih (by omega) h2.ready (by omega)).mono fun r s3 _ hr => ?_
      cases r with
      | none => exact hr
      | some =>
        have : s3.unread < s2.unread := hr
        show s3.unread < s.unread
        omega

theorem takes_parseOne (hs : Ready p s) : Takes p s (Answered s) (parseOne p) := by
  rw [Takes, wp, parseOne, run_bind run_get]
  exact takes_parseOneLoop (consumes_parseRaw _) (Nat.lt_succ_self _) hs _ (Nat.lt_succ_self _)

theorem takes_parseAllLoop (hs : Ready p s) : ∀ (k : Nat) (forms : List Form), s.unread < k →
    Takes p s (fun _ s' => s'.unread = 0) (parseAllLoop p k forms) := by
  intro k
  induction k generalizing s with
  | zero => omega
  | succ k ih =>
    intro forms hk
    refine (takes_parseOne hs).bind fun r s1 h1 hr => ?_
    cases r with
    | none => exact takes_pure h1.ready hr
    | some =>
      have hlt : s1.unread < s.unread := hr
      exact ih h1.ready _ (by omega)

theorem takes_parseAll (hs : Ready p s) : Takes p s (fun _ s' => s'.unread = 0) (parseAll p) := by
  rw [Takes, wp, parseAll, run_bind run_get]
  exact takes_parseAllLoop hs _ _ (Nat.lt_succ_self _)

end Loops

/-! ## Calls one after the other -/

/-- A call of the lexer returns a token that consumes at least one byte, the end of the text, or a
read error. -/
def TokenCall (l : Lexer) : EStateM.Result Raised Lexer (Token × Span) → Prop
  | .ok (token, _) l' => (token = .eof ∧ l'.rest = []) ∨ l.pos < l'.pos
  | .error e _ => ∃ error, e = .error error

/-- A call of the parser returns a form that consumes at least one byte, nothing at the end of the
text, or a read error. -/
def FormCall (s : Parser) : EStateM.Result Raised Parser (Option Form) → Prop
  | .ok form s' => Answered s form s'
  | .error e _ => ∃ error, e = .error error

/-- All forms of a text, or a read error. -/
def AllCall : EStateM.Result Raised Parser (List Form) → Prop
  | .ok _ s' => s'.unread = 0
  | .error e _ => ∃ error, e = .error error

/-- The reader is total on a text: the lexer and the parser, called again and again whatever they
return, and `parse_all`. -/
@[grind cases]
structure Total (p : Platform) (source : List Char) : Prop where
  tokens : ∀ n, let l := (final (nextToken p))^[n] (.new source)
    TokenCall l (nextToken p l)
  forms : ∀ n, let s := (final (parseOne p))^[n] (.new source)
    FormCall s (parseOne p s)
  all : AllCall (parseAll p (.new source))

theorem Raised.Due.error {e : Raised} (h : e.Due False) : ∃ error, e = .error error := by
  cases e with
  | error e => exact ⟨e, rfl⟩
  | panic | diverged => exact h.elim

variable {source : List Char}

theorem small_new (hsize : utf8Len source + 2 < 2 ^ 32) : Small (.new source) where
  col_pos := Nat.le_refl 1
  room := by
    show 1 + 1 + utf8Len source < 2 ^ 32
    omega

/-- **A call of the lexer** is as it should be exactly if no hazard starts the next token. -/
theorem tokenCall_iff {l : Lexer} (hl : Small l) :
    TokenCall l (nextToken p l) ↔ ¬ Hazard p (tokenStart p l) := by
  have houtcome := nextToken_outcome (p := p) hl
  cases hrun : nextToken p l with
  | ok pair l' =>
    obtain ⟨-, hbetween, hsafe⟩ := wp_ok houtcome hrun
    refine iff_of_true ?_ hsafe
    rcases hbetween.token with hend | hproper
    · exact .inl ⟨hend.1, hend.2.2⟩
    · exact .inr (Nat.lt_of_le_of_lt hbetween.start hproper.2)
  | error e l' =>
    have hdue := (wp_error houtcome hrun).2
    cases e with
    | error e => exact iff_of_true ⟨e, rfl⟩ hdue
    | panic message =>
      refine iff_of_false ?_ (not_not_intro hdue)
      rintro ⟨e, he⟩
      cases he
    | diverged => exact hdue.elim

theorem tokens_total_iff (hsize : utf8Len source + 2 < 2 ^ 32) :
    (∀ n, TokenCall ((final (nextToken p))^[n] (.new source))
      (nextToken p ((final (nextToken p))^[n] (.new source)))) ↔ Tame p (.new source) := by
  refine forall_congr' fun n => tokenCall_iff ?_
  exact Function.Iterate.rec Small (small_new hsize) (fun _ h =>
    wp_final (nextToken_outcome (p := p) h) (fun _ _ h => h.1.small) fun _ _ h => h.1.small) n

theorem forms_total (hs : Ready p (.new source)) (n : Nat) :
    FormCall ((final (parseOne p))^[n] (.new source))
      (parseOne p ((final (parseOne p))^[n] (.new source))) := by
  have hreach := Function.Iterate.rec (Ready p) hs
    (fun _ h => (wp_final (takes_parseOne h) (fun _ _ h => h.1) (fun _ _ h => h.1)).ready) n
  generalize (final (parseOne p))^[n] (.new source) = s at hreach ⊢
  cases hrun : parseOne p s with
  | ok => exact (wp_ok (takes_parseOne hreach) hrun).2
  | error => exact (wp_error (takes_parseOne hreach) hrun).2.error

/-- **The reader is total exactly on texts without hazards.**  However often the lexer and the parser are
called, they read the text without a panic, to its end or to a read error, exactly if no hazard is where
the lexer starts a token. -/
theorem reader_total_iff (p : Platform) (source : List Char) (hsize : utf8Len source + 2 < 2 ^ 32) :
    Total p source ↔ ∀ n, ¬ Hazard p (tokenStart p ((final (nextToken p))^[n] (.new source))) := by
  refine ⟨fun htotal => (tokens_total_iff hsize).mp htotal.tokens, fun htame => ?_⟩
  have hs : Ready p (.new source) := ⟨small_new hsize, htame, fun q hq => by cases hq⟩
  refine ⟨(tokens_total_iff hsize).mpr htame, forms_total hs, ?_⟩
  cases hrun : parseAll p (.new source) with
  | ok => exact (wp_ok (takes_parseAll hs) hrun).2
  | error => exact (wp_error (takes_parseAll hs) hrun).2.error

/-- `[2r10 é "37r1"] ;37r1`: what would be a hazard is inside a string and a comment. -/
theorem reader_total_iff_radix :
    let source := ['[', '2', 'r', '1', '0', ' ', 'é', ' ', '"', '3', '7', 'r', '1', '"', ']', ' ', ';', '3',
      '7', 'r', '1']
    utf8Len source + 2 < 2 ^ 32 ∧ Total (plainPlatform true) source := by
  intro source
  have hsize : utf8Len source + 2 < 2 ^ 32 := by decide
  refine ⟨hsize, (reader_total_iff (plainPlatform true) source hsize).mpr ?_⟩
  -- five tokens, and the comment is skipped by the sixth call
  have hend : ∀ n, (final (nextToken (plainPlatform true)))^[n + 6] (.new source) =
      (final (nextToken (plainPlatform true)))^[6] (.new source) := by
    intro n
    rw [Function.iterate_add_apply]
    exact Function.iterate_fixed (by decide +kernel) n
  have hfirst : ∀ n ≤ 6, ¬ Hazard (plainPlatform true)
      (tokenStart (plainPlatform true) ((final (nextToken (plainPlatform true)))^[n] (.new source))) := by
    decide +kernel
  intro n
  rcases Nat.le_total n 6 with hn | hn
  · exact hfirst n hn
  · obtain ⟨k, rfl⟩ := Nat.exists_eq_add_of_le' hn
    rw [hend k]
    exact hfirst 6 (Nat.le_refl 6)

/-- The call has panicked. -/
def panicked {σ α : Type} : EStateM.Result Raised σ α → Bool
  | .error (.panic _) _ => true
  | _ => false

/-- `\uabcé` is cut after the first byte of the last character, 37 is no radix, and the radix
literal for the least `Long` is negated with overflow checks. -/
theorem reader_panics :
    panicked (nextToken (plainPlatform false) (.new ['\\', 'u', 'a', 'b', 'c', 'é'])) = true ∧
    panicked (parseAll (plainPlatform false) (.new ['\\', 'u', 'a', 'b', 'c', 'é'])) = true ∧
    panicked (parseAll (plainPlatform false) (.new ['3', '7', 'r', '1'])) = true ∧
    panicked (parseAll (plainPlatform true)
      (.new ('-' :: '1' :: '6' :: 'r' :: '8' :: List.replicate 15 '0'))) = true := by
  refine ⟨?_, ?_, ?_, ?_⟩ <;> decide +kernel

end Clojurust.Reader
