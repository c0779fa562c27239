import Clojurust.Reader.Lexer

/-!
# Reading characters

What the operations on characters do in a text that is small enough for the counters of lines and
columns.

* `Small` — the counters have room for all of the text that is left;
* `Steps l cs l'` — `l'` is `l` after the characters `cs`;
* `advance_run`, `advanceOver_run`, `advanceWhile_run`, `jump_run` — one equation for each operation.
-/

namespace Clojurust.Reader

open StateExcept List

@[simp] theorem utf8Len_nil : utf8Len [] = 0 := rfl

@[simp] theorem utf8Len_cons (c : Char) (cs : List Char) :
    utf8Len (c :: cs) = c.utf8Size + utf8Len cs := by simp [utf8Len]

@[simp] theorem utf8Len_append (cs ds : List Char) : utf8Len (cs ++ ds) = utf8Len cs + utf8Len ds := by
  simp [utf8Len]

theorem length_le_utf8Len (cs : List Char) : cs.length ≤ utf8Len cs := by
  induction cs with
  | nil => exact Nat.le_refl 0
  | cons c =>
    have := c.utf8Size_pos
    simp only [length_cons, utf8Len_cons]
    omega

/-- The counters have room for the text that is left. -/
@[grind cases]
structure Small (l : Lexer) : Prop where
  col_pos : 1 ≤ l.col
  room : l.line + l.col + utf8Len l.rest < 2 ^ 32

/-- Some characters have been read off the front. -/
@[grind cases]
structure Steps (l : Lexer) (cs : List Char) (l' : Lexer) : Prop where
  rest : l.rest = cs ++ l'.rest
  pos : l'.pos = l.pos + utf8Len cs
  small : Small l'

theorem Small.steps {l : Lexer} (h : Small l) : Steps l [] l := ⟨rfl, rfl, h⟩

variable {l' : Lexer} {cs : List Char} {c : Char} {kind : Char → Bool} {rest : List Char}

theorem Steps.trans {l l'' : Lexer} {ds : List Char} (h : Steps l cs l')
    (h' : Steps l' ds l'') : Steps l (cs ++ ds) l'' where
  rest := by rw [h.rest, h'.rest, append_assoc]
  pos := by rw [h'.pos, h.pos, utf8Len_append, Nat.add_assoc]
  small := h'.small

variable {p : Platform} {l : Lexer}

@[simp] theorem peek_run (l : Lexer) : peek l = .ok l.rest.head? l := rfl

theorem peek_cons (h : l.rest = c :: rest) : peek l = .ok (some c) l := by
  rw [peek_run, h]
  rfl

@[simp] theorem peekNext_run (l : Lexer) : peekNext l = .ok l.rest[1]? l := rfl

theorem addU32_run {a b : Nat} (h : a + b < 2 ^ 32) (l : Lexer) : addU32 p a b l = .ok (a + b) l := by
  simp only [addU32, if_pos h]
  rfl

theorem advance_nil (h : l.rest = []) : advance p l = .ok none l := by
  rw [advance, run_bind run_get, h]
  rfl

variable (p) in
/-- **One character.** -/
theorem advance_run (hl : Small l) (h : l.rest = c :: cs) :
    ∃ l', advance p l = .ok (some c) l' ∧ Steps l [c] l' ∧ l'.rest = cs := by
  have hcol := hl.col_pos
  have hroom := hl.room
  rw [h, utf8Len_cons] at hroom
  have hlen : utf8Len [c] = c.utf8Size := by simp
  rw [advance, run_bind run_get, h]
  by_cases hc : c = '\n'
  · subst hc
    have hsize : '\n'.utf8Size = 1 := rfl
    have hadd : addU32 p l.line 1 l = .ok (l.line + 1) l := addU32_run (by omega) l
    refine ⟨⟨cs, l.pos + '\n'.utf8Size, l.line + 1, 1⟩, ?_, ⟨h, by rw [hlen], ?_⟩, rfl⟩
    · simp only [if_true]
      rw [run_bind hadd]
      rfl
    · exact ⟨Nat.le_refl 1, by simp only; omega⟩
  · have hadd : addU32 p l.col c.utf8Size l = .ok (l.col + c.utf8Size) l :=
      addU32_run (by omega) l
    refine ⟨⟨cs, l.pos + c.utf8Size, l.line, l.col + c.utf8Size⟩, ?_, ⟨h, by rw [hlen], ?_⟩, rfl⟩
    · simp only [if_neg hc]
      rw [run_bind hadd]
      rfl
    · exact ⟨by simp only; omega, by simp only; omega⟩

theorem advanceOver_run : ∀ {cs rest : List Char} {l : Lexer}, Small l → l.rest = cs ++ rest →
    ∃ l', advanceOver p cs l = .ok () l' ∧ Steps l cs l' ∧ l'.rest = rest
  | [], rest, l, hl, h => ⟨l, rfl, hl.steps, h⟩
  | c :: cs, rest, l, hl, h => by
    obtain ⟨l1, hadv, hsteps, hrest⟩ := advance_run p hl h
    obtain ⟨l2, hover, hsteps', hrest'⟩ := advanceOver_run hsteps.small hrest
    refine ⟨l2, ?_, hsteps.trans hsteps', hrest'⟩
    rw [advanceOver, run_bind hadv]
    exact hover

variable (p) in
theorem advanceWhile_takeWhile (kind : Char → Bool) (hl : Small l) :
    ∃ l', advanceWhile p kind l = .ok (l.rest.takeWhile kind) l' ∧
      Steps l (l.rest.takeWhile kind) l' ∧ l'.rest = l.rest.dropWhile kind := by
  obtain ⟨l', hover, hsteps, hrest⟩ :=
    advanceOver_run (p := p) hl (takeWhile_append_dropWhile (p := kind)).symm
  refine ⟨l', ?_, hsteps, hrest⟩
  rw [advanceWhile, run_bind run_get, run_bind hover]
  rfl

/-- The text after a run does not go on with a character of the kind. -/
def Stops (kind : Char → Bool) (rest : List Char) : Prop := rest.head?.any kind = false

theorem takeWhile_of_stops (hcs : ∀ c ∈ cs, kind c = true) (hrest : Stops kind rest) :
    (cs ++ rest).takeWhile kind = cs ∧ (cs ++ rest).dropWhile kind = rest := by
  have hnil : rest.takeWhile kind = [] ∧ rest.dropWhile kind = rest := by
    cases rest with
    | nil => exact ⟨rfl, rfl⟩
    | cons c =>
      have hc : kind c = false := hrest
      simp [hc]
  rw [takeWhile_append_of_pos hcs, dropWhile_append_of_pos hcs, hnil.1, hnil.2]
  simp

variable (p) in
theorem advanceWhile_run (hl : Small l)
    (h : l.rest = cs ++ rest) (hcs : ∀ c ∈ cs, kind c = true) (hrest : Stops kind rest) :
    ∃ l', advanceWhile p kind l = .ok cs l' ∧ Steps l cs l' ∧ l'.rest = rest := by
  have hsplit := takeWhile_of_stops hcs hrest
  obtain ⟨l', hrun, hsteps, hrest'⟩ := advanceWhile_takeWhile p kind hl
  grind

/-! ## Whitespace -/

/-- A text that starts with a token: nothing is skipped in front of it. -/
@[grind cases]
structure StartsToken (c : Char) (rest : List Char) : Prop where
  not_blank : [' ', '\t', '\r', '\n', ','].contains c = false
  not_comment : c ≠ ';'
  not_shebang : c = '#' → rest.head? ≠ some '!'

theorem startsToken_of {P : Char → Prop} (hP : ∀ d ∈ [' ', '\t', '\r', '\n', ',', ';', '#'], ¬ P d)
    (h : P c) (rest : List Char) : StartsToken c rest := by
  have hne : ∀ d ∈ [' ', '\t', '\r', '\n', ',', ';', '#'], c ≠ d := by
    rintro d hd rfl
    exact hP c hd h
  simp only [forall_mem_cons] at hne
  exact ⟨by simp [hne], hne.2.2.2.2.2.1, fun hc => absurd hc hne.2.2.2.2.2.2.1⟩

theorem skip_run (h : l.rest = c :: rest) (hc : StartsToken c rest) :
    skipWhitespaceAndComments p l = .ok () l := by
  have hnext : peekNext l = .ok rest.head? l := by
    rw [peekNext_run, h, getElem?_cons_succ, head?_eq_getElem?]
  rw [skipWhitespaceAndComments, run_bind run_get, skipLoop, run_bind (peek_cons h)]
  by_cases hhash : c = '#'
  · have hne := hc.not_shebang hhash
    simp only [if_pos hhash]
    rw [run_bind run_get, run_bind hnext]
    simp only [hne, and_false, if_false]
    rfl
  · simp only [if_neg hhash, hc.not_blank, Bool.false_eq_true, if_false, if_neg hc.not_comment]
    rfl

theorem nextToken_run (h : l.rest = c :: rest) (hc : StartsToken c rest) : nextToken p l = (do
      let token ← lexLead p l c (lead c rest.head?)
      return (token, ← spanFrom l)) l := by
  rw [nextToken, run_bind (skip_run h hc), run_bind run_get, h]

theorem nextToken_ok {token : Token} (h : l.rest = c :: rest) (hc : StartsToken c rest)
    (hlex : lexLead p l c (lead c rest.head?) l = .ok token l') :
    nextToken p l = .ok (token, ⟨l.pos, l'.pos, l.line, l.col⟩) l' := by
  rw [nextToken_run h hc, run_bind hlex]
  rfl

theorem nextToken_error {e : Raised} (h : l.rest = c :: rest) (hc : StartsToken c rest)
    (hlex : lexLead p l c (lead c rest.head?) l = .error e l') : nextToken p l = .error e l' := by
  rw [nextToken_run h hc, run_bind_error hlex]

/-! ## Jumps -/

theorem splitBytes_append : ∀ (cs rest : List Char),
    splitBytes (utf8Len cs) (cs ++ rest) = some (cs, rest)
  | [], rest => by rw [utf8Len_nil, splitBytes]; rfl
  | c :: cs, rest => by
    have hpos := c.utf8Size_pos
    obtain ⟨n, hn⟩ : ∃ n, utf8Len (c :: cs) = n + 1 :=
      ⟨utf8Len (c :: cs) - 1, by rw [utf8Len_cons]; omega⟩
    have hrest : n + 1 - c.utf8Size = utf8Len cs := by
      rw [← hn, utf8Len_cons]
      omega
    have hle : c.utf8Size ≤ n + 1 := by
      rw [← hn, utf8Len_cons]
      omega
    rw [hn, cons_append, splitBytes, if_pos hle, hrest, splitBytes_append cs rest]
    rfl

variable (p) in
theorem jump_run (hl : Small l) (h : l.rest = cs ++ rest) :
    ∃ l', jump p (utf8Len cs) l = .ok () l' ∧ Steps l cs l' ∧ l'.rest = rest := by
  have hcol := hl.col_pos
  have hroom := hl.room
  rw [h, utf8Len_append] at hroom
  have hmod : utf8Len cs % 2 ^ 32 = utf8Len cs := Nat.mod_eq_of_lt (by omega)
  have hadd : addU32 p l.col (utf8Len cs) l = .ok (l.col + utf8Len cs) l :=
    addU32_run (by omega) l
  refine ⟨⟨rest, l.pos + utf8Len cs, l.line, l.col + utf8Len cs⟩, ?_, ⟨h, rfl, ?_⟩, rfl⟩
  · rw [jump, run_bind run_get, h, splitBytes_append, hmod]
    simp only
    rw [run_bind hadd]
    rfl
  · exact ⟨by simp only; omega, by simp only; omega⟩

end Clojurust.Reader
