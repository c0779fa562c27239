import Clojurust.Lib.Drain

/-!
# Framers

The framers of `crates/cljrs-net/src/frame.rs` put the chunks a connection delivers back together
into messages: lines, pieces between delimiters, and bodies behind a length header.

* `LinesFramer.feed`, `DelimiterFramer.feed`, `LengthPrefixedFramer.feed` — what a chunk gives, and
  the framer it leaves; a `feed` that does not return is `none`;
* `framerTask` — the task that pipes the values of one channel through a framer into another;
* `splitRule`, `lengthRule` — the same framers as rules that cut a buffer, `implements_lines`,
  `implements_delimiter`, `implements_lengthPrefixed`;
* `framers_chunk_independent` — how a stream is cut into chunks does not matter, what the
  length-prefixed framer keeps is bounded, and an oversized frame ends its stream with an error.

Decoding bytes as text (`String::from_utf8_lossy`) is a parameter.
-/

namespace Clojurust.Net

open Drain List

/-! ## Frames -/

/-- The values a framer emits. -/
inductive Frame where
  | str (s : String)
  | byteArray (bytes : List Int8)
  | error (message : String)
  deriving DecidableEq

def bytesValue (bytes : List UInt8) : Frame := .byteArray (bytes.map UInt8.toInt8)

def frameError (message : String) : Frame := .error message

/-- The parameters of `FramerKind::LengthPrefixed`. -/
structure LengthPrefixed where
  prefixLen : Nat
  bigEndian : Bool
  maxFrame : Nat
  deriving DecidableEq

inductive FramerKind where
  | lines
  | delimiter (delim : UInt8)
  | lengthPrefixed (cfg : LengthPrefixed)

/-! ## Splitting at a byte -/

/-- One round of the loop that looks for the position of a byte, drains what is before it and
removes it. -/
def splitRule (delim : UInt8) (emit : List UInt8 → Frame) : Rule Unit UInt8 Frame where
  cut _ buf := (buf.findIdx? (· == delim)).map fun pos =>
    ([emit (buf.take pos)], (), buf.drop (pos + 1))
  weight _ buf := buf.length

def newline : UInt8 := 10

def carriageReturn : UInt8 := 13

/-- A line without the carriage return at its end, as text. -/
def lineValue (decode : List UInt8 → String) (line : List UInt8) : Frame :=
  .str (decode (if line.getLast? = some carriageReturn then line.dropLast else line))

structure LinesFramer where
  buf : List UInt8

def LinesFramer.new : LinesFramer := ⟨[]⟩

def LinesFramer.feed (decode : List UInt8 → String) (self : LinesFramer) (bytes : List UInt8) :
    List Frame × LinesFramer :=
  let (frames, _, buf) := drained (splitRule newline (lineValue decode)) () (self.buf ++ bytes)
  (frames, ⟨buf⟩)

def LinesFramer.finish (decode : List UInt8 → String) (self : LinesFramer) :
    Option Frame × LinesFramer :=
  if self.buf.isEmpty then (none, self) else (some (lineValue decode self.buf), ⟨[]⟩)

structure DelimiterFramer where
  delim : UInt8
  buf : List UInt8

def DelimiterFramer.new (delim : UInt8) : DelimiterFramer := ⟨delim, []⟩

def DelimiterFramer.feed (self : DelimiterFramer) (bytes : List UInt8) :
    List Frame × DelimiterFramer :=
  let (frames, _, buf) := drained (splitRule self.delim bytesValue) () (self.buf ++ bytes)
  (frames, { self with buf })

def DelimiterFramer.finish (self : DelimiterFramer) : Option Frame × DelimiterFramer :=
  if self.buf.isEmpty then (none, self) else (some (bytesValue self.buf), { self with buf := [] })

/-! ## Length headers -/

inductive LpState where
  | header
  | body (bodyLen : Nat)
  /-- A frame was too long; further input is dropped. -/
  | errored
  deriving DecidableEq

structure LengthPrefixedFramer where
  cfg : LengthPrefixed
  buf : List UInt8
  state : LpState

def LengthPrefixedFramer.new (cfg : LengthPrefixed) : LengthPrefixedFramer := ⟨cfg, [], .header⟩

/-- `(n << 8) | b`. -/
def shiftIn (n : UInt64) (b : UInt8) : UInt64 := (n <<< 8) ||| b.toUInt64

def parseLength (cfg : LengthPrefixed) (header : List UInt8) : Nat :=
  let n : UInt64 :=
    if cfg.bigEndian then header.foldl shiftIn 0 else header.reverse.foldl shiftIn 0
  n.toNat

/-- The error for a header that announces too long a body. -/
def tooLong (cfg : LengthPrefixed) (bodyLen : Nat) : Frame :=
  frameError (s!"length-prefixed frame of {bodyLen} bytes exceeds max-frame limit " ++
    s!"({cfg.maxFrame} bytes)")

/-- The loop of `feed`: at most `fuel` rounds, `none` if they are not enough. -/
def feedLoop (cfg : LengthPrefixed) : Nat → LpState → List UInt8 →
    Option (List Frame × LpState × List UInt8)
  | 0, _, _ => none
  | fuel + 1, .header, buf =>
    if buf.length < cfg.prefixLen then some ([], .header, buf)
    else
      let bodyLen := parseLength cfg (buf.take cfg.prefixLen)
      -- rejected before the body is accumulated; the buffer is replaced by an empty one
      if cfg.maxFrame < bodyLen then some ([tooLong cfg bodyLen], .errored, [])
      else feedLoop cfg fuel (.body bodyLen) (buf.drop cfg.prefixLen)
  | fuel + 1, .body bodyLen, buf =>
    if buf.length < bodyLen then some ([], .body bodyLen, buf)
    else do
      let (frames, state, rest) ← feedLoop cfg fuel .header (buf.drop bodyLen)
      return (bytesValue (buf.take bodyLen) :: frames, state, rest)
  | _ + 1, .errored, buf => some ([], .errored, buf)

/-- Every two rounds take a header off the buffer, so the fuel is enough when headers have bytes
(`feedLoop_eq_drained`). -/
def LengthPrefixedFramer.feed (self : LengthPrefixedFramer) (bytes : List UInt8) :
    Option (List Frame × LengthPrefixedFramer) :=
  if self.state = .errored then some ([], self)
  else do
    let buf := self.buf ++ bytes
    let (frames, state, buf) ← feedLoop self.cfg (2 * buf.length + 2) self.state buf
    return (frames, { self with state, buf })

/-! ## The task -/

inductive Framer where
  | lines (f : LinesFramer)
  | delimiter (f : DelimiterFramer)
  | lengthPrefixed (f : LengthPrefixedFramer)

def Framer.new : FramerKind → Framer
  | .lines => .lines .new
  | .delimiter delim => .delimiter (.new delim)
  | .lengthPrefixed cfg => .lengthPrefixed (.new cfg)

variable (decode : List UInt8 → String)

def Framer.feed (bytes : List UInt8) : Framer → Option (List Frame × Framer)
  | .lines f => some ((f.feed decode bytes).1, .lines (f.feed decode bytes).2)
  | .delimiter f => some ((f.feed bytes).1, .delimiter (f.feed bytes).2)
  | .lengthPrefixed f => (f.feed bytes).map fun (frames, f) => (frames, .lengthPrefixed f)

/-- What is left at the end of the stream; a partial length-prefixed frame is discarded. -/
def Framer.finish : Framer → Option Frame
  | .lines f => (f.finish decode).1
  | .delimiter f => f.finish.1
  | .lengthPrefixed _ => none

/-- The bytes a framer keeps between two chunks. -/
def Framer.retained : Framer → List UInt8
  | .lines f | .delimiter f | .lengthPrefixed f => f.buf

/-- Chunk after chunk. -/
def Framer.feedAll (self : Framer) (chunks : List (List UInt8)) : Option (List Frame × Framer) :=
  run (fun framer chunk => framer.feed decode chunk) self chunks

/-- A value taken from the channel of chunks. -/
inductive Item where
  | byteArray (bytes : List UInt8)
  | error (message : String)
  | other (typeName : String)

/-- The frames put on the output channel until it is closed, while its reader takes them all; the
input channel is closed after the items. -/
def framerTask : Framer → List Item → Option (List Frame)
  | framer, [] => some (framer.finish decode).toList
  | _, .error message :: _ => some [.error message]
  | framer, .byteArray bytes :: items => do
    let (frames, framer) ← framer.feed decode bytes
    let more ← framerTask framer items
    return frames ++ more
  | _, .other typeName :: _ =>
    some [frameError s!"frame: unexpected value on :in (expected byte-array, got {typeName})"]

theorem framerTask_chunks : ∀ (framer : Framer) (chunks : List (List UInt8)),
    framerTask decode framer (chunks.map .byteArray) =
      (framer.feedAll decode chunks).map fun (frames, framer) =>
        frames ++ (framer.finish decode).toList
  | framer, [] => by simp [framerTask, Framer.feedAll, run]
  | framer, chunk :: chunks => by
    simp only [map_cons, framerTask, Framer.feedAll, run]
    cases framer.feed decode chunk with
    | none => rfl
    | some res =>
      obtain ⟨frames, framer'⟩ := res
      have ih := framerTask_chunks framer' chunks
      simp only [Framer.feedAll] at ih
      simp only [Option.bind_eq_bind, Option.bind_some, ih]
      cases run (fun framer chunk => framer.feed decode chunk) framer' chunks with
      | none => rfl
      | some => simp

/-! ## Splitting framers drain a buffer -/

theorem splitRule_lawful (delim : UInt8) (emit : List UInt8 → Frame) :
    (splitRule delim emit).Lawful where
  append := by
    intro s buf out s' rest h more
    simp only [splitRule, Option.map_eq_some_iff, Prod.mk.injEq] at h ⊢
    obtain ⟨pos, hpos, rfl, -, rfl⟩ := h
    have hlt : pos < buf.length := (findIdx?_eq_some_iff_getElem.mp hpos).1
    grind
  lowers := by
    intro s buf out s' rest h
    simp only [splitRule, Option.map_eq_some_iff, Prod.mk.injEq] at h ⊢
    obtain ⟨pos, hpos, rfl, -, rfl⟩ := h
    have hlt : pos < buf.length := (findIdx?_eq_some_iff_getElem.mp hpos).1
    grind

theorem settled_splitRule_nil (delim : UInt8) (emit : List UInt8 → Frame) :
    Settled (splitRule delim emit) ((), []) := rfl

theorem implements_lines : Implements (fun framer chunk => Framer.feed decode chunk framer)
      (splitRule newline (lineValue decode)) (fun st => .lines ⟨st.2⟩) :=
  fun _ _ _ => rfl

theorem implements_delimiter (delim : UInt8) :
    Implements (fun framer chunk => Framer.feed decode chunk framer)
      (splitRule delim bytesValue) (fun st => .delimiter ⟨delim, st.2⟩) :=
  fun _ _ _ => rfl

/-! ## The length-prefixed framer drains a buffer -/

/-- A round of the loop of `feed`; after an error the input is dropped byte by byte. -/
def lengthRule (cfg : LengthPrefixed) : Rule LpState UInt8 Frame where
  cut
    | .header, buf =>
      if buf.length < cfg.prefixLen then none
      else
        let bodyLen := parseLength cfg (buf.take cfg.prefixLen)
        if cfg.maxFrame < bodyLen then
          some ([tooLong cfg bodyLen], .errored, buf.drop cfg.prefixLen)
        else some ([], .body bodyLen, buf.drop cfg.prefixLen)
    | .body bodyLen, buf =>
      if buf.length < bodyLen then none
      else some ([bytesValue (buf.take bodyLen)], .header, buf.drop bodyLen)
    | .errored, [] => none
    | .errored, _ :: rest => some ([], .errored, rest)
  weight
    | .header, buf => 2 * buf.length
    | .body _, buf => 2 * buf.length + 1
    | .errored, buf => 2 * buf.length

section LengthRule

variable {cfg : LengthPrefixed}

variable {buf : List UInt8} {s : LpState} {rest : List UInt8} {out : List Frame}

attribute [local simp] lengthRule

theorem cut_header_short (h : buf.length < cfg.prefixLen) :
    (lengthRule cfg).cut .header buf = none := by simp [h]

/-- What a header that announces a body leads to. -/
def announce (cfg : LengthPrefixed) (bodyLen : Nat) : List Frame × LpState :=
  if cfg.maxFrame < bodyLen then ([tooLong cfg bodyLen], .errored) else ([], .body bodyLen)

theorem cut_header (h : cfg.prefixLen ≤ buf.length) : (lengthRule cfg).cut .header buf =
    some ((announce cfg (parseLength cfg (buf.take cfg.prefixLen))).1,
      (announce cfg (parseLength cfg (buf.take cfg.prefixLen))).2, buf.drop cfg.prefixLen) := by
  simp only [lengthRule, if_neg (Nat.not_lt.mpr h), announce]
  split <;> rfl

theorem cut_body_short {bodyLen : Nat} (h : buf.length < bodyLen) :
    (lengthRule cfg).cut (.body bodyLen) buf = none := by simp [h]

theorem cut_body_fits {bodyLen : Nat} (h : bodyLen ≤ buf.length) :
    (lengthRule cfg).cut (.body bodyLen) buf =
      some ([bytesValue (buf.take bodyLen)], .header, buf.drop bodyLen) := by
  simp [Nat.not_lt.mpr h]

theorem cut_cases {s' : LpState} (h : (lengthRule cfg).cut s buf = some (out, s', rest)) :
    (s = .header ∧ cfg.prefixLen ≤ buf.length ∧ rest = buf.drop cfg.prefixLen ∧
      (out, s') = announce cfg (parseLength cfg (buf.take cfg.prefixLen))) ∨
    (∃ bodyLen, s = .body bodyLen ∧ bodyLen ≤ buf.length ∧
      out = [bytesValue (buf.take bodyLen)] ∧ s' = .header ∧ rest = buf.drop bodyLen) ∨
    (s = .errored ∧ ∃ b, buf = b :: rest ∧ out = [] ∧ s' = .errored) := by
  cases s with
  | header =>
    by_cases hlen : buf.length < cfg.prefixLen
    · rw [cut_header_short hlen] at h
      cases h
    · rw [Nat.not_lt] at hlen
      rw [cut_header hlen] at h
      cases h
      exact .inl ⟨rfl, hlen, rfl, rfl⟩
  | body bodyLen =>
    by_cases hlen : buf.length < bodyLen
    · rw [cut_body_short hlen] at h
      cases h
    · rw [cut_body_fits (Nat.not_lt.mp hlen)] at h
      grind
  | errored =>
    cases buf with
    | nil => cases h
    | cons =>
      cases h
      simp

variable (hpos : 0 < cfg.prefixLen)
include hpos

theorem lengthRule_lawful : (lengthRule cfg).Lawful where
  append := by
    intro s buf out s' rest h more
    rcases cut_cases h with ⟨rfl, hlen, rfl, hout⟩ | ⟨bodyLen, rfl, hlen, rfl, rfl, rfl⟩ |
      ⟨rfl, b, rfl, rfl, rfl⟩
    · rw [cut_header (by simp; omega), take_append_of_le_length hlen, ← hout,
        drop_append_of_le_length hlen]
    · rw [cut_body_fits (by simp; omega), take_append_of_le_length hlen,
        drop_append_of_le_length hlen]
    · rfl
  lowers := by
    intro s buf out s' rest h
    rcases cut_cases h with ⟨rfl, hlen, rfl, hout⟩ | ⟨bodyLen, rfl, hlen, rfl, rfl, rfl⟩ |
      ⟨rfl, b, rfl, rfl, rfl⟩
    · have hstate : s' ≠ .header := by
        unfold announce at hout
        grind
      cases s' with
      | header => exact absurd rfl hstate
      | body | errored =>
        simp only [lengthRule, length_drop]
        omega
    all_goals simp only [lengthRule, length_drop, length_cons]
    all_goals omega

theorem drained_errored :
    ∀ buf : List UInt8, drained (lengthRule cfg) .errored buf = ([], .errored, [])
  | [] => rfl
  | b :: buf => by
    have hcut : (lengthRule cfg).cut .errored (b :: buf) = some ([], .errored, buf) := rfl
    rw [drained_of_cut_some (lengthRule_lawful hpos) hcut, drained_errored buf]
    rfl

/-- **The loop returns, with what draining by the rule gives.** -/
theorem feedLoop_eq_drained : ∀ {fuel : Nat} {s : LpState}
    {buf : List UInt8}, s ≠ .errored → (lengthRule cfg).weight s buf < fuel →
    feedLoop cfg fuel s buf = some (drained (lengthRule cfg) s buf) := by
  have hr := lengthRule_lawful hpos
  intro fuel
  induction fuel with
  | zero => omega
  | succ fuel ih =>
    intro s buf hs hw
    cases s with
    | header =>
      by_cases hlen : buf.length < cfg.prefixLen
      · rw [drained_of_cut_none (cut_header_short hlen)]
        simp only [feedLoop, if_pos hlen]
      · have hlen' := Nat.not_lt.mp hlen
        simp only [feedLoop, if_neg hlen]
        have hcut := cut_header hlen'
        have hlow := hr.lowers hcut
        rw [drained_of_cut_some hr hcut]
        unfold announce at hlow ⊢
        split
        · rw [drained_errored hpos]
          rfl
        · rename_i hmax
          simp only [if_neg hmax] at hlow
          rw [ih (by simp) (by omega)]
          rfl
    | body bodyLen =>
      by_cases hlen : buf.length < bodyLen
      · rw [drained_of_cut_none (cut_body_short hlen)]
        simp only [feedLoop, if_pos hlen]
      · have hcut : (lengthRule cfg).cut (.body bodyLen) buf = _ :=
          cut_body_fits (Nat.not_lt.mp hlen)
        have hlow := hr.lowers hcut
        simp only [feedLoop, if_neg hlen]
        rw [drained_of_cut_some hr hcut, ih (by simp) (by omega)]
        rfl
    | errored => exact absurd rfl hs

theorem implements_lengthPrefixed :
    Implements (fun framer chunk => Framer.feed decode chunk framer) (lengthRule cfg)
      (fun st => .lengthPrefixed ⟨cfg, st.2, st.1⟩) := by
  rintro ⟨s, buf⟩ hst chunk
  simp only [Framer.feed, LengthPrefixedFramer.feed, Drain.feed]
  by_cases hs : s = .errored
  · -- a settled framer that has failed keeps nothing
    subst hs
    cases buf with
    | nil =>
      rw [nil_append, drained_errored hpos]
      rfl
    | cons => cases hst
  · have hw : (lengthRule cfg).weight s (buf ++ chunk) < 2 * (buf ++ chunk).length + 2 := by
      cases s <;> simp only [lengthRule] <;> omega
    rw [if_neg hs, feedLoop_eq_drained hpos hs hw]
    rfl

/-! ### What is kept -/

/-- A body that is waited for is within the limit. -/
def Awaits (cfg : LengthPrefixed) : LpState → List UInt8 → Prop
  | .body bodyLen, _ => bodyLen ≤ cfg.maxFrame
  | _, _ => True

omit hpos in
theorem awaits_cut {s' : LpState}
    (h : (lengthRule cfg).cut s buf = some (out, s', rest)) : Awaits cfg s' rest := by
  rcases cut_cases h with ⟨-, -, -, hout⟩ | ⟨-, -, -, -, rfl, -⟩ | ⟨-, -, -, -, rfl⟩
  · unfold announce at hout
    split at hout
    · cases hout
      trivial
    · rename_i hmax
      cases hout
      exact Nat.not_lt.mp hmax
  · trivial
  · trivial

omit hpos in
theorem length_le_of_settled (hst : Settled (lengthRule cfg) (s, buf)) (ha : Awaits cfg s buf) :
    buf.length ≤ cfg.prefixLen + cfg.maxFrame := by
  cases s with
  | header =>
    by_contra hlen
    have hlen' : cfg.prefixLen ≤ buf.length := by omega
    cases (cut_header hlen').symm.trans hst
  | body bodyLen =>
    by_contra hlen
    have ha' : bodyLen ≤ cfg.maxFrame := ha
    have hlen' : bodyLen ≤ buf.length := by omega
    cases hst.symm.trans (cut_body_fits hlen')
  | errored =>
    cases buf with
    | nil => simp
    | cons => cases hst

/-! ### Well-formed streams -/

/-- A header and the body it announces, within the limit. -/
structure Message (cfg : LengthPrefixed) where
  header : List UInt8
  body : List UInt8
  header_length : header.length = cfg.prefixLen
  announced : parseLength cfg header = body.length
  within : body.length ≤ cfg.maxFrame

def Message.bytes (m : Message cfg) : List UInt8 := m.header ++ m.body

theorem drained_message (m : Message cfg) (rest : List UInt8) :
    drained (lengthRule cfg) .header (m.bytes ++ rest) =
      (bytesValue m.body :: (drained (lengthRule cfg) .header rest).1,
        (drained (lengthRule cfg) .header rest).2) := by
  have hr := lengthRule_lawful hpos
  have htake : (m.bytes ++ rest).take cfg.prefixLen = m.header := by
    rw [Message.bytes, append_assoc, ← m.header_length, take_left]
  have hdrop : (m.bytes ++ rest).drop cfg.prefixLen = m.body ++ rest := by
    rw [Message.bytes, append_assoc, ← m.header_length, drop_left]
  have hlen : cfg.prefixLen ≤ (m.bytes ++ rest).length := by
    simp only [Message.bytes, length_append, m.header_length]
    omega
  have hheader := cut_header hlen
  rw [htake, hdrop, m.announced, announce, if_neg (Nat.not_lt.mpr m.within)] at hheader
  have hbody : (lengthRule cfg).cut (.body m.body.length) (m.body ++ rest) =
      some ([bytesValue m.body], .header, rest) := by
    rw [cut_body_fits (by simp), take_left, drop_left]
  rw [drained_of_cut_some hr hheader, drained_of_cut_some hr hbody]
  rfl

theorem drained_messages (rest : List UInt8) :
    ∀ ms : List (Message cfg), drained (lengthRule cfg) .header (ms.flatMap Message.bytes ++ rest) =
      (ms.map (fun m => bytesValue m.body) ++ (drained (lengthRule cfg) .header rest).1,
        (drained (lengthRule cfg) .header rest).2)
  | [] => rfl
  | m :: ms => by
    rw [flatMap_cons, append_assoc, drained_message hpos, drained_messages rest ms]
    rfl

theorem drained_tooLong {header : List UInt8}
    (hheader : header.length = cfg.prefixLen) (hmax : cfg.maxFrame < parseLength cfg header)
    (rest : List UInt8) : drained (lengthRule cfg) .header (header ++ rest) =
      ([tooLong cfg (parseLength cfg header)], .errored, []) := by
  have htake : (header ++ rest).take cfg.prefixLen = header := by
    rw [← hheader, take_left]
  have hlen : cfg.prefixLen ≤ (header ++ rest).length := by
    rw [length_append, hheader]
    omega
  have hcut := cut_header hlen
  rw [htake, announce, if_pos hmax] at hcut
  rw [drained_of_cut_some (lengthRule_lawful hpos) hcut, drained_errored hpos]
  rfl

end LengthRule

/-! ## All framers -/

/-- Every framer but one that reads headers of no bytes. -/
def FramerKind.Productive : FramerKind → Prop
  | .lengthPrefixed cfg => 0 < cfg.prefixLen
  | _ => True

variable {kind : FramerKind}

theorem feedAll_eq_feed (hk : kind.Productive) (chunks : List (List UInt8)) :
    (Framer.new kind).feedAll decode chunks = (Framer.new kind).feed decode chunks.flatten := by
  cases kind with
  | lines =>
    exact (implements_lines decode).run_eq (splitRule_lawful _ _) (settled_splitRule_nil _ _) chunks
  | delimiter delim =>
    exact (implements_delimiter decode delim).run_eq (splitRule_lawful _ _)
      (settled_splitRule_nil _ _) chunks
  | lengthPrefixed cfg =>
    have hstart : Settled (lengthRule cfg) (.header, []) := cut_header_short hk
    exact (implements_lengthPrefixed decode hk).run_eq (lengthRule_lawful hk) hstart chunks

theorem feed_lengthPrefixed {cfg : LengthPrefixed} (hpos : 0 < cfg.prefixLen) (bytes : List UInt8) :
    (Framer.new (.lengthPrefixed cfg)).feed decode bytes =
      some ((drained (lengthRule cfg) .header bytes).1,
        .lengthPrefixed ⟨cfg, (drained (lengthRule cfg) .header bytes).2.2,
          (drained (lengthRule cfg) .header bytes).2.1⟩) :=
  implements_lengthPrefixed decode hpos (.header, []) (cut_header_short hpos) bytes

theorem feed_returns (hk : kind.Productive)
    (bytes : List UInt8) : ∃ res, (Framer.new kind).feed decode bytes = some res := by
  cases kind with
  | lines | delimiter => exact ⟨_, rfl⟩
  | lengthPrefixed => exact ⟨_, feed_lengthPrefixed decode hk bytes⟩

theorem feedAll_errored (cfg : LengthPrefixed) (buf : List UInt8) :
    ∀ chunks, Framer.feedAll decode (.lengthPrefixed ⟨cfg, buf, .errored⟩) chunks =
      some ([], .lengthPrefixed ⟨cfg, buf, .errored⟩)
  | [] => rfl
  | chunk :: chunks => by
    have ih := feedAll_errored cfg buf chunks
    have hfeed : Framer.feed decode chunk (.lengthPrefixed ⟨cfg, buf, .errored⟩) =
        some ([], .lengthPrefixed ⟨cfg, buf, .errored⟩) := rfl
    rw [Framer.feedAll] at ih
    simp only [Framer.feedAll, run, hfeed, Option.bind_eq_bind, Option.bind_some, ih]
    rfl

/-- **Framers are chunk-independent and bounded.**  Cut into any chunks, a stream gives the frames
it gives at once, and so does the task that ends it; what the length-prefixed framer keeps is at
most a header and a body within the limit; and behind any messages a header that announces too
long a body gives an error, after which no frame follows. -/
theorem framers_chunk_independent (decode : List UInt8 → String) (kind : FramerKind)
    (hk : kind.Productive) (chunks : List (List UInt8)) :
    (∃ res, (Framer.new kind).feed decode chunks.flatten = some res ∧
      (Framer.new kind).feedAll decode chunks = some res) ∧
    framerTask decode (Framer.new kind) (chunks.map .byteArray) =
      framerTask decode (Framer.new kind) [.byteArray chunks.flatten] ∧
    ∀ cfg, kind = .lengthPrefixed cfg →
      (∀ frames framer, (Framer.new kind).feedAll decode chunks = some (frames, framer) →
        framer.retained.length ≤ cfg.prefixLen + cfg.maxFrame) ∧
      ∀ (messages : List (Message cfg)) (header rest : List UInt8),
        header.length = cfg.prefixLen → cfg.maxFrame < parseLength cfg header →
        chunks.flatten = messages.flatMap Message.bytes ++ (header ++ rest) →
        ∃ framer, (Framer.new kind).feedAll decode chunks =
            some (messages.map (fun m => bytesValue m.body) ++
              [tooLong cfg (parseLength cfg header)], framer) ∧
          ∀ more, framer.feedAll decode more = some ([], framer) := by
  have hall := feedAll_eq_feed decode hk
  refine ⟨?_, ?_, ?_⟩
  · obtain ⟨res, hres⟩ := feed_returns decode hk chunks.flatten
    grind
  · have hone := framerTask_chunks decode (Framer.new kind) [chunks.flatten]
    rw [hall, flatten_singleton, map_singleton] at hone
    rw [framerTask_chunks, hall, hone]
  · rintro cfg rfl
    have hr := lengthRule_lawful hk
    have hfeed := (hall chunks).trans (feed_lengthPrefixed decode hk chunks.flatten)
    refine ⟨?_, ?_⟩
    · intro frames framer h
      cases h.symm.trans hfeed
      have hawaits := drained_invariant hr (P := Awaits cfg) (fun h _ => awaits_cut h) .header
        chunks.flatten trivial
      exact length_le_of_settled (settled_drained hr .header chunks.flatten) hawaits
    · intro messages header rest hheader hmax hflat
      rw [hflat, drained_messages hk, drained_tooLong hk hheader hmax] at hfeed
      exact ⟨_, hfeed, fun more => feedAll_errored decode cfg [] more⟩

/-- A message of one byte and a header that announces 200, cut inside the message. -/
theorem framers_chunk_independent_split :
    ∃ framer, (Framer.new (.lengthPrefixed ⟨1, true, 16⟩)).feedAll (fun _ => "")
        [[1], [7, 200], [8]] = some ([bytesValue [7], tooLong ⟨1, true, 16⟩ 200], framer) ∧
      ∀ more, framer.feedAll (fun _ => "") more = some ([], framer) :=
  ((framers_chunk_independent (fun _ => "") (.lengthPrefixed ⟨1, true, 16⟩) Nat.one_pos
      [[1], [7, 200], [8]]).2.2 _ rfl).2
    [⟨[1], [7], rfl, by decide, by decide⟩] [200] [8] rfl (by decide) rfl

theorem feedLoop_zero_width (bigEndian : Bool) (maxFrame : Nat) (buf : List UInt8) :
    ∀ fuel, feedLoop ⟨0, bigEndian, maxFrame⟩ fuel .header buf = none ∧
      feedLoop ⟨0, bigEndian, maxFrame⟩ fuel (.body 0) buf = none := by
  have hzero : parseLength ⟨0, bigEndian, maxFrame⟩ [] = 0 := by cases bigEndian <;> rfl
  intro fuel
  induction fuel with
  | zero => exact ⟨rfl, rfl⟩
  | succ fuel ih =>
    refine ⟨?_, ?_⟩
    · simp [feedLoop, hzero, ih.2]
    · simp [feedLoop, ih.1]

/-- A framer with headers of no bytes does not return from its first chunk. -/
theorem zero_width_never_returns :
    ¬ ∃ fuel res, feedLoop ⟨0, true, 16⟩ fuel .header [1] = some res := by
  rintro ⟨fuel, res, h⟩
  rw [(feedLoop_zero_width true 16 [1] fuel).1] at h
  cases h

end Clojurust.Net
