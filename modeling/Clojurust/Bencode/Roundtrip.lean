import Clojurust.Bencode.Parser

/-!
# Round trip and streaming

* `parse_encode` — the parser reads what the encoder writes;
* `decode_append` — an answer is the answer for every longer buffer;
* `run_eq_drained` — what the read loop takes out does not depend on the chunks;
* `bencode_round_trip`, `streaming_chunk_independent` — the results.
-/

namespace Clojurust.Bencode

open Decimal ParseInt SortedTable List

/-! ## Numbers -/

theorem scanDigits_digits {stop : UInt8} {msg : String} (hstop : isDigit stop = false)
    {sign : Bool} {after : List UInt8} : ∀ {text : List UInt8}, (∀ b ∈ text, isDigit b = true) →
    scanDigits stop msg sign (text ++ stop :: after) = .ok (text, after)
  | [], _ => by simp [scanDigits]
  | b :: text, h => by
    have hb := h b (.head _)
    have htail : ∀ b ∈ text, isDigit b = true := fun b hb => h b (.tail _ hb)
    have hne : b ≠ stop := by
      rintro rfl
      rw [hb] at hstop
      cases hstop
    rw [cons_append]
    unfold scanDigits
    rw [if_neg hne, if_pos (.inr hb), scanDigits_digits hstop htail]

variable {n : Nat} {b : UInt8} {digits text buf : List UInt8} {r : Reader}

theorem decimalBytes_digit (hb : isDigit b = true) : decimalBytes.digit b = some (b.toNat - 48) :=
  if_pos hb

theorem isNumeral_digits (hne : digits ≠ []) (h : ∀ b ∈ digits, isDigit b = true) :
    IsNumeral decimalBytes digits :=
  ⟨hne, fun b hb => by rw [decimalBytes_digit (h b hb), Option.isSome_some]⟩

theorem value_decimalBytes (h : ∀ b ∈ digits, isDigit b = true) :
    value decimalBytes digits 0 = ofDecimal digits := by
  refine foldl_ext _ _ 0 fun n b hb => ?_
  rw [decimalBytes_digit (h b hb), Option.getD_some, Nat.mul_comm]

theorem parseDigits_decimal {max : Nat} {overflow : IntError} (h : n ≤ max) :
    parseDigits decimalBytes max overflow (decimal n) = .ok n := by
  have hdigits : ∀ b ∈ decimal n, isDigit b = true := fun b hb => isDigit_of_mem_decimal hb
  rw [parseDigits_numeral (isNumeral_digits (decimal_ne_nil n) hdigits), value_decimalBytes hdigits,
    ofDecimal_decimal, if_pos h]

theorem exists_decimal_cons (n : Nat) : ∃ b digits, decimal n = b :: digits ∧ isDigit b = true := by
  cases hn : decimal n with
  | nil => exact absurd hn (decimal_ne_nil n)
  | cons b digits =>
    refine ⟨b, digits, rfl, ?_⟩
    apply isDigit_of_mem_decimal (n := n)
    grind

theorem parseI64_i64ToString (i : Int64) : parseI64 (i64ToString i) = some i := by
  have hlow := i.le_toInt
  have hhigh := i.toInt_lt
  unfold i64ToString
  split
  · have habs : ((i.toInt.natAbs : Nat) : Int) = -i.toInt := by omega
    have hbound : i.toInt.natAbs ≤ 2 ^ 63 - 1 + 1 := by omega
    have hread : parseSigned decimalBytes (2 ^ 63 - 1) (45 :: decimal i.toInt.natAbs) = .ok i.toInt := by
      refine (parseSigned_minus _).trans ?_
      rw [parseDigits_decimal hbound, Except.map, habs, Int.neg_neg]
    rw [parseI64, hread, Except.toOption, Option.map_some, Int64.ofInt_toInt]
  · have habs : ((i.toInt.natAbs : Nat) : Int) = i.toInt := by omega
    have hbound : i.toInt.natAbs ≤ 2 ^ 63 - 1 := by omega
    have hnumeral := isNumeral_digits (decimal_ne_nil i.toInt.natAbs) fun b hb => isDigit_of_mem_decimal hb
    rw [parseI64, parseSigned_numeral hnumeral, parseDigits_decimal hbound, Except.map, habs,
      Except.toOption, Option.map_some, Int64.ofInt_toInt]

/-- A sign, if there is one, and digits. -/
def IntText (text : List UInt8) : Prop :=
  (∀ b ∈ text, isDigit b = true) ∨
    ∃ digits, text = 45 :: digits ∧ ∀ b ∈ digits, isDigit b = true

theorem isDigit_lt (h : isDigit b = true) : b.toNat < 128 := by
  have := isDigit_iff.mp h
  omega

theorem isUtf8_digits (h : ∀ b ∈ text, isDigit b = true) : isUtf8 text = true :=
  isUtf8_of_ascii fun b hb => isDigit_lt (h b hb)

theorem IntText.isUtf8 (h : IntText text) : isUtf8 text = true := by
  rcases h with hdigits | ⟨digits, rfl, hdigits⟩
  · exact isUtf8_digits hdigits
  · apply isUtf8_of_ascii
    intro b hb
    rcases mem_cons.mp hb with rfl | hb
    · decide
    · exact isDigit_lt (hdigits b hb)

theorem IntText.scanInt (h : IntText text) (after : List UInt8) :
    scanInt (text ++ 101 :: after) = .ok (text, after) := by
  rcases h with hdigits | ⟨digits, rfl, hdigits⟩
  · exact scanDigits_digits (by decide) hdigits
  · unfold Bencode.scanInt
    rw [cons_append]
    unfold scanDigits
    rw [if_neg (by decide), if_pos (.inl ⟨rfl, rfl⟩), scanDigits_digits (by decide) hdigits]

theorem intText_i64ToString (i : Int64) : IntText (i64ToString i) := by
  unfold i64ToString
  split
  · exact .inr ⟨_, rfl, fun _ hb => isDigit_of_mem_decimal hb⟩
  · exact .inl fun _ hb => isDigit_of_mem_decimal hb

theorem parseInt_text {n : Int64} (h : IntText text)
    (hn : parseI64 text = some n) (pos : Nat) (after : List UInt8) :
    parseInt ⟨pos, text ++ 101 :: after⟩ = .ok (.int n, ⟨pos + text.length + 1, after⟩) := by
  unfold parseInt
  simp only [h.scanInt, h.isUtf8, hn, if_true]

theorem parseBytes_text (hne : text ≠ [])
    (hdigits : ∀ b ∈ text, isDigit b = true) (pos : Nat) (after : List UInt8) :
    parseBytes ⟨pos, text ++ 58 :: after⟩ =
      if 2 ^ 64 ≤ ofDecimal text then .error (.invalid "bad string length")
      else if 2 ^ 64 ≤ pos + text.length + 1 + ofDecimal text then
        .error (.invalid "string length overflow")
      else if after.length < ofDecimal text then .error .incomplete
      else .ok (.bytes (after.take (ofDecimal text)),
        ⟨pos + text.length + 1 + ofDecimal text, after.drop (ofDecimal text)⟩) := by
  have hscan : scanLength (text ++ 58 :: after) = .ok (text, after) :=
    scanDigits_digits (by decide) hdigits
  have hparse : parseUsize text =
      if 2 ^ 64 ≤ ofDecimal text then none else some (ofDecimal text) := by
    rw [parseUsize, parseUnsigned_numeral (isNumeral_digits hne hdigits), value_decimalBytes hdigits]
    by_cases hbig : 2 ^ 64 ≤ ofDecimal text
    · rw [if_pos hbig, if_neg (by omega)]
      rfl
    · rw [if_neg hbig, if_pos (by omega)]
      rfl
  unfold parseBytes
  simp only [hscan, isUtf8_digits hdigits, if_true, hparse]
  grind

theorem parseBytes_encode (b : List UInt8) {pos : Nat} (after : List UInt8)
    (h : pos + (encodeBytes b).length < 2 ^ 64) :
    parseBytes ⟨pos, encodeBytes b ++ after⟩ =
      .ok (.bytes b, ⟨pos + (encodeBytes b).length, after⟩) := by
  have hlength : (encodeBytes b).length = (decimal b.length).length + 1 + b.length := by
    simp only [encodeBytes, length_append, length_cons]
    omega
  have hdigits : ∀ d ∈ decimal b.length, isDigit d = true := fun _ hd => isDigit_of_mem_decimal hd
  have htext := parseBytes_text (decimal_ne_nil b.length) hdigits pos (b ++ after)
  rw [ofDecimal_decimal, if_neg (by omega), if_neg (by omega),
    if_neg (by rw [length_append]; omega), take_left, drop_left] at htext
  unfold encodeBytes
  grind

/-! ## Values -/

theorem encode_head (v : Bencode) : ∃ b rest, encode v = b :: rest ∧ b ≠ 101 := by
  cases v with
  | int | list | dict => exact ⟨_, _, rfl, by decide⟩
  | bytes b =>
    obtain ⟨d, digits, hn, hd⟩ := exists_decimal_cons b.length
    unfold encode encodeBytes
    rw [hn]
    refine ⟨d, _, rfl, ?_⟩
    rintro rfl
    cases hd

theorem parse_encodeBytes (b : List UInt8) {pos : Nat} (after : List UInt8)
    (h : pos + (encodeBytes b).length < 2 ^ 64) :
    parse ⟨pos, encodeBytes b ++ after⟩ =
      .ok (.bytes b, ⟨pos + (encodeBytes b).length, after⟩) := by
  obtain ⟨d, digits, hn, hd⟩ := exists_decimal_cons b.length
  have hcons : encodeBytes b ++ after = d :: (digits ++ 58 :: b ++ after) := by
    simp only [encodeBytes, hn, cons_append]
  rw [hcons, parse_bytes _ _ hd, ← hcons]
  exact parseBytes_encode b after h

theorem encodeBytes_head (k : List UInt8) (after : List UInt8) :
    (encodeBytes k ++ after).head? ≠ some 101 := by
  obtain ⟨b, rest, hb, hne⟩ := encode_head (.bytes k)
  rw [show encodeBytes k = b :: rest from hb]
  simpa using hne

mutual

/-- **The parser reads what the encoder writes**, whatever follows. -/
theorem parse_encode : ∀ (v : Bencode) (pos : Nat) (after : List UInt8), v.Ordered →
    pos + (encode v).length < 2 ^ 64 →
    parse ⟨pos, encode v ++ after⟩ = .ok (v, ⟨pos + (encode v).length, after⟩)
  | .int i, pos, after, _, _ => by
    unfold encode
    rw [cons_append, append_assoc, singleton_append, parse_int,
      parseInt_text (intText_i64ToString i) (parseI64_i64ToString i)]
    grind
  | .bytes b, pos, after, _, hfits => by
    exact parse_encodeBytes b after hfits
  | .list items, pos, after, hordered, hfits => by
    unfold encode at hfits ⊢
    simp only [length_cons, length_append, length_nil] at hfits ⊢
    rw [cons_append, append_assoc, singleton_append, parse_list,
      listLoop_encodeItems items [] (pos + 1) after hordered (by omega)]
    grind
  | .dict entries, pos, after, hordered, hfits => by
    unfold encode at hfits ⊢
    simp only [length_cons, length_append, length_nil] at hfits ⊢
    rw [cons_append, append_assoc, singleton_append, parse_dict,
      dictLoop_encodeEntries entries [] (pos + 1) after hordered.1 hordered.2 (by omega)]
    grind

theorem listLoop_encodeItems : ∀ (items done : List Bencode) (pos : Nat) (after : List UInt8),
    OrderedItems items → pos + (encodeItems items).length < 2 ^ 64 →
    listLoop done ⟨pos, encodeItems items ++ 101 :: after⟩ =
      .ok (.list (done ++ items), ⟨pos + (encodeItems items).length + 1, after⟩)
  | [], done, pos, after, _, _ => by
    rw [listLoop_eq]
    simp [encodeItems]
  | item :: items, done, pos, after, hordered, hfits => by
    unfold encodeItems at hfits ⊢
    rw [length_append] at hfits
    obtain ⟨b, rest, hb, hne⟩ := encode_head item
    have hhead : (encode item ++ (encodeItems items ++ 101 :: after)).head? ≠ some 101 := by
      rw [hb]
      simpa using hne
    rw [listLoop_eq, append_assoc, if_neg hhead, parse_encode item pos _ hordered.1 (by omega)]
    dsimp only
    rw [listLoop_encodeItems items (done ++ [item]) _ after hordered.2 (by omega)]
    grind

theorem dictLoop_encodeEntries : ∀ (entries done : List (List UInt8 × Bencode)) (pos : Nat)
    (after : List UInt8), (done ++ entries).Pairwise (fun x y => compare x.1 y.1 = .lt) →
    OrderedEntries entries → pos + (encodeEntries entries).length < 2 ^ 64 →
    dictLoop done ⟨pos, encodeEntries entries ++ 101 :: after⟩ =
      .ok (.dict (done ++ entries), ⟨pos + (encodeEntries entries).length + 1, after⟩)
  | [], done, pos, after, _, _, _ => by
    rw [dictLoop_eq]
    simp [encodeEntries]
  | (k, val) :: entries, done, pos, after, hsorted, hordered, hfits => by
    unfold encodeEntries at hfits ⊢
    rw [length_append, length_append] at hfits
    have hlast : insertEntry k val done = done ++ [(k, val)] := by
      apply insertEntry_of_gt
      intro e he
      have hlt := (pairwise_append.mp hsorted).2.2 e he (k, val) (.head _)
      exact Std.OrientedCmp.gt_iff_lt.mpr hlt
    rw [dictLoop_eq, append_assoc, if_neg (encodeBytes_head k _), parse_encodeBytes k _ (by omega)]
    dsimp only
    rw [append_assoc, parse_encode val _ _ hordered.1 (by omega)]
    dsimp only
    rw [hlast, dictLoop_encodeEntries entries (done ++ [(k, val)]) _ after
      (by grind) hordered.2 (by omega)]
    grind

end

/-! ## Decoding -/

theorem decode_eq_some_iff {v : Bencode} :
    decode buf = .ok (some (v, n)) ↔ ∃ rest, parse ⟨0, buf⟩ = .ok (v, ⟨n, rest⟩) := by
  unfold decode
  split
  · rename_i v' c hparse
    simp only [Except.ok.injEq, Option.some.injEq, Prod.mk.injEq, hparse]
    constructor
    · rintro ⟨rfl, rfl⟩
      exact ⟨c.rest, rfl, rfl⟩
    · grind
  all_goals grind

theorem decode_eq_none_iff : decode buf = .ok none ↔ parse ⟨0, buf⟩ = .error .incomplete := by
  unfold decode
  grind

theorem decode_append (more : List UInt8) (h : decode buf ≠ .ok none) :
    decode (buf ++ more) = decode buf := by
  have hsettled : parse ⟨0, buf⟩ ≠ .error .incomplete := fun hinc => h (decode_eq_none_iff.mpr hinc)
  have hlater : parse ⟨0, buf ++ more⟩ = later more (parse ⟨0, buf⟩) := parse_append more hsettled
  unfold decode
  rw [hlater]
  cases hparse : parse ⟨0, buf⟩ with
  | ok => rfl
  | error e =>
    cases e with
    | incomplete => exact absurd hparse hsettled
    | invalid => rfl

theorem decode_consumed {v : Bencode}
    (h : decode buf = .ok (some (v, n))) : 0 < n ∧ n ≤ buf.length := by
  obtain ⟨rest, hparse⟩ := decode_eq_some_iff.mp h
  obtain ⟨used, hbuf, hne, hpos⟩ := parse_advances hparse
  grind

theorem decode_encodeToVec (m : Message) (rest : List UInt8) :
    decode (encodeToVec m ++ rest) = .ok (some (m.value, (encodeToVec m).length)) := by
  have hfits : 0 + (encode m.value).length < 2 ^ 64 := by
    have := m.fits
    omega
  have hparse := parse_encode m.value 0 rest m.ordered hfits
  rw [Nat.zero_add] at hparse
  exact decode_eq_some_iff.mpr ⟨rest, hparse⟩

/-- **Round trip and prefix safety**: a message is decoded from the front of every buffer that
starts with its encoding, with the length of the encoding; every strict prefix of the encoding is
incomplete. -/
theorem bencode_round_trip (m : Message) :
    (∀ rest, decode (encodeToVec m ++ rest) = .ok (some (m.value, (encodeToVec m).length))) ∧
    ∀ p, p <+: encodeToVec m → p ≠ encodeToVec m → decode p = .ok none := by
  refine ⟨decode_encodeToVec m, ?_⟩
  intro p hprefix hne
  obtain ⟨more, hmore⟩ := hprefix
  by_contra hsettled
  -- the answer for the prefix would be the answer for the whole, which consumes all of it
  have hwhole := decode_append more hsettled
  have hround := decode_encodeToVec m []
  rw [append_nil] at hround
  rw [hmore, hround] at hwhole
  have hconsumed := (decode_consumed hwhole.symm).2
  rw [← hmore, length_append] at hconsumed
  grind

/-- The message `li5ee`, and its prefix `li5`. -/
theorem bencode_round_trip_list :
    decode ([108, 105, 53, 101, 101] ++ [101]) = .ok (some (.list [.int 5], 5)) ∧
    decode [108, 105, 53] = .ok none := by
  have hmessage := bencode_round_trip ⟨.list [.int 5], by simp [Ordered, OrderedItems], by decide⟩
  have hencoding : encode (.list [.int 5]) = [108, 105, 53, 101, 101] := by decide
  simp only [encodeToVec, hencoding] at hmessage
  grind

/-! ## The read loop -/

theorem drain_fuel : ∀ {n m : Nat} {r : Reader}, r.buf.length < n → r.buf.length < m →
    r.drain n = r.drain m
  | n + 1, m + 1, r, hn, hm => by
    unfold Reader.drain
    cases hdecode : decode r.buf with
    | error e => rfl
    | ok found =>
      cases found with
      | none => rfl
      | some found =>
        obtain ⟨msg, consumed⟩ := found
        have hconsumed := decode_consumed hdecode
        have hlength : (r.buf.drop consumed).length = r.buf.length - consumed := length_drop
        exact drain_fuel (by dsimp only; omega) (by dsimp only; omega)

/-- Everything complete is taken out. -/
def Reader.drained (r : Reader) : Reader := r.drain (r.buf.length + 1)

theorem drained_of_some {msg : Bencode} {consumed : Nat}
    (h : decode r.buf = .ok (some (msg, consumed))) :
    r.drained = Reader.drained ⟨r.buf.drop consumed, r.messages ++ [msg], r.dropped⟩ := by
  have hconsumed := decode_consumed h
  have hlength : (r.buf.drop consumed).length = r.buf.length - consumed := length_drop
  unfold Reader.drained
  rw [Reader.drain]
  simp only [h]
  exact drain_fuel (by dsimp only; omega) (by dsimp only; omega)

theorem drained_of_none (h : decode r.buf = .ok none) : r.drained = r := by
  unfold Reader.drained Reader.drain
  simp only [h]

theorem drained_of_error {e : BencodeError} (h : decode r.buf = .error e) :
    r.drained = ⟨[], r.messages, some e⟩ := by
  unfold Reader.drained Reader.drain
  simp only [h]

theorem read_of_open (h : r.dropped = none) (chunk : List UInt8) :
    r.read chunk = Reader.drained ⟨r.buf ++ chunk, r.messages, none⟩ := by
  obtain ⟨buf, messages, dropped⟩ := r
  cases h
  rfl

theorem read_drained : ∀ (n : Nat) (r : Reader), r.buf.length ≤ n → r.dropped = none →
    ∀ chunk, r.drained.read chunk = Reader.drained ⟨r.buf ++ chunk, r.messages, none⟩ := by
  intro n
  induction n with
  | zero =>
    intro r hlen hopen chunk
    have hnil : r.buf = [] := length_eq_zero_iff.mp (by omega)
    have hnone : decode r.buf = .ok none := by rw [hnil]; rfl
    rw [drained_of_none hnone, read_of_open hopen]
  | succ =>
    intro r hlen hopen chunk
    cases hdecode : decode r.buf with
    | error e =>
      have hlonger : decode (r.buf ++ chunk) = .error e := by
        rw [decode_append chunk (by rw [hdecode]; exact nofun), hdecode]
      rw [drained_of_error hdecode, drained_of_error (r := ⟨r.buf ++ chunk, r.messages, none⟩) hlonger]
      rfl
    | ok found =>
      cases found with
      | none => rw [drained_of_none hdecode, read_of_open hopen]
      | some found =>
        obtain ⟨msg, consumed⟩ := found
        have hconsumed := decode_consumed hdecode
        have hlonger : decode (r.buf ++ chunk) = .ok (some (msg, consumed)) := by
          rw [decode_append chunk (by rw [hdecode]; exact nofun), hdecode]
        rw [drained_of_some hdecode,
          drained_of_some (r := ⟨r.buf ++ chunk, r.messages, none⟩) hlonger, hopen]
        grind

/-- **The loop sees the stream, not the chunks.** -/
theorem run_eq_drained (chunks : List (List UInt8)) :
    Reader.run chunks = Reader.drained ⟨chunks.flatten, [], none⟩ := by
  have hloop : ∀ (chunks : List (List UInt8)) (buf : List UInt8),
      chunks.foldl Reader.read (Reader.drained ⟨buf, [], none⟩) =
        Reader.drained ⟨buf ++ chunks.flatten, [], none⟩ := by
    intro chunks
    induction chunks with
    | nil => simp
    | cons chunk chunks ih =>
      intro buf
      rw [foldl_cons, read_drained _ ⟨buf, [], none⟩ le_rfl rfl chunk, ih,
        flatten_cons, append_assoc]
  exact hloop chunks []

theorem drained_encodings : ∀ (messages : List Message) (done : List Bencode),
    Reader.drained ⟨(messages.map encodeToVec).flatten, done, none⟩ =
      ⟨[], done ++ messages.map Message.value, none⟩
  | [], done => by
    rw [map_nil, map_nil, append_nil]
    rfl
  | m :: messages, done => by
    rw [map_cons, flatten_cons, map_cons,
      drained_of_some (decode_encodeToVec m (messages.map encodeToVec).flatten)]
    rw [drop_left, drained_encodings messages, append_assoc, singleton_append]

/-- **Streaming does not depend on the chunks**: a value or an error found in a buffer is found in
every longer one, and from every cutting of the encodings of messages into chunks the read loop
takes exactly these messages. -/
theorem streaming_chunk_independent :
    (∀ b c found, decode b = .ok (some found) → decode (b ++ c) = .ok (some found)) ∧
    (∀ b c e, decode b = .error e → decode (b ++ c) = .error e) ∧
    ∀ (messages : List Message) (chunks : List (List UInt8)),
      chunks.flatten = (messages.map encodeToVec).flatten →
      Reader.run chunks = ⟨[], messages.map Message.value, none⟩ := by
  refine ⟨?_, ?_, ?_⟩
  · intro b c found h
    rw [decode_append c (by rw [h]; exact nofun), h]
  · intro b c e h
    rw [decode_append c (by rw [h]; exact nofun), h]
  · intro messages chunks h
    rw [run_eq_drained, h, drained_encodings, nil_append]

/-- The messages `0:` and `i5e`, cut inside the second. -/
theorem streaming_chunk_independent_cut :
    Reader.run [[48, 58, 105], [53, 101]] = ⟨[], [.bytes [], .int 5], none⟩ :=
  streaming_chunk_independent.2.2
    [⟨.bytes [], by simp [Ordered], by decide⟩, ⟨.int 5, by simp [Ordered], by decide⟩]
    [[48, 58, 105], [53, 101]] (by decide)

end Clojurust.Bencode
