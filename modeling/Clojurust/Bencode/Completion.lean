import Clojurust.Bencode.Roundtrip

/-!
# Buffers that can still become a message

The decoder waits for more bytes in three situations in which none can help: the digits of an
integer, or of a length, are already out of range, or the key of a dictionary is a value of another
kind. Everywhere else some bytes complete the value.

* `completable` — none of the three holds for the unfinished value in the buffer;
* `Mended`, `mended` — then some bytes complete it, otherwise none do.
-/

namespace Clojurust.Bencode

open Decimal ParseInt SortedTable List

/-! ## The unfinished value -/

/-- The text of an integer, as far as it goes, is in range. -/
def intOpen (text : List UInt8) : Bool :=
  text = [] || text = [45] || (parseI64 text).isSome

/-- The length of a byte string, as far as it goes, is in range. -/
def bytesOpen (c : Cursor) : Bool :=
  match scanLength c.rest with
  | .ok _ => true
  | .error _ => c.pos + c.rest.length + 1 + ofDecimal c.rest < 2 ^ 64

/-- A key that has begun is a byte string. -/
def keyOpen : List UInt8 → Bool
  | [] => true
  | b :: _ => isDigit b

mutual

def valueOpen : Nat → Cursor → Bool
  | 0, _ => false
  | fuel + 1, c =>
    match c.rest with
    | [] => true
    | b :: rest =>
      if b = 105 then intOpen rest
      else if b = 108 then listOpen fuel ⟨c.pos + 1, rest⟩
      else if b = 100 then dictOpen fuel ⟨c.pos + 1, rest⟩
      else bytesOpen c

/-- The items that are there are complete; it is the last one that is not. -/
def listOpen : Nat → Cursor → Bool
  | 0, _ => false
  | fuel + 1, c =>
    match parse c with
    | .ok (_, c') => listOpen fuel c'
    | .error _ => valueOpen fuel c

def dictOpen : Nat → Cursor → Bool
  | 0, _ => false
  | fuel + 1, c =>
    match parse c with
    | .error _ => keyOpen c.rest && valueOpen fuel c
    | .ok (_, c') =>
      match parse c' with
      | .error _ => valueOpen fuel c'
      | .ok (_, c'') => dictOpen fuel c''

end

/-- The unfinished value of the buffer has no number out of range and no key of another kind. -/
def completable (buf : List UInt8) : Bool := valueOpen (2 * buf.length + 1) ⟨0, buf⟩

/-! ## Numbers -/

variable {stop : UInt8} {msg : String} {text digits : List UInt8} {c : Cursor} {b : UInt8}
  {c' : Cursor} {v : Bencode} {items : List Bencode} {entries : List (List UInt8 × Bencode)}
  {key buf : List UInt8}

theorem scanDigits_incomplete : ∀ {sign : Bool} {rest : List UInt8},
    scanDigits stop msg sign rest = .error .incomplete →
    stop ∉ rest ∧ IntText rest ∧ (sign = false → ∀ b ∈ rest, isDigit b = true)
  | _, [], _ => ⟨by simp, .inl (by simp), by simp⟩
  | sign, b :: rest, h => by
    unfold scanDigits at h
    split at h
    · cases h
    · rename_i hb
      split at h
      · rename_i hallowed
        have hrest : scanDigits stop msg false rest = .error .incomplete := by
          cases hscan : scanDigits stop msg false rest with
          | error | ok => grind
        obtain ⟨hstop, -, hdigits⟩ := scanDigits_incomplete hrest
        have hstop' : stop ∉ b :: rest := by
          intro hmem
          rcases mem_cons.mp hmem with heq | hmem
          · exact hb heq.symm
          · exact hstop hmem
        rcases hallowed with ⟨rfl, hsign⟩ | hdigit
        · refine ⟨hstop', .inr ⟨rest, rfl, hdigits rfl⟩, ?_⟩
          grind
        · have hall : ∀ b' ∈ b :: rest, isDigit b' = true := by
            intro b' hb'
            rcases mem_cons.mp hb' with rfl | hb'
            · exact hdigit
            · exact hdigits rfl b' hb'
          exact ⟨hstop', .inl hall, fun _ => hall⟩
      · cases h

theorem scanDigits_continues {sign : Bool} {rest more after : List UInt8} (hstop : stop ∉ rest)
    (h : scanDigits stop msg sign (rest ++ more) = .ok (text, after)) :
    ∃ more', text = rest ++ more' := by
  rcases append_eq_append_iff.mp (scanDigits_ok h) with ⟨more', htext, -⟩ | ⟨cut, hrest, hcut⟩
  · exact ⟨more', htext⟩
  · cases cut with
    | nil | cons => grind

theorem parseI64_eq_none : parseI64 text = none ↔
    ∃ e, parseSigned decimalBytes (2 ^ 63 - 1) text = .error e := by
  rw [parseI64, Option.map_eq_none_iff]
  cases parseSigned decimalBytes (2 ^ 63 - 1) text with
  | error e => simp [Except.toOption]
  | ok n => simp [Except.toOption]

theorem exists_int_completion (htext : IntText text) (hopen : intOpen text = true) :
    ∃ more n, IntText (text ++ more) ∧ parseI64 (text ++ more) = some n := by
  unfold intOpen at hopen
  simp only [Bool.or_eq_true, decide_eq_true_eq] at hopen
  have hzero : ∀ b ∈ ([48] : List UInt8), isDigit b = true := by
    intro b hb
    rw [mem_singleton.mp hb]
    rfl
  rcases hopen with (rfl | rfl) | hsome
  · exact ⟨[48], 0, .inl hzero, by decide⟩
  · exact ⟨[48], 0, .inr ⟨[48], rfl, hzero⟩, by decide⟩
  · obtain ⟨n, hn⟩ := Option.isSome_iff_exists.mp hsome
    refine ⟨[], n, ?_, ?_⟩
    all_goals grind

theorem parseI64_append_eq_none (htext : IntText text)
    (hopen : intOpen text = false) (more : List UInt8) : parseI64 (text ++ more) = none := by
  unfold intOpen at hopen
  simp only [Bool.or_eq_false_iff, decide_eq_false_iff_not, Option.isSome_eq_false_iff,
    Option.isNone_iff_eq_none] at hopen
  obtain ⟨⟨hnil, hminus⟩, hnone⟩ := hopen
  have hdigit : IsNumeral decimalBytes text ∨ ∃ digits, digits ≠ [] ∧ text = decimalBytes.minus :: digits := by
    rcases htext with hdigits | ⟨digits, rfl, -⟩
    · exact .inl (isNumeral_digits hnil hdigits)
    · refine .inr ⟨digits, ?_, rfl⟩
      rintro rfl
      exact hminus rfl
  obtain ⟨e, he⟩ := parseI64_eq_none.mp hnone
  exact parseI64_eq_none.mpr ⟨e, parseSigned_append_error hdigit he more⟩

/-! ## Scalars -/

theorem scanInt_of_parseInt (h : parseInt c = .error .incomplete) :
    scanInt c.rest = .error .incomplete := by
  unfold parseInt at h
  grind

/-- Some bytes complete what is read, exactly if it is open. -/
def Mended (read : List UInt8 → Except ParseError (Bencode × Cursor)) (isOpen : Bool) : Prop :=
  (isOpen = true → ∃ more v n, read more = .ok (v, ⟨n, []⟩)) ∧
    (isOpen = false → ∀ more found, read more ≠ .ok found)

theorem parseInt_mended (h : parseInt c = .error .incomplete) :
    Mended (fun more => parseInt (c.append more)) (intOpen c.rest) := by
  obtain ⟨hstop, htext, -⟩ := scanDigits_incomplete (scanInt_of_parseInt h)
  constructor
  · intro hopen
    obtain ⟨more, n, htext', hn⟩ := exists_int_completion htext hopen
    have hparse := parseInt_text htext' hn c.pos []
    rw [append_assoc] at hparse
    exact ⟨more ++ [101], .int n, _, hparse⟩
  · intro hopen more found
    dsimp only
    unfold parseInt
    split
    · exact nofun
    · rename_i text after hscan
      obtain ⟨more', rfl⟩ := scanDigits_continues hstop hscan
      rw [parseI64_append_eq_none htext hopen more']
      split <;> exact nofun

theorem scanDigits_ok_digits : ∀ {rest text after : List UInt8},
    scanDigits stop msg false rest = .ok (text, after) → ∀ b ∈ text, isDigit b = true
  | b :: rest, text, after, h => by
    unfold scanDigits at h
    split at h
    · cases h
      simp
    · split at h
      · split at h
        · cases h
        · rename_i text' after' hscan
          cases h
          intro b' hb'
          rcases mem_cons.mp hb' with rfl | hb'
          · grind
          · exact scanDigits_ok_digits hscan b' hb'
      · cases h

theorem parseBytes_incomplete (hb : c.rest.head? = some b)
    (hdigit : isDigit b = true) (h : parseBytes c = .error .incomplete) :
    (∃ text after, scanLength c.rest = .ok (text, after) ∧ c.rest = text ++ 58 :: after ∧
      text ≠ [] ∧ ∀ b ∈ text, isDigit b = true) ∨
    scanLength c.rest = .error .incomplete ∧ c.rest ≠ [] ∧ ∀ b ∈ c.rest, isDigit b = true := by
  cases hscan : scanLength c.rest with
  | ok found =>
    obtain ⟨text, after⟩ := found
    have hrest := scanDigits_ok hscan
    refine .inl ⟨text, after, rfl, hrest, ?_, scanDigits_ok_digits hscan⟩
    rintro rfl
    rw [hrest] at hb
    cases hb
    cases hdigit
  | error e =>
    have hinc : e = .incomplete := by
      unfold parseBytes at h
      rw [hscan] at h
      cases h
      rfl
    subst hinc
    obtain ⟨-, -, hdigits⟩ := scanDigits_incomplete hscan
    grind

theorem parseBytes_mended (hb : c.rest.head? = some b)
    (hdigit : isDigit b = true) (h : parseBytes c = .error .incomplete) :
    Mended (fun more => parseBytes (c.append more)) (bytesOpen c) := by
  obtain ⟨pos, rest⟩ := c
  unfold bytesOpen
  rcases parseBytes_incomplete hb hdigit h with ⟨text, after, hscan, rfl, hne, hdigits⟩ |
    ⟨hinc, hne, hdigits⟩
  · -- the length is known, bytes are missing
    rw [hscan]
    refine ⟨fun _ => ?_, nofun⟩
    have htext := parseBytes_text hne hdigits pos
    rw [htext] at h
    have hbad : ¬ 2 ^ 64 ≤ ofDecimal text := fun hbad => by rw [if_pos hbad] at h; cases h
    rw [if_neg hbad] at h
    have hover : ¬ 2 ^ 64 ≤ pos + text.length + 1 + ofDecimal text := fun hover => by
      grind
    have hshort : after.length < ofDecimal text := by
      by_contra hshort
      rw [if_neg hover, if_neg hshort] at h
      cases h
    have hall : (after ++ List.replicate (ofDecimal text - after.length) 0).length =
        ofDecimal text := by
      rw [length_append, length_replicate]
      omega
    have hparse := htext (after ++ List.replicate (ofDecimal text - after.length) 0)
    rw [if_neg hbad, if_neg hover, if_neg (by omega), drop_of_length_le (by omega),
      ← cons_append, ← append_assoc] at hparse
    exact ⟨List.replicate (ofDecimal text - after.length) 0, _, _, hparse⟩
  · -- the length itself has not ended
    obtain ⟨hstop, -, -⟩ := scanDigits_incomplete hinc
    dsimp only at hne hdigits hstop
    simp only [hinc]
    refine ⟨fun hopen => ?_, fun hopen more found hok => ?_⟩
    · have hparse := parseBytes_text hne hdigits pos (List.replicate (ofDecimal rest) 0)
      rw [decide_eq_true_eq] at hopen
      rw [if_neg (by omega), if_neg (by omega), if_neg (by rw [length_replicate]; omega),
        drop_of_length_le (by rw [length_replicate])] at hparse
      exact ⟨58 :: List.replicate (ofDecimal rest) 0, _, _, hparse⟩
    · dsimp only [Cursor.append] at hok
      cases hscan : scanLength (rest ++ more) with
      | error e =>
        simp only [parseBytes, hscan] at hok
        cases hok
      | ok read =>
        -- the digits go on, and the number only grows
        obtain ⟨text, after⟩ := read
        obtain ⟨more', htext⟩ := scanDigits_continues hstop hscan
        have hgrows := ofDecimal_le_append rest more'
        have hne' : text ≠ [] := by
          rw [htext]
          simp [hne]
        have hparse := parseBytes_text hne' (scanDigits_ok_digits hscan) pos after
        rw [scanDigits_ok hscan, hparse] at hok
        grind

/-! ## Lists and dictionaries -/

theorem bytes_iff_keyOpen (h : parse c = .ok (v, c')) :
    (∃ b, v = .bytes b) ↔ keyOpen c.rest = true := by
  obtain ⟨pos, rest⟩ := c
  cases rest with
  | nil => cases h
  | cons b =>
    show _ ↔ isDigit b = true
    cases lead b with
    | int =>
      obtain ⟨-, i, rfl⟩ := parseInt_advances h
      exact iff_of_false nofun (by decide)
    | list =>
      obtain ⟨-, items, rfl⟩ := (advances_of_ok _).2.1 _ _ _ _ h
      exact iff_of_false nofun (by decide)
    | dict =>
      obtain ⟨-, entries, rfl⟩ := (advances_of_ok _).2.2 _ _ _ _ h
      exact iff_of_false nofun (by decide)
    | bytes hdigit =>
      rw [parse_bytes _ _ hdigit] at h
      exact iff_of_true (parseBytes_advances h).2 hdigit
    | other hi hl hd hdigit =>
      rw [parse_other _ _ hi hl hd hdigit] at h
      cases h

theorem head_of_ok {found : Bencode × Cursor} (h : parse c = .ok found) :
    c.rest.head? ≠ some 101 := by
  obtain ⟨pos, rest⟩ := c
  cases rest with
  | nil => exact nofun
  | cons =>
    intro hb
    cases hb
    cases h

theorem listLoop_item {item : Bencode}
    (h : parse c = .ok (item, c')) : listLoop items c = listLoop (items ++ [item]) c' := by
  rw [listLoop_eq, if_neg (head_of_ok h), h]

theorem dictLoop_entry {c'' : Cursor} {val : Bencode} (hkey : parse c = .ok (.bytes key, c'))
    (hval : parse c' = .ok (val, c'')) :
    dictLoop entries c = dictLoop (insertEntry key val entries) c'' := by
  rw [dictLoop_eq, if_neg (head_of_ok hkey), hkey]
  simp only [hval]

theorem append_append (c : Cursor) (l l' : List UInt8) :
    c.append (l ++ l') = (c.append l).append l' := by
  unfold Cursor.append
  rw [append_assoc]

theorem parse_then {l : List UInt8} {n : Nat}
    (h : parse (c.append l) = .ok (v, ⟨n, []⟩)) (l' : List UInt8) :
    parse (c.append (l ++ l')) = .ok (v, ⟨n, l'⟩) := by
  rw [append_append, parse_append l' (by rw [h]; exact nofun), h]
  rfl

theorem parse_append_ok (h : parse c = .ok (v, c'))
    (more : List UInt8) : parse (c.append more) = .ok (v, c'.append more) := by
  rw [parse_append more (by rw [h]; exact nofun), h]
  rfl

theorem listLoop_incomplete (h : listLoop items c = .error .incomplete) : c.rest.head? ≠ some 101 ∧
      (parse c = .error .incomplete ∨ ∃ item c', parse c = .ok (item, c') ∧
          listLoop (items ++ [item]) c' = .error .incomplete) := by
  rw [listLoop_eq] at h
  grind

theorem dictLoop_incomplete (h : dictLoop entries c = .error .incomplete) :
    c.rest.head? ≠ some 101 ∧ (parse c = .error .incomplete ∨
        ∃ key c', parse c = .ok (.bytes key, c') ∧ (parse c' = .error .incomplete ∨
            ∃ val c'', parse c' = .ok (val, c'') ∧
              dictLoop (insertEntry key val entries) c'' = .error .incomplete)) := by
  rw [dictLoop_eq] at h
  grind

theorem valueOpen_bytes (fuel pos : Nat) (rest : List UInt8) (hdigit : isDigit b = true) :
    valueOpen (fuel + 1) ⟨pos, b :: rest⟩ = bytesOpen ⟨pos, b :: rest⟩ := by
  obtain ⟨hi, hl, hd⟩ := isDigit_ne hdigit
  unfold valueOpen
  grind

theorem append_head (hne : c.rest ≠ []) (more : List UInt8) :
    (c.append more).rest.head? = c.rest.head? ∧ keyOpen (c.append more).rest = keyOpen c.rest := by
  obtain ⟨pos, rest⟩ := c
  cases rest with
  | nil => exact absurd rfl hne
  | cons => exact ⟨rfl, rfl⟩

theorem rest_ne_nil_of_not_open {fuel : Nat} (h : valueOpen (fuel + 1) c = false) :
    c.rest ≠ [] := by
  obtain ⟨pos, rest⟩ := c
  rintro rfl
  cases h

/-- What is not complete is completed by some bytes, unless it has a number out of range or a key of
another kind, which more bytes do not mend. -/
theorem mended : ∀ fuel, (∀ c, 2 * c.rest.length + 1 ≤ fuel → parse c = .error .incomplete →
      Mended (fun more => parse (c.append more)) (valueOpen fuel c)) ∧
    (∀ items c, 2 * c.rest.length + 2 ≤ fuel → listLoop items c = .error .incomplete →
      Mended (fun more => listLoop items (c.append more)) (listOpen fuel c)) ∧
    (∀ entries c, 2 * c.rest.length + 2 ≤ fuel → dictLoop entries c = .error .incomplete →
      Mended (fun more => dictLoop entries (c.append more)) (dictOpen fuel c))
  | 0 => ⟨by omega, by omega, by omega⟩
  | fuel + 1 => by
    obtain ⟨ihValue, ihList, ihDict⟩ := mended fuel
    refine ⟨?_, ?_, ?_⟩
    · rintro ⟨pos, rest⟩ hfuel h
      cases rest with
      | nil => exact ⟨fun _ => ⟨[108, 101], .list [], pos + 2, rfl⟩, nofun⟩
      | cons b rest =>
        simp only [length_cons] at hfuel
        cases lead b with
        | int => exact parseInt_mended h
        | list => exact ihList [] ⟨pos + 1, rest⟩ (by dsimp only; omega) h
        | dict => exact ihDict [] ⟨pos + 1, rest⟩ (by dsimp only; omega) h
        | bytes hdigit =>
          have hparse : ∀ more, parse (Cursor.append ⟨pos, b :: rest⟩ more) =
              parseBytes (Cursor.append ⟨pos, b :: rest⟩ more) :=
            fun more => parse_bytes pos (rest ++ more) hdigit
          rw [parse_bytes _ _ hdigit] at h
          simp only [hparse, valueOpen_bytes _ _ _ hdigit]
          exact parseBytes_mended rfl hdigit h
        | other hi hl hd hdigit =>
          rw [parse_other _ _ hi hl hd hdigit] at h
          cases h
    · intro items c hfuel h
      unfold listOpen
      obtain ⟨hend, hinc | ⟨item, c', hitem, hrest⟩⟩ := listLoop_incomplete h
      · obtain ⟨hyes, hno⟩ := ihValue c (by omega) hinc
        rw [hinc]
        refine ⟨fun hopen => ?_, fun hopen more found => ?_⟩
        · -- the last item is completed, then the list
          obtain ⟨more, v, n, hmore⟩ := hyes hopen
          refine ⟨more ++ [101], .list (items ++ [v]), n + 1, ?_⟩
          exact (listLoop_item (parse_then hmore [101])).trans rfl
        · have hne : c.rest ≠ [] := by
            cases fuel with
            | zero => omega
            | succ => exact rest_ne_nil_of_not_open hopen
          have hnone : ∀ found, parse (c.append more) ≠ .ok found := hno hopen more
          dsimp only
          rw [listLoop_eq, (append_head hne more).1, if_neg hend]
          grind
      · have hlt := (parse_advances hitem).length_lt
        simp only [hitem, listLoop_item (parse_append_ok hitem _)]
        exact ihList _ c' (by omega) hrest
    · intro entries c hfuel h
      unfold dictOpen
      obtain ⟨hend, hinc | ⟨key, c', hkey, hval | ⟨val, c'', hval, hrest⟩⟩⟩ := dictLoop_incomplete h
      · obtain ⟨hyes, hno⟩ := ihValue c (by omega) hinc
        rw [hinc]
        refine ⟨fun hopen => ?_, fun hopen more found => ?_⟩
        · rw [Bool.and_eq_true] at hopen
          obtain ⟨pos, rest⟩ := c
          cases rest with
          | nil => exact ⟨[101], .dict entries, pos + 1, rfl⟩
          | cons =>
            -- the key is completed, then the empty list as its value, then the dictionary
            obtain ⟨more, v, n, hmore⟩ := hyes hopen.2
            obtain ⟨key, rfl⟩ := (bytes_iff_keyOpen hmore).mpr hopen.1
            refine ⟨more ++ [108, 101, 101], .dict (insertEntry key (.list []) entries), n + 3, ?_⟩
            exact (dictLoop_entry (parse_then hmore [108, 101, 101]) rfl).trans rfl
        · have hne : c.rest ≠ [] := by
            intro hnil
            cases fuel with
            | zero => omega
            | succ =>
              rw [hnil, keyOpen, Bool.true_and] at hopen
              exact rest_ne_nil_of_not_open hopen hnil
          obtain ⟨hhead, hkeyOpen⟩ := append_head hne more
          have hnone : ∀ key c', parse (c.append more) ≠ .ok (.bytes key, c') := by
            intro key c' hparse
            -- it is a byte string that is read as a key
            have hbytes := (bytes_iff_keyOpen hparse).mp ⟨key, rfl⟩
            grind
          dsimp only
          rw [dictLoop_eq, hhead, if_neg hend]
          grind
      · have hlt := (parse_advances hkey).length_lt
        obtain ⟨hyes, hno⟩ := ihValue c' (by omega) hval
        simp only [hkey, hval]
        refine ⟨fun hopen => ?_, fun hopen more found => ?_⟩
        · obtain ⟨more, v, n, hmore⟩ := hyes hopen
          refine ⟨more ++ [101], .dict (insertEntry key v entries), n + 1, ?_⟩
          exact (dictLoop_entry (parse_append_ok hkey _) (parse_then hmore [101])).trans rfl
        · have hnone : ∀ found, parse (c'.append more) ≠ .ok found := hno hopen more
          have hkey := parse_append_ok hkey more
          dsimp only
          rw [dictLoop_eq, if_neg (head_of_ok hkey), hkey]
          grind
      · have hlt := (parse_advances hkey).length_lt
        have hlt' := (parse_advances hval).length_lt
        simp only [hkey, hval, dictLoop_entry (parse_append_ok hkey _) (parse_append_ok hval _)]
        exact ihDict _ c'' (by omega) hrest

/-! ## Waiting -/

theorem decode_completion (h : decode buf = .ok none) (hopen : completable buf = true) :
    ∃ more v, decode (buf ++ more) = .ok (some (v, (buf ++ more).length)) := by
  have hinc := decode_eq_none_iff.mp h
  obtain ⟨more, v, n, hmore⟩ := ((mended _).1 ⟨0, buf⟩ le_rfl hinc).1 hopen
  obtain ⟨used, hused, -, hpos⟩ := parse_advances hmore
  have hall : buf ++ more = used := by
    rw [show buf ++ more = used ++ [] from hused, append_nil]
  have hn : n = (buf ++ more).length := by
    rw [hall]
    exact hpos.trans (Nat.zero_add _)
  exact ⟨more, v, hn ▸ decode_eq_some_iff.mpr ⟨[], hmore⟩⟩

theorem decode_no_completion (h : decode buf = .ok none)
    (hopen : completable buf = false) (more : List UInt8) (found : Bencode × Nat) :
    decode (buf ++ more) ≠ .ok (some found) := by
  intro hfound
  obtain ⟨rest, hparse⟩ := decode_eq_some_iff.mp hfound
  exact ((mended _).1 ⟨0, buf⟩ le_rfl (decode_eq_none_iff.mp h)).2 hopen more _ hparse

/-- **When waiting is justified**: the decoder waits only for buffers that some bytes complete to a
value, and refuses every buffer that none do, exactly where the unfinished value of a buffer it
waits for has no number out of range and no key of another kind. -/
theorem waits_only_for_completable (buf : List UInt8) : ((decode buf = .ok none →
        ∃ more v, decode (buf ++ more) = .ok (some (v, (buf ++ more).length))) ↔
      (decode buf = .ok none → completable buf = true)) ∧
    (((∀ more found, decode (buf ++ more) ≠ .ok (some found)) → ∃ e, decode buf = .error e) ↔
      (decode buf = .ok none → completable buf = true)) := by
  constructor
  · constructor
    · intro hclaim hnone
      obtain ⟨more, v, hmore⟩ := hclaim hnone
      by_contra hopen
      rw [Bool.not_eq_true] at hopen
      exact decode_no_completion hnone hopen more _ hmore
    · intro hopen hnone
      exact decode_completion hnone (hopen hnone)
  · constructor
    · intro hclaim hnone
      by_contra hopen
      rw [Bool.not_eq_true] at hopen
      obtain ⟨e, he⟩ := hclaim (decode_no_completion hnone hopen)
      grind
    · intro hopen hnever
      cases hdecode : decode buf with
      | error e => exact ⟨e, rfl⟩
      | ok found =>
        cases found with
        | some found =>
          have hself := hnever [] found
          grind
        | none =>
          obtain ⟨more, v, hmore⟩ := decode_completion hdecode (hopen hdecode)
          exact absurd hmore (hnever more _)

/-- The decoder waits after `i9999999999999999999`, after twenty digits of a length and after `dl`,
where no bytes help. -/
theorem waits_for_nothing : (decode (105 :: List.replicate 19 57) = .ok none ∧
      ∀ more found, decode (105 :: List.replicate 19 57 ++ more) ≠ .ok (some found)) ∧
    (decode (List.replicate 20 57) = .ok none ∧
      ∀ more found, decode (List.replicate 20 57 ++ more) ≠ .ok (some found)) ∧
    decode [100, 108] = .ok none ∧ ∀ more found, decode ([100, 108] ++ more) ≠ .ok (some found) :=
  ⟨⟨rfl, decode_no_completion rfl (by decide)⟩,
    ⟨rfl, decode_no_completion rfl (by decide)⟩,
    rfl, decode_no_completion rfl (by decide)⟩

end Clojurust.Bencode
